import VerilogLoops.Ast.Value
/-!
# The nodes of a tree and the parts of a loop

A tree can be walked node by node, a node before the nodes in its fields. The nodes that make up
a loop statement and its header give their parts in the order in which they are written, which is
the order of their fields.
-/

namespace VerilogLoops.Ast

mutual

/-- The nodes of a value, a node before those in its fields. -/
def Value.nodes : Value → List Value
  | .seq items => nodesOfAll items
  | .node kind position fields => .node kind position fields :: nodesOfAll fields
  | _ => []

/-- The nodes of some values. -/
def nodesOfAll : List Value → List Value
  | [] => []
  | v :: rest => v.nodes ++ nodesOfAll rest

end

/-- The kinds that give their parts. -/
def Kind.withParts : List Kind :=
  Kind.loops ++ Kind.forInits ++ Kind.forSteps ++ [.forVariableDeclaration, .loopVariables]

/-- The parts of a node in the order in which they are written, if its kind gives them. -/
def Value.parts? : Value → Option (List Value)
  | .node kind _ fields => if Kind.withParts.contains kind then some fields else none
  | _ => none

end VerilogLoops.Ast
