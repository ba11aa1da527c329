import VerilogLoops.Grammar.Phrase
/-!
# Parse trees

A parse tree has a leaf for every token and a node for every phrase. A node stands where its first
child starts and ends where its last child ends, so it needs no offsets of its own, and trivia is
not in the tree.
-/

namespace VerilogLoops.Grammar

open VerilogLoops.Lexical

/-- What a node of a parse tree stands for. -/
inductive Label where
  | phrase (p : Phrase)
  /-- Some symbol and then the end of the input. -/
  | whole
deriving DecidableEq, Repr

/-- The name of a node. -/
def Label.name : Label → String
  | .phrase p => p.name
  | .whole => "unit"

/-- A parse tree. -/
inductive ParseTree where
  | leaf (token : Token) (start : Nat) (text : String)
  | node (label : Label) (children : List ParseTree)
deriving Repr

/-- The offset of the first character. -/
def ParseTree.start : ParseTree → Nat
  | .leaf _ start _ => start
  | .node _ [] => 0
  | .node _ (first :: _) => first.start

/-- The offset behind the last character. -/
def ParseTree.stop : ParseTree → Nat
  | .leaf _ start text => start + text.length
  | .node _ children => stopOfLast children
where
  stopOfLast : List ParseTree → Nat
    | [] => 0
    | [last] => last.stop
    | _ :: second :: rest => stopOfLast (second :: rest)

/-- The children of a node; a leaf has none. -/
def ParseTree.children : ParseTree → List ParseTree
  | .leaf .. => []
  | .node _ children => children

/-- The subtree reached by going to the child of each given index in turn. -/
def ParseTree.descend (t : ParseTree) : List Nat → Option ParseTree
  | [] => some t
  | i :: path => do (← t.children[i]?).descend path

/-- The tree without those of its children whose index is given. -/
def ParseTree.withoutChildren (dropped : List Nat) : ParseTree → ParseTree
  | .leaf token start text => .leaf token start text
  | .node label children =>
    .node label ((children.zipIdx.filter fun c => !dropped.contains c.2).map (·.1))

end VerilogLoops.Grammar
