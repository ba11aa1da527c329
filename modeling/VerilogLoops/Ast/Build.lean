import VerilogLoops.Ast.Layout
import VerilogLoops.Grammar.ParseTree
/-!
# Syntax trees from parse trees

A parse tree is turned into a syntax tree from the leaves up. Most tokens stand for their text,
numbers and strings for literal nodes, and a phrase for what its rule makes of the values of its
children. A rule picks its parts by their family where it can, and by their place among the
children where it must, such as on either side of a semicolon. Lists of things, such as the
arguments of a call, are spliced into the children of the phrase around them.

A parse tree from which children were taken away may lack what a rule looks for. Then building
fails with an error that says what was missed.
-/

namespace VerilogLoops.Ast

open VerilogLoops.Lexical VerilogLoops.Grammar

/-- Why a parse tree has no syntax tree. -/
inductive BuildError where
  /-- A phrase needs exactly one child of a family and has this many. -/
  | childCount (phrase : Phrase) (family : String) (found : Nat)
  /-- The header of a for loop needs two semicolons and has this many. -/
  | headerSemicolons (found : Nat)
  /-- A conditional expression does not have three expressions. -/
  | conditionalParts
  /-- A block has no end. -/
  | unfinishedBlock
  /-- An element of the last clause of a for loop is none of the three forms. -/
  | unexpectedStep (shown : String)
  /-- A phrase has too few children. -/
  | missingChild
  /-- A phrase has too few children of a family. -/
  | missingMember
  /-- A phrase does not have exactly one child of a family that has no name. -/
  | namelessFamily
deriving DecidableEq, Repr

/-- The error in words. -/
def BuildError.message : BuildError → String
  | .childCount phrase family found =>
    s!"{phrase.name} should have exactly one {family} child, found {found}"
  | .headerSemicolons found =>
    s!"loop_statement_for should have 2 header semicolons, found {found}"
  | .conditionalParts =>
    "conditional_expression should have 3 Expression children (condition, true, false)"
  | .unfinishedBlock => "'end' is not in list"
  | .unexpectedStep shown => s!"for_step_assignment has unexpected child: {shown}"
  | .missingChild => "list index out of range"
  | .missingMember => "tuple index out of range"
  | .namelessFamily => "'tuple' object has no attribute '__name__'"

/-- What a parse tree stands for. -/
inductive Built where
  /-- Nothing at all, as the end of the input. -/
  | nothing
  | one (v : Value)
  /-- Several values, spliced into the children of the phrase around them. -/
  | several (vs : List Value)
deriving DecidableEq, Repr

/-- The values among the children of the phrase around. -/
def Built.values : Built → List Value
  | .nothing => []
  | .one v => [v]
  | .several vs => vs

/-- What was built as one value; several values are a sequence. -/
def Built.toValue : Built → Value
  | .nothing => .null
  | .one v => v
  | .several vs => .seq vs

/-- The children of a family. -/
def membersOf (family : Family) (children : List Value) : List Value :=
  children.filter (·.isA family)

/-- The one child of a family. -/
def theMember (phrase : Phrase) (family : Family) (children : List Value) :
    Except BuildError Value :=
  match membersOf family children with
  | [v] => .ok v
  | found =>
    match family.name? with
    | some name => .error (.childCount phrase name found.length)
    | none => .error .namelessFamily

/-- The first of some values, if there is one, else no value. -/
def firstOrNull (vs : List Value) : Value :=
  vs.headD .null

/-- The child of an index. -/
def childAt (children : List Value) (i : Nat) : Except BuildError Value :=
  match children[i]? with
  | some v => .ok v
  | none => .error .missingChild

/-- The last child. -/
def lastChild (children : List Value) : Except BuildError Value :=
  match children.getLast? with
  | some v => .ok v
  | none => .error .missingChild

/-- The places of a word among the children. -/
def placesOf (word : String) (children : List Value) : List Nat :=
  (children.zipIdx.filter (fun c => c.1 = .text word)).map (·.2)

/-- The text of a word, or the name of an identifier. -/
def wordOf : Value → String
  | .text s => s
  | .node .identifier _ [.text s] => s
  | _ => ""

/-- The slots of the variables of a foreach loop. Every comma closes a slot, and a slot without a
name has no value. -/
def slotsOf (current : Value) : List Value → List Value
  | [] => [current]
  | v :: rest => if v = .text "," then current :: slotsOf .null rest else slotsOf v rest

/-- The arguments of a call, or no value where no parenthesis is written. -/
def argumentsOf (children : List Value) : Value :=
  if children.contains (.text "(") then .seq (membersOf .argument (children.drop 1)) else .null

/-- Operands with operators between them, joined from the left. -/
def joinOperands (position : Position) (left : Value) : List Value → Except BuildError Value
  | [] => .ok left
  | [_] => .error .missingChild
  | operator :: right :: rest =>
    joinOperands position (.node .binaryOp position [operator, left, right]) rest

/-- A name with its scope. -/
def scopedName (phrase : Phrase) (position : Position) (children : List Value) :
    Except BuildError Value := do
  return .node .scopedIdentifier position
    [firstOrNull (membersOf .qualifier children),
     ← theMember phrase (.only .hierarchicalIdentifier) children]

/-- What a phrase at a position makes of the values of its children. -/
def assemble (phrase : Phrase) (position : Position) (children : List Value) :
    Except BuildError Built :=
  let node (kind : Kind) (fields : List Value) : Built := .one (.node kind position fields)
  let member (family : Family) : Except BuildError Value := theMember phrase family children
  let members (family : Family) : List Value := membersOf family children
  let child (i : Nat) : Except BuildError Value := childAt children i
  match phrase with
  | .comment | .assignSign =>
    match children with
    | [v] => return .one v
    | vs => return .several vs
  -- Names
  | .identifier => return node .identifier [← lastChild children]
  | .variableName | .indexName | .statementLabel | .argument => return .one (← child 0)
  | .hierarchicalName => do
    let root := (← child 0) = .text "$root"
    return node .hierarchicalIdentifier [.bool root, .seq (members (.only .identifier))]
  | .packageScope => return node .packageScope [.text (wordOf (← child 0))]
  | .classHandle => return node .classHandle [.text (String.join (children.map wordOf))]
  | .qualifier => return .one (← member .qualifier)
  | .arrayName | .routineName => return .one (← scopedName phrase position children)
  -- Loop statements
  | .loop | .loopUnit => return .one (← member .loop)
  | .foreverLoop => return node .loopForever [← member .statementOrNull]
  | .repeatLoop => return node .loopRepeat [← member .expression, ← member .statementOrNull]
  | .whileLoop => return node .loopWhile [← member .expression, ← member .statementOrNull]
  | .forLoop =>
    match placesOf ";" children with
    | [first, second] => do
      let rest := children.drop second
      let steps := membersOf .forStep rest
      return node .loopFor
        [firstOrNull (membersOf .forInit (children.take first)),
         firstOrNull (membersOf .expression ((children.take second).drop first)),
         if steps.isEmpty then .null else .seq steps,
         ← theMember phrase .statementOrNull rest]
    | found => throw (.headerSemicolons found.length)
  | .doWhileLoop => return node .loopDoWhile [← member .statementOrNull, ← member .expression]
  | .foreachLoop =>
    return node .loopForeach
      [← member (.only .scopedIdentifier), ← member (.only .loopVariables),
       ← member (.only .statement)]
  | .forInit => return .one (← member .forInit)
  | .forInitAssignments =>
    return node .forInitAssignmentList [.seq (members (.only .variableAssignment))]
  | .forInitDeclarations =>
    return node .forInitDeclarationList [.seq (members (.only .forVariableDeclaration))]
  | .forDeclaration => do
    let var := if (← child 0) = .text "var" then .node .varKeyword position [] else .null
    return node .forVariableDeclaration
      [var, ← member .dataType, .seq (members (.only .forVariableBinding))]
  | .forBinding =>
    return node .forVariableBinding [← member (.only .identifier), ← member .expression]
  | .forStep => return .several (members .forStep)
  | .forStepItem => do
    let v ← child 0
    if v.isA (.only .operatorAssignment) then return node .forStepOperatorAssignment [v]
    else if v.isA (.only .incOrDecExpression) then return node .forStepIncOrDec [v]
    else if v.isA .call then return node .forStepSubroutineCall [v]
    else throw (.unexpectedStep (v.inspect.toOption.getD ""))
  | .loopVariables =>
    return node .loopVariables [.seq (slotsOf .null ((children.drop 1).dropLast))]
  -- Statements
  | .statementOrNull => return .one (← member .statementOrNull)
  | .nullStatement => return node .nullStatement [.seq (members (.only .attributeInstance))]
  | .statement => do
    let first ← child 0
    return node .statement
      [if first.isA (.only .identifier) then first else .null,
       .seq (members (.only .attributeInstance)), ← member .statementItem]
  | .statementItem => return .one (← member .statementItem)
  | .block =>
    match placesOf "end" children with
    | [] => throw .unfinishedBlock
    | stop :: _ => do
      let name ← if (← child 1) = .text ":" then child 2 else pure .null
      return node .seqBlock
        [name, .seq (membersOf .statementOrNull (children.take stop)),
         children.getD (stop + 2) .null]
  | .conditional => do
    let branches := members .statementOrNull
    let condition ← member .expression
    match branches with
    | [] => throw .missingMember
    | first :: others =>
      return node .conditionalStatement [condition, first, firstOrNull others]
  | .jump => return node .jumpStatement [← child 0, firstOrNull (members .expression)]
  | .assignmentStatement =>
    return node .blockingAssignment [← member (.only .operatorAssignment)]
  | .stepStatement => return node .incOrDecStatement [← member (.only .incOrDecExpression)]
  | .callStatement => return node .subroutineCallStatement [← member .call]
  | .attribute => return node .attributeInstance [.seq (members (.only .attrSpec))]
  | .attributeEntry => return node .attrSpec [← child 0, firstOrNull (members .expression)]
  -- Data types
  | .dataType => return .one (← member .dataType)
  | .integerVectorType => do
    let second := children.getD 1 .null
    return node .integerVectorType
      [← child 0, if second.isText then second else .null,
       .seq (members (.only .packedDimension))]
  | .integerAtomType => return node .integerAtomType [← child 0, children.getD 1 .null]
  | .nonIntegerType | .simpleType => return node .builtinType [← child 0]
  | .namedType =>
    return node .namedType
      [firstOrNull (members (.only .packageScope)), ← member (.only .identifier),
       .seq (members (.only .packedDimension))]
  | .packedDimension =>
    match members .expression with
    | [] => return node .packedDimension [.null, .null]
    | [_] => throw .missingMember
    | first :: second :: _ => return node .packedDimension [first, second]
  -- Assignments
  | .variableAssignments => return .several (members (.only .variableAssignment))
  | .variableAssignment =>
    return node .variableAssignment [← child 0, ← lastChild children]
  | .operatorAssignment => return node .operatorAssignment [← child 0, ← child 1, ← child 2]
  | .stepExpression => do
    let first ← child 0
    let second ← child 1
    if first.isText then return node .incOrDecExpression [second, first, .bool true]
    else return node .incOrDecExpression [first, second, .bool false]
  | .lvalue => return .one (← member .expression)
  | .lvalueConcatenation | .concatenation =>
    return node .concatenation [.seq (members .expression)]
  | .variableReference =>
    return node .variableReference
      [← scopedName phrase position children, .seq (members (.only .select))]
  | .select =>
    if children.length = 3 then return node .select [← child 1, .null, .null]
    else return node .select [← child 1, ← child 2, ← child 3]
  -- Calls
  | .call => return .one (← member .call)
  | .systemCall => return node .systemTfCall [← child 0, argumentsOf children]
  | .routineCall | .appliedCall => return node .tfCall [← child 0, argumentsOf children]
  | .arguments => return .several (members .argument)
  | .namedArgument =>
    return node .namedArgument
      [← member (.only .identifier), firstOrNull (members .expression)]
  -- Expressions
  | .expression | .primary | .parenthesized => return .one (← member .expression)
  | .conditionalExpression =>
    match members .expression with
    | [condition, first, second] => return node .conditionalOp [condition, first, second]
    | _ => throw .conditionalParts
  | .chain _ =>
    match children with
    | [] => throw .missingChild
    | first :: rest => return .one (← joinOperands position first rest)
  | .unary =>
    match children with
    | [v] => return .one v
    | _ => return node .unaryOp [← child 0, ← child 1]

-- Its equations are derived here, once for every proof about one phrase.
attribute [local simp] assemble

/-- What a leaf at a position stands for. -/
def buildLeaf (token : Token) (position : Position) (text : String) : Built :=
  match token with
  | .endOfInput => .nothing
  | .number => .one (.node .numberLiteral position [.text text])
  | .string =>
    .one (.node .stringLiteral position [.text (String.ofList (text.toList.drop 1).dropLast)])
  | _ => .one (.text text)

mutual

/-- What a parse tree stands for, given the position of every offset. -/
def buildTree (locate : Nat → Position) : ParseTree → Except BuildError Built
  | .leaf token start text => .ok (buildLeaf token (locate start) text)
  | .node label children => do
    let values ← buildAll locate children
    match label with
    | .phrase p => assemble p (locate (ParseTree.node label children).start) values
    | .whole =>
      match values with
      | [v] => return .one v
      | vs => return .several vs

/-- The values of some parse trees, one behind the other. -/
def buildAll (locate : Nat → Position) : List ParseTree → Except BuildError (List Value)
  | [] => .ok []
  | t :: rest => do return (← buildTree locate t).values ++ (← buildAll locate rest)

end

end VerilogLoops.Ast
