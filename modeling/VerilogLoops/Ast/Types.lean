import VerilogLoops.Ast.Parts
import VerilogLoops.Lexical.Token
/-!
# The types of fields

A tree may hold any values in its fields, but a tree from source text does not: the data model gives
every field of every kind a type. A type says which family a node belongs to, whether the field may
be without a value, and whether a sequence may be empty. A few conditions tie two fields of a node
together, and one ties a call to the node around it.
-/

namespace VerilogLoops.Ast

open VerilogLoops.Lexical VerilogLoops.Document

/-- What a field may hold. -/
inductive FieldType where
  | text
  /-- The text of an identifier. -/
  | name
  | flag
  | node (family : Family)
  /-- A variable, or a concatenation of what may be assigned to. -/
  | lvalue
  /-- No value, or a value of the type. -/
  | maybe (t : FieldType)
  /-- A sequence of values of the type. -/
  | several (t : FieldType)
  /-- A sequence of at least one value of the type. -/
  | filled (t : FieldType)
deriving DecidableEq, Repr

/-- The types of the fields of a kind, in order. -/
def Kind.types : Kind → List FieldType
  | .identifier => [.name]
  | .hierarchicalIdentifier => [.flag, .filled (.node (.only .identifier))]
  | .packageScope | .classHandle => [.text]
  | .scopedIdentifier => [.maybe (.node .qualifier), .node (.only .hierarchicalIdentifier)]
  | .numberLiteral | .stringLiteral => [.text]
  | .select => [.node .expression, .maybe .text, .maybe (.node .expression)]
  | .variableReference => [.node (.only .scopedIdentifier), .several (.node (.only .select))]
  | .concatenation => [.filled (.node .expression)]
  | .unaryOp => [.text, .node .expression]
  | .binaryOp => [.text, .node .expression, .node .expression]
  | .conditionalOp => [.node .expression, .node .expression, .node .expression]
  | .incOrDecExpression => [.lvalue, .text, .flag]
  | .namedArgument => [.node (.only .identifier), .maybe (.node .expression)]
  | .tfCall => [.node (.only .scopedIdentifier), .maybe (.several (.node .argument))]
  | .systemTfCall => [.text, .maybe (.several (.node .argument))]
  | .variableAssignment => [.lvalue, .node .expression]
  | .operatorAssignment => [.lvalue, .text, .node .expression]
  | .packedDimension => [.maybe (.node .expression), .maybe (.node .expression)]
  | .integerVectorType => [.text, .maybe .text, .several (.node (.only .packedDimension))]
  | .integerAtomType => [.text, .maybe .text]
  | .builtinType => [.text]
  | .namedType =>
    [.maybe (.node (.only .packageScope)), .node (.only .identifier),
     .several (.node (.only .packedDimension))]
  | .attrSpec => [.node (.only .identifier), .maybe (.node .expression)]
  | .attributeInstance => [.filled (.node (.only .attrSpec))]
  | .statement =>
    [.maybe (.node (.only .identifier)), .several (.node (.only .attributeInstance)),
     .node .statementItem]
  | .nullStatement => [.several (.node (.only .attributeInstance))]
  | .seqBlock =>
    [.maybe (.node (.only .identifier)), .several (.node .statementOrNull),
     .maybe (.node (.only .identifier))]
  | .conditionalStatement =>
    [.node .expression, .node .statementOrNull, .maybe (.node .statementOrNull)]
  | .jumpStatement => [.text, .maybe (.node .expression)]
  | .blockingAssignment => [.node (.only .operatorAssignment)]
  | .incOrDecStatement => [.node (.only .incOrDecExpression)]
  | .subroutineCallStatement => [.node .call]
  | .varKeyword => []
  | .forVariableBinding => [.node (.only .identifier), .node .expression]
  | .forVariableDeclaration =>
    [.maybe (.node (.only .varKeyword)), .node .dataType,
     .filled (.node (.only .forVariableBinding))]
  | .forInitAssignmentList => [.filled (.node (.only .variableAssignment))]
  | .forInitDeclarationList => [.filled (.node (.only .forVariableDeclaration))]
  | .forStepOperatorAssignment => [.node (.only .operatorAssignment)]
  | .forStepIncOrDec => [.node (.only .incOrDecExpression)]
  | .forStepSubroutineCall => [.node .call]
  | .loopVariables => [.filled (.maybe (.node (.only .identifier)))]
  | .loopForever => [.node .statementOrNull]
  | .loopRepeat | .loopWhile => [.node .expression, .node .statementOrNull]
  | .loopFor =>
    [.maybe (.node .forInit), .maybe (.node .expression), .maybe (.filled (.node .forStep)),
     .node .statementOrNull]
  | .loopDoWhile => [.node .statementOrNull, .node .expression]
  | .loopForeach =>
    [.node (.only .scopedIdentifier), .node (.only .loopVariables), .node (.only .statement)]

/-- The text is an escaped identifier, or an identifier that is no reserved word. -/
def isNameText (text : String) : Bool :=
  escapedIdentifier? text.toList = some text.toList.length ||
    (identifier? text.toList = some text.toList.length && !reservedWords.contains text)

mutual

/-- The value may be assigned to: a variable, or a concatenation of such values. -/
def Value.isLvalue : Value → Bool
  | .node .variableReference _ _ => true
  | .node .concatenation _ [.seq items] => areLvalues items
  | _ => false

/-- All values may be assigned to. -/
def areLvalues : List Value → Bool
  | [] => true
  | v :: rest => v.isLvalue && areLvalues rest

end

/-- The value has the type. -/
def FieldType.holds : FieldType → Value → Bool
  | .text, v => v.isText
  | .name, .text s => isNameText s
  | .name, _ => false
  | .flag, .bool _ => true
  | .flag, _ => false
  | .node family, v => v.isA family
  | .lvalue, v => v.isLvalue
  | .maybe t, v => v = .null || t.holds v
  | .several t, .seq items => items.all t.holds
  | .several _, _ => false
  | .filled t, .seq items => !items.isEmpty && items.all t.holds
  | .filled _, _ => false

/-- The values have the types, one by one. -/
def haveTypes : List FieldType → List Value → Bool
  | [], [] => true
  | t :: types, v :: values => t.holds v && haveTypes types values
  | _, _ => false

/-- The fields of a node go together: a part select has its operator and its width, a dimension both
bounds or none, and only `return` comes with an expression. -/
def Kind.agrees : Kind → List Value → Bool
  | .select, [_, operator, width] => operator = .null ↔ width = .null
  | .packedDimension, [msb, lsb] => msb = .null ↔ lsb = .null
  | .jumpStatement, [keyword, expr] => keyword = .text "return" || expr = .null
  | _, _ => true

/-- The value is a call without parentheses. -/
def Value.isBareCall : Value → Bool
  | .node .tfCall _ [_, .null] => true
  | _ => false

/-- The kinds under which a call may go without parentheses. -/
def Kind.callers : List Kind :=
  [.subroutineCallStatement, .forStepSubroutineCall]

mutual

/-- The nodes that a value is or has for items. -/
def Value.heads : Value → List Value
  | .seq items => headsOf items
  | .node kind position fields => [.node kind position fields]
  | _ => []

/-- The nodes that some values are or have for items. -/
def headsOf : List Value → List Value
  | [] => []
  | v :: rest => v.heads ++ headsOf rest

end

/-- The child nodes of a node, in the order of its fields. -/
def Value.childNodes : Value → List Value
  | .node _ _ fields => headsOf fields
  | _ => []

/-- The position of a node of source text: an origin, a line and a column. -/
def Position.isPlace : Position → Bool
  | ⟨.text _, .int _, .int _⟩ => true
  | _ => false

/-- The fields of a node have their types and go together, and no call among its child nodes goes
without parentheses unless the kind allows it. -/
def Kind.admits (kind : Kind) (fields : List Value) : Bool :=
  haveTypes kind.types fields && kind.agrees fields &&
    (Kind.callers.contains kind || (headsOf fields).all (!·.isBareCall))

/-- The value is a node whose position and fields are as the data model says. -/
def Value.isWellFormed : Value → Bool
  | .node kind position fields => position.isPlace && kind.admits fields
  | _ => false

/-- The tree satisfies the data model: every node in it does. -/
def Value.isTyped (v : Value) : Bool :=
  v.nodes.all Value.isWellFormed

-- The equations of the two tables are derived here, once for every proof about one kind.
attribute [local simp] Kind.types FieldType.holds

end VerilogLoops.Ast
