import VerilogLoops.Ast.Value
/-!
# Source text of a syntax tree

Every node can be written as source text on one line, with one blank between most tokens and with
the parentheses that the precedence of operators needs. How a node is written depends on its kind
alone, so it is given as a *layout*: a list of parts that refer to the fields by their index.

A tree that is read from a document may hold values that have no place in source text. Where a
sequence is wanted and the value is none, or where a node consists of a word and the value is no
text, writing fails. The parts are evaluated from left to right, and the first failure counts.
-/

namespace VerilogLoops.Ast

open VerilogLoops.Document VerilogLoops.Text

/-- Why a tree cannot be written as source text. -/
inductive RenderError where
  /-- A node that consists of a word has some other sort of value in its place. -/
  | notText (sortName : String)
  /-- A value of this sort stands where a sequence is wanted. -/
  | notSequence (sortName : String)
deriving DecidableEq, Repr

/-- The error in words. -/
def RenderError.message : RenderError → String
  | .notText sortName => s!"__str__ returned non-string (type {sortName})"
  | .notSequence sortName => s!"'{sortName}' object is not iterable"

/-- A part of a layout. Numbers are indexes of fields. -/
inductive Part where
  /-- A fixed text. -/
  | fixed (s : String)
  /-- The text of a field. -/
  | field (i : Nat)
  /-- A field that has to be a text. -/
  | word (i : Nat)
  /-- The text of a field, in parentheses if it is a binary or conditional operation. -/
  | operand (i : Nat)
  /-- A unary operator and its operand, with a blank between them if two operators would run
  together. -/
  | unary (operator operand : Nat)
  /-- The text of a field, unless it counts as false. -/
  | ifAny (i : Nat)
  /-- The texts of the items of a field, with a mark between them. -/
  | joined (mark : String) (i : Nat)
  /-- The texts of the items of a field, with commas between them and nothing for an item without
  a value. -/
  | slots (i : Nat)
  /-- The texts of the items of a field, with something in front of and behind each. -/
  | each (before : String) (i : Nat) (after : String)
  /-- Nothing, but the field has to have a text. -/
  | checked (i : Nat)
deriving DecidableEq, Repr

/-- A kind's layout for the given fields. -/
def Kind.layout (kind : Kind) (fields : List Value) : List Part :=
  let present (i : Nat) : Bool := (fields.getD i .null) ≠ .null
  let holds (i : Nat) : Bool := (fields.getD i .null).isTruthy
  let given (i : Nat) (parts : List Part) : List Part := if present i then parts else []
  let provided (i : Nat) (parts : List Part) : List Part := if holds i then parts else []
  match kind with
  | .identifier | .numberLiteral | .builtinType => [.word 0]
  | .hierarchicalIdentifier => provided 0 [.fixed "$root."] ++ [.joined "." 1]
  | .packageScope => [.field 0, .fixed "::"]
  | .classHandle => [.field 0, .fixed "."]
  | .scopedIdentifier => [.ifAny 0, .field 1]
  | .stringLiteral => [.fixed "\"", .field 0, .fixed "\""]
  | .select => [.fixed "[", .field 0] ++ given 1 [.field 1, .field 2] ++ [.fixed "]"]
  | .variableReference => [.field 0, .each "" 1 ""]
  | .concatenation => [.fixed "\x7b", .joined ", " 0, .fixed "\x7d"]
  | .unaryOp => [.unary 0 1]
  | .binaryOp => [.operand 1, .fixed " ", .field 0, .fixed " ", .operand 2]
  | .conditionalOp => [.operand 0, .fixed " ? ", .field 1, .fixed " : ", .field 2]
  | .incOrDecExpression => if holds 2 then [.field 1, .field 0] else [.field 0, .field 1]
  | .namedArgument => [.fixed ".", .field 0, .fixed "("] ++ given 1 [.field 1] ++ [.fixed ")"]
  | .tfCall => .field 0 :: given 1 [.fixed "(", .joined ", " 1, .fixed ")"]
  | .systemTfCall =>
    if present 1 then [.field 0, .fixed "(", .joined ", " 1, .fixed ")"] else [.word 0]
  | .variableAssignment => [.field 0, .fixed " = ", .field 1]
  | .operatorAssignment => [.field 0, .fixed " ", .field 1, .fixed " ", .field 2]
  | .packedDimension => .fixed "[" :: given 0 [.field 0, .fixed ":", .field 1] ++ [.fixed "]"]
  -- the text of the sign is asked for before that of the type, and fails first
  | .integerVectorType =>
    provided 1 [.checked 1] ++ [.field 0] ++ provided 1 [.fixed " ", .field 1] ++ [.each " " 2 ""]
  | .integerAtomType =>
    provided 1 [.checked 1] ++ [.field 0] ++ provided 1 [.fixed " ", .field 1]
  | .namedType => [.ifAny 0, .field 1, .each " " 2 ""]
  | .attrSpec => .field 0 :: given 1 [.fixed " = ", .field 1]
  | .attributeInstance => [.fixed "(* ", .joined ", " 0, .fixed " *)"]
  | .statement => given 0 [.field 0, .fixed ": "] ++ [.each "" 1 " ", .field 2]
  | .nullStatement => [.each "" 0 " ", .fixed ";"]
  | .seqBlock =>
    .fixed "begin" :: given 0 [.fixed " : ", .field 0] ++ [.each " " 1 "", .fixed " end"]
      ++ given 2 [.fixed " : ", .field 2]
  | .conditionalStatement =>
    [.fixed "if (", .field 0, .fixed ") ", .field 1] ++ given 2 [.fixed " else ", .field 2]
  | .jumpStatement => .field 0 :: given 1 [.fixed " ", .field 1] ++ [.fixed ";"]
  | .blockingAssignment | .incOrDecStatement | .subroutineCallStatement =>
    [.field 0, .fixed ";"]
  | .varKeyword => [.fixed "var"]
  | .forVariableBinding => [.field 0, .fixed " = ", .field 1]
  | .forVariableDeclaration =>
    given 0 [.fixed "var "] ++ [.field 1, .fixed " ", .joined ", " 2]
  | .forInitAssignmentList | .forInitDeclarationList => [.joined ", " 0]
  | .forStepOperatorAssignment | .forStepIncOrDec | .forStepSubroutineCall => [.field 0]
  | .loopVariables => [.slots 0]
  | .loopForever => [.fixed "forever ", .field 0]
  | .loopRepeat => [.fixed "repeat (", .field 0, .fixed ") ", .field 1]
  | .loopWhile => [.fixed "while (", .field 0, .fixed ") ", .field 1]
  | .loopFor =>
    .fixed "for (" :: given 0 [.field 0] ++ [.fixed ";"] ++ given 1 [.fixed " ", .field 1]
      ++ [.fixed ";"] ++ given 2 [.fixed " ", .joined ", " 2] ++ [.fixed ") ", .field 3]
  | .loopDoWhile => [.fixed "do ", .field 0, .fixed " while (", .field 1, .fixed ");"]
  | .loopForeach =>
    [.fixed "foreach (", .field 0, .fixed "[", .field 1, .fixed "]) ", .field 2]

/-- A value with its text, which is made when it is asked for. -/
structure Written where
  value : Value
  text : Thunk (Except RenderError String)

/-- A field with its text and, if it is a sequence, its items with theirs. -/
structure WrittenField extends Written where
  items : Thunk (Except RenderError (List Written))

/-- A field that a node does not have. -/
def WrittenField.missing : WrittenField :=
  ⟨⟨.null, .mk fun _ => .ok "None"⟩, .mk fun _ => .error (.notSequence "NoneType")⟩

/-- The operators that would run together with an operator in front of them. -/
def clashing : List Char :=
  "+-!~&|^".toList

/-- The texts of some values, the first failure counting. -/
def textsOf : List Written → Except RenderError (List String)
  | [] => .ok []
  | w :: rest => do return (← w.text.get) :: (← textsOf rest)

/-- The text of a part, for the fields with their texts. -/
def Part.render (fields : List WrittenField) : Part → Except RenderError String
  | .fixed s => .ok s
  | .field i => (fieldAt i).text.get
  | .word i =>
    match (fieldAt i).value with
    | .text s => .ok s
    | other => .error (.notText other.sortName)
  | .operand i => operandText (fieldAt i)
  | .unary i j => do
    let right ← operandText (fieldAt j)
    let left ← (fieldAt i).text.get
    let clash := match right.toList with
      | [] => true
      | c :: _ => clashing.contains c
    -- only what begins with an operator itself can run together with this one
    let stacked := (fieldAt j).value.isA (.only .unaryOp)
      || (fieldAt j).value.isA (.only .incOrDecExpression)
    return left ++ (if stacked && clash then " " else "") ++ right
  | .ifAny i => if (fieldAt i).value.isTruthy then (fieldAt i).text.get else .ok ""
  | .joined mark i => do return mark.intercalate (← textsOf (← (fieldAt i).items.get))
  | .slots i => do
    let items ← (fieldAt i).items.get
    return ", ".intercalate
      (← textsOf (items.map fun w => if w.value = .null then ⟨.null, .mk fun _ => .ok ""⟩ else w))
  | .each before i after => do
    return String.join ((← textsOf (← (fieldAt i).items.get)).map fun s => before ++ s ++ after)
  | .checked i => do
    let _ ← (fieldAt i).text.get
    return ""
where
  /-- The field of an index. -/
  fieldAt (i : Nat) : WrittenField := fields.getD i .missing
  /-- The text of an operand. -/
  operandText (w : WrittenField) : Except RenderError String :=
    if w.value.isA (.only .binaryOp) || w.value.isA (.only .conditionalOp) then do
      return "(" ++ (← w.text.get) ++ ")"
    else w.text.get

/-- The texts of some parts, one behind the other. -/
def renderParts (fields : List WrittenField) : List Part → Except RenderError String
  | [] => .ok ""
  | part :: rest => do return (← part.render fields) ++ (← renderParts fields rest)

/-- The items of a sequence as it is shown: in parentheses, a single one with a comma. -/
def sequenceText : List String → String
  | [item] => "(" ++ item ++ ",)"
  | items => "(" ++ ", ".intercalate items ++ ")"

/-- A field of a node as it is shown. -/
def shownField (field : Field) (text : String) : String :=
  ", " ++ field.name ++ "=" ++ text

/-- A node as it is shown: its kind, its position and its fields by name. -/
def shownNode (kind : Kind) (position : Position) (texts : List String) : String :=
  kind.name ++ "(position=" ++ position.display
    ++ String.join (kind.fields.zipWith shownField texts) ++ ")"

mutual

/-- The text of a value. A node is written as source text, a sequence is only shown. -/
def Value.render : Value → Except RenderError String
  | .null => .ok "None"
  | .bool b => .ok (if b then "True" else "False")
  | .int i => .ok (toString i)
  | .real r => .ok r.text
  | .text s => .ok s
  | .seq items => do return sequenceText (← inspectAll items)
  | .node kind _ fields =>
    let written := writeFields fields
    renderParts written (kind.layout fields)

/-- A value as it is shown for inspection: texts in quotes, nodes by their kind, position and
fields. An identifier is shown by its name alone. -/
def Value.inspect : Value → Except RenderError String
  | .null => .ok "None"
  | .bool b => .ok (if b then "True" else "False")
  | .int i => .ok (toString i)
  | .real r => .ok r.text
  | .text s => .ok (quoted s)
  | .seq items => do return sequenceText (← inspectAll items)
  | .node .identifier _ [name] => do return "Identifier('" ++ (← name.render) ++ "')"
  | .node kind position fields => do return shownNode kind position (← inspectAll fields)

/-- The values as they are shown for inspection. -/
def inspectAll : List Value → Except RenderError (List String)
  | [] => .ok []
  | v :: rest => do return (← v.inspect) :: (← inspectAll rest)

/-- The values with their texts. -/
def writeAll : List Value → List Written
  | [] => []
  | v :: rest => ⟨v, .mk fun _ => v.render⟩ :: writeAll rest

/-- The items of a value with their texts. A text is a sequence of characters. -/
def writeItems : Value → Except RenderError (List Written)
  | .seq items => .ok (writeAll items)
  | .text s =>
    .ok (s.toList.map fun c =>
      ⟨.text (String.singleton c), .mk fun _ => .ok (String.singleton c)⟩)
  | .null => .error (.notSequence "NoneType")
  | .bool _ => .error (.notSequence "bool")
  | .int _ => .error (.notSequence "int")
  | .real _ => .error (.notSequence "float")
  | .node kind _ _ => .error (.notSequence kind.name)

/-- The fields with their texts and the texts of their items. -/
def writeFields : List Value → List WrittenField
  | [] => []
  | v :: rest =>
    ⟨⟨v, .mk fun _ => v.render⟩, .mk fun _ => writeItems v⟩ :: writeFields rest

end

end VerilogLoops.Ast
