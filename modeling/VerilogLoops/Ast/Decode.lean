import VerilogLoops.Ast.Value
/-!
# Syntax trees from documents

A map is read as a node. Its `_type` names the kind, its `_position` may be left out, and every
other key has to name a field of the kind, unless it starts with an underscore, in which case it is
passed over. The checks are made in a fixed order, the fields are read in the order in which the
document has them, and the first failure counts. What a field holds is not checked against the
kind: any value may stand in any field.
-/

namespace VerilogLoops.Ast

open VerilogLoops.Document VerilogLoops.Number

/-- Why a document is no syntax tree. -/
inductive DecodeError where
  /-- A node is wanted and this kind of data found. -/
  | notNode (kindName : String)
  | missingType
  /-- The type of a node is a list, a map or a set. -/
  | compoundType (kindName : String)
  | unknownType (shown : String)
  | malformedPosition (shown : String)
  /-- A document that belongs to the message holds a whole number that cannot be shown. -/
  | digitLimit
  /-- A key is no text. -/
  | keyNotText (kindName : String)
  /-- A key is binary data. -/
  | keyBinary
  | unknownField (name kind : String)
  /-- A kind of data that no field can hold. -/
  | unsupported (kindName : String)
  /-- Fields that may not be left out, in the order of the kind. -/
  | missingFields (kind : String) (names : List String)
deriving DecidableEq, Repr

/-- How an error counts: what is wrong is a value, the type of a value, or that a value has no parts
of its own. -/
inductive ErrorSort where
  | value
  | type
  | attribute
deriving DecidableEq, Repr

/-- The sort of an error. Only a document with data that no JSON text stands for, or with a compound
type, has an error that is not about a value. -/
def DecodeError.sort : DecodeError → ErrorSort
  | .compoundType _ | .unsupported _ | .keyBinary => .type
  | .keyNotText _ => .attribute
  | .notNode _ | .missingType | .unknownType _ | .malformedPosition _ | .digitLimit | .unknownField ..
  | .missingFields .. => .value

/-- Names in quotes, with a word in front of the last one. -/
def enumerated : List String → String
  | [] => ""
  | [a] => s!"'{a}'"
  | [a, b] => s!"'{a}' and '{b}'"
  | names =>
    ", ".intercalate (names.dropLast.map fun a => s!"'{a}'")
      ++ ", and '" ++ names.getLastD "" ++ "'"

/-- The error in words. -/
def DecodeError.message : DecodeError → String
  | .notNode kindName => s!"Expected a node dictionary, got {kindName}"
  | .missingType => "Missing '_type' field in node data"
  | .compoundType kindName => s!"unhashable type: '{kindName}'"
  | .unknownType shown => s!"Unknown node type: {shown}"
  | .malformedPosition shown => s!"Malformed position data: {shown}"
  | .digitLimit => DigitLimitError.showing.message
  | .keyBinary => "startswith first arg must be bytes or a tuple of bytes, not str"
  | .keyNotText kindName => s!"'{kindName}' object has no attribute 'startswith'"
  | .unknownField name kind => s!"Unknown field '{name}' for node type {kind}"
  | .unsupported kindName => s!"Unsupported type for deserialization: <class '{kindName}'>"
  | .missingFields kind names =>
    let plural := if names.length = 1 then "" else "s"
    s!"Malformed data for node type {kind}: {kind}.__init__() missing {names.length} required "
      ++ s!"positional argument{plural}: {enumerated names}"

/-- An error about a document that is shown in the message. -/
def DecodeError.about (error : String → DecodeError) (data : Data) (shown : String) :
    DecodeError :=
  if data.isShowable then error shown else .digitLimit

/-- The kind that a map names as its type. -/
def decodeKind (entries : List (Data × Data)) : Except DecodeError Kind :=
  match lookup "_type" entries with
  | none => .error .missingType
  | some (.text name) =>
    match Kind.ofName? name with
    | some kind => .ok kind
    | none => .error (.unknownType name)
  | some (.list _) => .error (.compoundType "list")
  | some (.map _) => .error (.compoundType "dict")
  | some (.set _) => .error (.compoundType "set")
  | some other => .error (.about .unknownType other other.display)

/-- A position. It has an origin, a line and a column, which may be anything. -/
def decodePosition (data : Data) : Except DecodeError Position :=
  match data with
  | .map entries =>
    match lookup "origin" entries, lookup "line" entries, lookup "column" entries with
    | some origin, some line, some column => .ok ⟨origin, line, column⟩
    | _, _, _ => .error (.about .malformedPosition data data.inspect)
  | _ => .error (.about .malformedPosition data data.inspect)

/-- The position that a map gives, or the unknown one if it gives none. -/
def decodeNodePosition (entries : List (Data × Data)) : Except DecodeError Position :=
  match lookup "_position" entries with
  | some data => decodePosition data
  | none => .ok .unknown

/-- The value of a field among those that were read, or what takes its place. -/
def Field.fill (given : List (String × Value)) (field : Field) : Option Value :=
  match given.lookup field.name, field.fallback with
  | some v, _ => some v
  | none, .nothing => some .null
  | none, .emptySequence => some (.seq [])
  | none, .required => none

/-- The node of a kind with the fields that were read. -/
def fillNode (kind : Kind) (position : Position) (given : List (String × Value)) :
    Except DecodeError Value :=
  match (kind.fields.filter fun f => (f.fill given).isNone).map (·.name) with
  | [] => .ok (.node kind position (kind.fields.filterMap (·.fill given)))
  | missing => .error (.missingFields kind.name missing)

mutual

/-- The value of a field. -/
def decodeValue : Data → Except DecodeError Value
  | .null => .ok .null
  | .bool b => .ok (.bool b)
  | .int i => .ok (.int i)
  | .real r => .ok (.real r)
  | .text s => .ok (.text s)
  | .list items => do return .seq (← decodeItems items)
  | .map entries => do
    let kind ← decodeKind entries
    let position ← decodeNodePosition entries
    fillNode kind position (← decodeFields kind entries)
  | data => .error (.unsupported data.fullKindName)

/-- The values of the items of a list. -/
def decodeItems : List Data → Except DecodeError (List Value)
  | [] => .ok []
  | item :: rest => do return (← decodeValue item) :: (← decodeItems rest)

/-- The values of the fields of a node by name, in the order of the document. -/
def decodeFields (kind : Kind) : List (Data × Data) → Except DecodeError (List (String × Value))
  | [] => .ok []
  | (.text name, data) :: rest =>
    if name.startsWith "_" then decodeFields kind rest
    else if kind.fields.all (·.name ≠ name) then .error (.unknownField name kind.name)
    else do return (name, ← decodeValue data) :: (← decodeFields kind rest)
  | (.binary _, _) :: _ => .error .keyBinary
  | (key, _) :: _ => .error (.keyNotText key.fullKindName)

end

/-- The tree of a document, which is a map; no value stands for no tree. -/
def decodeTree : Data → Except DecodeError (Option Value)
  | .null => .ok none
  | .map entries => do return some (← decodeValue (.map entries))
  | data => .error (.notNode data.kindName)

end VerilogLoops.Ast
