import VerilogLoops.Number.Numeral
import VerilogLoops.Yaml.Character
/-!
# Tags

The tag of a node says what kind of data it stands for. It may be written in front of the node: in
full between angle brackets, with one exclamation mark as a tag of one's own, or with two as a tag
of YAML itself. A lone exclamation mark asks for the tag that a plain scalar would have.
-/

namespace VerilogLoops.Yaml

open VerilogLoops.Number

/-- What a node stands for. -/
inductive Tag where
  | text | nothing | truth | integer | real | time
  /-- The sign that merges one map into another. -/
  | merge
  /-- The sign for the value of a map. -/
  | value
  | binary | list | map
  /-- The keys of a map, without their values. -/
  | set
  /-- A list of maps of one entry each, whose keys differ or may repeat. -/
  | orderedMap | pairs
  /-- Any other tag. -/
  | other (name : String)
deriving DecidableEq, Repr

/-- What the names of YAML's own tags begin with. -/
def ownTags : String :=
  "tag:yaml.org,2002:"

/-- The names of YAML's own tags. -/
def tagNames : List (String × Tag) :=
  [("str", .text), ("null", .nothing), ("bool", .truth), ("int", .integer), ("float", .real),
   ("timestamp", .time), ("merge", .merge), ("value", .value), ("binary", .binary),
   ("seq", .list), ("map", .map), ("set", .set), ("omap", .orderedMap), ("pairs", .pairs)]

/-- The tag of a name. -/
def Tag.ofName (name : String) : Tag :=
  match tagNames.find? fun n => ownTags ++ n.1 = name with
  | some n => n.2
  | none => .other name

/-- The name of a tag. -/
def Tag.name : Tag → String
  | .other name => name
  | tag => ownTags ++ ((tagNames.find? (·.2 = tag)).map (·.1)).getD ""

/-- A letter or a digit of ASCII. -/
def isAlphanumeric (c : Char) : Bool :=
  c.isDigit || ('a' ≤ c && c ≤ 'z') || ('A' ≤ c && c ≤ 'Z')

/-- The characters of a tag behind its exclamation marks. -/
def isTagCharacter (c : Char) : Bool :=
  isAlphanumeric c || "-;/?:@&=+$,_.!~*'()[]".toList.contains c

/-- A tag as it is written: a lone exclamation mark, or the tag that is named. -/
inductive WrittenTag where
  | asPlain
  | named (tag : Tag)
deriving DecidableEq, Repr

/-- The written tag of a name. A lone exclamation mark may also be given as a name. -/
def WrittenTag.ofName (name : String) : WrittenTag :=
  if name = "!" then .asPlain else .named (.ofName name)

/-- A hexadecimal digit. -/
def isHexDigit (c : Char) : Bool :=
  c.isDigit || ('a' ≤ c && c ≤ 'f') || ('A' ≤ c && c ≤ 'F')

/-- The octets of a name in which two hexadecimal digits behind a percent sign stand for one. -/
def nameOctets? : List Char → Option (List UInt8)
  | [] => some []
  | '%' :: a :: b :: rest => do
    if isHexDigit a && isHexDigit b then
      return UInt8.ofNat (valueInBase 16 [a, b]) :: (← nameOctets? rest)
    else none
  | c :: rest => do
    if c = '%' then none else return UInt8.ofNat c.toNat :: (← nameOctets? rest)

/-- A tag behind `skipped` characters, with the beginning of its name, and where it ends. -/
def namedTag? (start : String) (skipped : Nat) (rest : List Char) :
    Option (WrittenTag × Nat) := do
  let written := rest.takeWhile fun c => isTagCharacter c || c = '%'
  let octets ← nameOctets? written
  let name ← String.fromUTF8? ⟨octets.toArray⟩
  if written.isEmpty then none
  else return (.ofName (start ++ name), skipped + written.length)

/-- A tag in angle brackets, and where it ends. -/
def fullTag? (rest : List Char) : Option (WrittenTag × Nat) := do
  let (tag, stop) ← namedTag? "" 2 rest
  if headIs (· = '>') (rest.drop (stop - 2)) then return (tag, stop + 1) else none

/-- A tag behind an exclamation mark, and where it ends. With a second mark before the next blank it
has to be a tag of YAML itself. -/
def shortTag? (rest : List Char) : Option (WrittenTag × Nat) :=
  if headIsOrEnd isGap rest then some (.asPlain, 1)
  else if (rest.takeWhile fun c => c = '\t' || !isGap c).contains '!' then
    if headIs (· = '!') rest then namedTag? ownTags 2 (rest.drop 1) else none
  else namedTag? "!" 1 rest

/-- The tag at the head of a text that starts with an exclamation mark, and its length. A blank or a
line break follows it. -/
def writtenTag? (cs : List Char) : Option (WrittenTag × Nat) := do
  let rest := cs.drop 1
  let (tag, length) ← if headIs (· = '<') rest then fullTag? (rest.drop 1) else shortTag? rest
  if headIsOrEnd (fun c => c ≠ '\t' && isGap c) (cs.drop length) then return (tag, length) else none

/-- A tag is found again by its name. -/
example : tagNames.all (fun n => Tag.ofName n.2.name = n.2) = true := by decide

end VerilogLoops.Yaml
