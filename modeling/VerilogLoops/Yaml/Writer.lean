import VerilogLoops.Document.Inspect
import VerilogLoops.Yaml.Scalar
/-!
# YAML texts of documents

A document is written in block style: an entry of a map or an item of a list on a line of its own,
with two more columns of indentation for each level. The items of a list stand in the same column
as the key that the list belongs to. What is empty is written in brackets or braces, and a single
scalar is followed by a line that ends the document.
-/

namespace VerilogLoops.Yaml

open VerilogLoops.Document VerilogLoops.Number

/-- The columns of a level. -/
def levelWidth : Nat := 2

/-- A number with a fraction or an exponent. A point is put in front of an exponent that has
none, since it would not be read as a number. -/
def realText : Binary64 → String
  | .notANumber => ".nan"
  | .infinite negative => if negative then "-.inf" else ".inf"
  | r =>
    let cs := r.text.toList
    if cs.contains '.' || !cs.contains 'e' then r.text
    else
      String.ofList (cs.takeWhile (· ≠ 'e')) ++ ".0" ++ String.ofList (cs.dropWhile (· ≠ 'e'))

/-- A scalar that starts at some column. -/
def scalarAt (indent column : Nat) : Data → String
  | .null => "null"
  | .bool b => if b then "true" else "false"
  | .int i => toString i
  | .real r => realText r
  | .text s => scalarText indent column s
  | data => data.display

/-- A key with its colon. -/
def keyText (indent : Nat) (key : Data) : String :=
  scalarAt (indent + levelWidth) indent key ++ ":"

/-- The column behind a key with its colon. -/
def keyEnd (indent : Nat) (key : Data) : Nat :=
  indent + (keyText indent key).length

/-- A line break and the indentation behind it. -/
def lineBreak (indent : Nat) : List Char :=
  '\n' :: List.replicate indent ' '

mutual

/-- What stands behind the colon of a key, which ends at some column, in front of the text behind
it. -/
def writeValue (indent column : Nat) : Data → List Char → List Char
  | .list [], behind => " []".toList ++ behind
  | .list items, behind => lineBreak indent ++ writeItems indent items behind
  | .map [], behind => " \x7b\x7d".toList ++ behind
  | .map entries, behind =>
    lineBreak (indent + levelWidth) ++ writeEntries (indent + levelWidth) entries behind
  | data, behind => ' ' :: (scalarAt (indent + levelWidth) (column + 1) data).toList ++ behind

/-- What stands behind the dash of an item, in front of the text behind it. -/
def writeItem (indent : Nat) : Data → List Char → List Char
  | .list [], behind => " []".toList ++ behind
  | .list items, behind => ' ' :: writeItems (indent + levelWidth) items behind
  | .map [], behind => " \x7b\x7d".toList ++ behind
  | .map entries, behind => ' ' :: writeEntries (indent + levelWidth) entries behind
  | data, behind =>
    ' ' :: (scalarAt (indent + levelWidth) (indent + levelWidth) data).toList ++ behind

/-- The entries of a map, the first of them without its indentation, in front of the text behind
them. -/
def writeEntries (indent : Nat) : List (Data × Data) → List Char → List Char
  | [], behind => behind
  | (key, value) :: rest, behind =>
    (keyText indent key).toList ++
      writeValue indent (keyEnd indent key) value
        (if rest.isEmpty then behind else lineBreak indent ++ writeEntries indent rest behind)

/-- The items of a list, the first of them without its indentation, in front of the text behind
them. -/
def writeItems (indent : Nat) : List Data → List Char → List Char
  | [], behind => behind
  | item :: rest, behind =>
    '-' :: writeItem indent item
      (if rest.isEmpty then behind else lineBreak indent ++ writeItems indent rest behind)

end

/-- The characters of the YAML text of a document. -/
def writeDocument : Data → List Char
  | .list [] => "[]\n".toList
  | .list items => writeItems 0 items ['\n']
  | .map [] => "\x7b\x7d\n".toList
  | .map entries => writeEntries 0 entries ['\n']
  | .text s =>
    (scalarText levelWidth 0 s).toList
      ++ (if styleOf s.toList = .plain then "\n...\n" else "\n").toList
  | data => (scalarAt levelWidth 0 data).toList ++ "\n...\n".toList

/-- The YAML text of a document. -/
def write (data : Data) : String :=
  String.ofList (writeDocument data)

end VerilogLoops.Yaml
