import VerilogLoops.Document.Inspect
/-!
# JSON texts of documents

A document is written on one line, or with every item on a line of its own behind an indentation
for each level. The text is plain ASCII: any other character is written by its code in UTF-16,
with two codes for a character beyond the first sixteen bits.
-/

namespace VerilogLoops.Json

open VerilogLoops.Document VerilogLoops.Number VerilogLoops.Text

/-- A UTF-16 code as an escape. -/
def unitEscape (n : Nat) : String :=
  "\\u" ++ hexadecimal 4 n

/-- A character inside a JSON string. -/
def escaped (c : Char) : String :=
  if c = '"' then "\\\""
  else if c = '\\' then "\\\\"
  else if c = '\n' then "\\n"
  else if c = '\r' then "\\r"
  else if c = '\t' then "\\t"
  else if c = '\x08' then "\\b"
  else if c = '\x0c' then "\\f"
  else if ' ' ≤ c && c ≤ '~' then String.singleton c
  else if c.toNat < 0x10000 then unitEscape c.toNat
  else
    let n := c.toNat - 0x10000
    unitEscape (0xd800 + n / 0x400) ++ unitEscape (0xdc00 + n % 0x400)

/-- A JSON string. -/
def stringText (s : String) : String :=
  "\"" ++ String.join (s.toList.map escaped) ++ "\""

/-- A number with a fraction or an exponent, or one of the special values. -/
def realText : Binary64 → String
  | .notANumber => "NaN"
  | .infinite negative => if negative then "-Infinity" else "Infinity"
  | r => r.text

/-- The text of a key. A key that is no text is written as the text of the scalar. -/
def keyText : Data → String
  | .text s => s
  | .null => "null"
  | .bool b => if b then "true" else "false"
  | .real r => realText r
  | key => key.display

/-- What stands between brackets and items, at some level of nesting: nothing on a single line, or
a line break and the indentation. An indentation of less than nothing counts as none. -/
def lineBreak (indent : Option Int) (level : Nat) : List Char :=
  match indent with
  | none => []
  | some width => '\n' :: List.replicate (width.toNat * level) ' '

/-- What stands between two items at some level of nesting. -/
def itemBreak (indent : Option Int) (level : Nat) : List Char :=
  if indent.isNone then [',', ' '] else ',' :: lineBreak indent level

mutual

/-- The text of a document at some level of nesting, in front of the text behind it. -/
def writeBefore (indent : Option Int) (level : Nat) : Data → List Char → List Char
  | .null, behind => "null".toList ++ behind
  | .bool b, behind => (if b then "true" else "false").toList ++ behind
  | .int i, behind => (toString i).toList ++ behind
  | .real r, behind => (realText r).toList ++ behind
  | .text s, behind => (stringText s).toList ++ behind
  | .list [], behind => '[' :: ']' :: behind
  | .list items, behind =>
    '[' :: (lineBreak indent (level + 1)
      ++ writeItems indent (level + 1) items (lineBreak indent level ++ ']' :: behind))
  | .map [], behind => '\x7b' :: '\x7d' :: behind
  | .map entries, behind =>
    '\x7b' :: (lineBreak indent (level + 1)
      ++ writeEntries indent (level + 1) entries (lineBreak indent level ++ '\x7d' :: behind))
  | data, behind => (stringText data.display).toList ++ behind

/-- The texts of the items of a list, in front of the text behind them. -/
def writeItems (indent : Option Int) (level : Nat) : List Data → List Char → List Char
  | [], behind => behind
  | item :: rest, behind =>
    writeBefore indent level item
      (if rest.isEmpty then behind
        else itemBreak indent level ++ writeItems indent level rest behind)

/-- The texts of the entries of a map, in front of the text behind them. -/
def writeEntries (indent : Option Int) (level : Nat) :
    List (Data × Data) → List Char → List Char
  | [], behind => behind
  | (key, value) :: rest, behind =>
    (stringText (keyText key)).toList ++ ':' :: ' ' ::
      writeBefore indent level value
        (if rest.isEmpty then behind
          else itemBreak indent level ++ writeEntries indent level rest behind)

end

/-- The JSON text of a document, on one line or with an indentation. -/
def write (indent : Option Int) (data : Data) : String :=
  String.ofList (writeBefore indent 0 data [])

end VerilogLoops.Json
