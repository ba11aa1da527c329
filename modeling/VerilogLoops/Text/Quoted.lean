import VerilogLoops.Text.Printable
/-!
# Quoted texts

A text in messages and in the display of nodes stands in quotes. The quotes are single ones,
unless the text has a single quote and no double one. The quote that is used, the backslash and
all that is not printable are escaped.
-/

namespace VerilogLoops.Text

/-- A number in lower-case hexadecimal digits with zeros in front, at least so many digits. -/
def hexadecimal (width n : Nat) : String :=
  let digits := Nat.toDigits 16 n
  String.ofList (List.replicate (width - digits.length) '0' ++ digits)

/-- A character by its code point, in the shortest of the three forms that can hold it. -/
def codePointEscape (c : Char) : String :=
  if c.toNat < 0x100 then "\\x" ++ hexadecimal 2 c.toNat
  else if c.toNat < 0x10000 then "\\u" ++ hexadecimal 4 c.toNat
  else "\\U" ++ hexadecimal 8 c.toNat

/-- A character inside quotes of the given kind. -/
def quotedCharacter (quote c : Char) : String :=
  if c = quote || c = '\\' then String.ofList ['\\', c]
  else if c = '\n' then "\\n"
  else if c = '\r' then "\\r"
  else if c = '\t' then "\\t"
  else if isPrintable c then String.singleton c
  else codePointEscape c

/-- The quote for a text: the single one where it needs no escape, or where none would help. -/
def quoteFor (cs : List Char) : Char :=
  if cs.contains '\'' && !cs.contains '"' then '"' else '\''

/-- A text in quotes. -/
def quoted (s : String) : String :=
  let quote := quoteFor s.toList
  String.singleton quote ++ String.join (s.toList.map (quotedCharacter quote))
    ++ String.singleton quote

end VerilogLoops.Text
