/-!
# Characters of YAML texts

The line breaks, the characters that end a word, and the characters that may stand in a YAML text
as they are.
-/

namespace VerilogLoops.Yaml

/-- The line breaks that a text may hold: the line feed and three Unicode separators. -/
def isBreak (c : Char) : Bool :=
  c = '\n' || c = '\x85' || c = '\u2028' || c = '\u2029'

/-- The characters that end a word: blanks, line breaks of every kind, and the null character. -/
def isGap (c : Char) : Bool :=
  c = ' ' || c = '\t' || c = '\r' || c = '\x00' || isBreak c

/-- The characters beyond ASCII that may stand in a YAML text. -/
def isWide (c : Char) : Bool :=
  c.toNat = 0x85 || (0xa0 ≤ c.toNat && c.toNat ≤ 0xd7ff)
    || (0xe000 ≤ c.toNat && c.toNat ≤ 0xfffd && c.toNat ≠ 0xfeff)
    || (0x10000 ≤ c.toNat && c.toNat < 0x10ffff)

/-- The characters that can only be written as an escape. -/
def isSpecial (c : Char) : Bool :=
  !(c = '\n' || (' ' ≤ c && c ≤ '~') || isWide c)

/-- The first character of a text, if there is one, is in a class. -/
def headIs (p : Char → Bool) : List Char → Bool
  | c :: _ => p c
  | [] => false

/-- A text without the line feed at its end, if there is one. -/
def withoutLastBreak (cs : List Char) : List Char :=
  if cs.getLast? = some '\n' then cs.dropLast else cs

/-- A text is empty or starts with a character of a class. -/
def headIsOrEnd (p : Char → Bool) : List Char → Bool
  | c :: _ => p c
  | [] => true

end VerilogLoops.Yaml
