import VerilogLoops.Yaml.Character
import VerilogLoops.Yaml.Resolution
/-!
# How a scalar is written

A text is written plain where it can be: it must not be taken for anything but a text, nor for a
part of the structure around it. Else it stands in single quotes, in which only the quote itself
is doubled and line breaks are doubled as well. A text with a character that cannot stand in a
YAML text, or with blanks next to a line break, stands in double quotes.

A line that has grown beyond eighty columns is continued on the next one, at the next blank that
stands alone. In double quotes it is continued at any blank, behind a backslash.
-/

namespace VerilogLoops.Yaml

/-- The styles of a scalar. -/
inductive Style where
  | plain | single | double
deriving DecidableEq, Repr

/-- Two neighbours of a text satisfy a condition. -/
def hasNeighbours (p : Char → Char → Bool) : List Char → Bool
  | a :: b :: rest => p a b || hasNeighbours p (b :: rest)
  | _ => false

/-- A text would be taken for structure: it looks like the border of a document, starts with an
indicator, or holds a colon in front of a gap or a hash behind one. -/
def hasIndicator (cs : List Char) : Bool :=
  "---".toList.isPrefixOf cs || "...".toList.isPrefixOf cs
    || headIs ("#,[]\x7b\x7d&*!|>'\"%@\x60".toList.contains ·) cs
    || (headIs ("?:-".toList.contains ·) cs && headIsOrEnd isGap (cs.drop 1))
    || cs.getLast? = some ':'
    || hasNeighbours (fun a b => a = ':' && isGap b || isGap a && b = '#') cs

/-- A character that may not stand at either end of a plain scalar. -/
def isEdge (c : Char) : Bool :=
  c = ' ' || isBreak c

/-- A text may stand in single quotes. -/
def allowsSingle (cs : List Char) : Bool :=
  !cs.any isSpecial
    && !hasNeighbours (fun a b => a = ' ' && isBreak b || isBreak a && b = ' ') cs

/-- A text may be written plain, if it is taken for a text at all. -/
def allowsPlain (cs : List Char) : Bool :=
  allowsSingle cs && !cs.any isBreak && !headIs isEdge cs && !cs.getLast?.any isEdge
    && !hasIndicator cs

/-- The style of a text. -/
def styleOf (cs : List Char) : Style :=
  if Tag.ofPlain cs = .text && allowsPlain cs then .plain
  else if allowsSingle cs then .single
  else .double

/-- The width beyond which a line is continued on the next one. -/
def lineWidth : Nat := 80

/-- A line break and the indentation behind it. -/
def newLine (indent : Nat) : String :=
  "\n" ++ String.ofList (List.replicate indent ' ')

/-- A blank stands alone and the line has grown too long. -/
def foldsAt (column : Nat) (previous : Option Char) (rest : List Char) : Bool :=
  lineWidth < column && previous.any (· ≠ ' ') && headIs (· ≠ ' ') rest

/-- A plain scalar from some column on, given the character in front. -/
def plainFrom (indent : Nat) : Nat → Option Char → List Char → String
  | _, _, [] => ""
  | column, previous, c :: rest =>
    if c = ' ' && foldsAt column previous rest then
      newLine indent ++ plainFrom indent indent (some c) rest
    else String.singleton c ++ plainFrom indent (column + 1) (some c) rest

/-- The inside of single quotes from some column on, given the character in front. -/
def singleFrom (indent : Nat) : Nat → Option Char → List Char → String
  | _, _, [] => ""
  | column, previous, c :: rest =>
    if c = ' ' && foldsAt column previous rest then
      newLine indent ++ singleFrom indent indent (some c) rest
    else if c = '\'' then "''" ++ singleFrom indent (column + 2) (some c) rest
    else if isBreak c then
      (if c = '\n' && !previous.any isBreak then "\n" else "") ++ String.singleton c
        ++ (if headIs isBreak rest then singleFrom indent 0 (some c) rest
          else String.ofList (List.replicate indent ' ') ++ singleFrom indent indent (some c) rest)
    else String.singleton c ++ singleFrom indent (column + 1) (some c) rest

/-- A number in upper-case hexadecimal digits with zeros in front, so many digits. -/
def upperHexadecimal (width n : Nat) : String :=
  let digits := (Nat.toDigits 16 n).map Char.toUpper
  String.ofList (List.replicate (width - digits.length) '0' ++ digits)

/-- The letters that stand for a character behind a backslash. -/
def escapeLetters : List (Char × Char) :=
  [('\x00', '0'), ('\x07', 'a'), ('\x08', 'b'), ('\t', 't'), ('\n', 'n'), ('\x0b', 'v'),
   ('\x0c', 'f'), ('\r', 'r'), ('\x1b', 'e'), ('"', '"'), ('\\', '\\'), ('\x85', 'N'),
   ('\xa0', '_'), ('\u2028', 'L'), ('\u2029', 'P')]

/-- A character may stand in double quotes as it is. -/
def isBareInDouble (c : Char) : Bool :=
  (' ' ≤ c && c ≤ '~' && c ≠ '"' && c ≠ '\\')
    || (isWide c && c.toNat ≤ 0xfffd && !isBreak c)

/-- A character by a letter or its number behind a backslash. -/
def escapeText (c : Char) : String :=
  match escapeLetters.lookup c with
  | some letter => String.ofList ['\\', letter]
  | none =>
    if c.toNat ≤ 0xff then "\\x" ++ upperHexadecimal 2 c.toNat
    else if c.toNat ≤ 0xffff then "\\u" ++ upperHexadecimal 4 c.toNat
    else "\\U" ++ upperHexadecimal 8 c.toNat

/-- The inside of double quotes from some column on. Behind the first character and in front of
the last one, a line that is too long ends at a blank, behind an escape, and in front of what
follows an escape. A blank at the head of a line is hidden by a backslash. -/
def doubleFrom (indent : Nat) (isFirst : Bool) (behindEscape : Bool) :
    Nat → List Char → String
  | _, [] => ""
  | column, c :: rest =>
    let inside := !isFirst && !rest.isEmpty
    if isBareInDouble c then
      if inside && (c = ' ' || behindEscape) && lineWidth < column then
        let hidden := if c = ' ' then "\\" else ""
        "\\" ++ newLine indent ++ hidden ++ String.singleton c
          ++ doubleFrom indent false false (indent + hidden.length + 1) rest
      else String.singleton c ++ doubleFrom indent false false (column + 1) rest
    else
      let shown := escapeText c
      if inside && lineWidth < column + shown.length - 1 then
        let hidden := if headIs (· = ' ') rest then "\\" else ""
        shown ++ "\\" ++ newLine indent ++ hidden
          ++ doubleFrom indent false true (indent + hidden.length) rest
      else shown ++ doubleFrom indent false true (column + shown.length) rest

/-- A text as a scalar that starts at some column, with the indentation of lines that continue
it. -/
def scalarText (indent column : Nat) (s : String) : String :=
  let cs := s.toList
  match styleOf cs with
  | .plain => plainFrom indent column none cs
  | .single => "'" ++ singleFrom indent (column + 1) none cs ++ "'"
  | .double => "\"" ++ doubleFrom indent true true (column + 1) cs ++ "\""

end VerilogLoops.Yaml
