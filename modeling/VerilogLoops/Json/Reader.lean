import VerilogLoops.Document.Data
import VerilogLoops.Number.Numeral
import VerilogLoops.Text.Utf16
/-!
# Documents from JSON texts

A JSON text is read strictly: nothing but blanks may surround the one value, strings hold no
control characters, numbers have no leading zeros, and there are no comments and no trailing
commas. Beyond the standard, the names `NaN`, `Infinity` and `-Infinity` are numbers. Of two
entries with one key the later one counts. A whole number may have 4300 digits at most. The first
fault of a text decides how it fails.

Reading consumes fuel with every value, item and entry. Each item and entry is followed by a mark of
its own, so two units for every character are enough.
-/

namespace VerilogLoops.Json

open VerilogLoops.Document VerilogLoops.Number VerilogLoops.Text

/-- The blanks of JSON. -/
def isJsonBlank (c : Char) : Bool :=
  c = ' ' || c = '\t' || c = '\n' || c = '\r'

/-- A text without the blanks at its head. -/
def skipBlanks (cs : List Char) : List Char :=
  cs.dropWhile isJsonBlank

/-- The value of a hexadecimal digit. -/
def hexDigit? (c : Char) : Option Nat :=
  if '0' ≤ c && c ≤ '9' then some (c.toNat - '0'.toNat)
  else if 'a' ≤ c && c ≤ 'f' then some (c.toNat - 'a'.toNat + 10)
  else if 'A' ≤ c && c ≤ 'F' then some (c.toNat - 'A'.toNat + 10)
  else none

/-- The value of four hexadecimal digits. -/
def unit? (a b c d : Char) : Option Nat := do
  return (((← hexDigit? a) * 16 + (← hexDigit? b)) * 16 + (← hexDigit? c)) * 16 + (← hexDigit? d)

/-- The character that a letter behind a backslash stands for. -/
def escape? : Char → Option Char
  | '"' => some '"'
  | '\\' => some '\\'
  | '/' => some '/'
  | 'b' => some '\x08'
  | 'f' => some '\x0c'
  | 'n' => some '\n'
  | 'r' => some '\r'
  | 't' => some '\t'
  | _ => none

/-- Why a text is no JSON text of a document. -/
inductive ReadError where
  | malformed
  /-- A whole number has too many digits. -/
  | digitLimit (error : DigitLimitError)
deriving DecidableEq, Repr

/-- What is expected and not found makes a text malformed. -/
def expect {α : Type} (found : Option α) : Except ReadError α :=
  found.elim (.error .malformed) .ok

/-- The code points and UTF-16 codes of a string behind its opening quote, and the text behind its
closing one. -/
def stringBody? : List Char → Option (List Nat × List Char)
  | [] => none
  | '"' :: rest => some ([], rest)
  | '\\' :: 'u' :: a :: b :: c :: d :: rest => do
    let n ← unit? a b c d
    let (ns, after) ← stringBody? rest
    return (n :: ns, after)
  | '\\' :: c :: rest => do
    let e ← escape? c
    let (ns, after) ← stringBody? rest
    return (e.toNat :: ns, after)
  | c :: rest => do
    if c.toNat < 0x20 || c = '\\' then none
    else
      let (ns, after) ← stringBody? rest
      return (c.toNat :: ns, after)

/-- The characters of code points in which pairs of codes stand for one character. -/
def joinUnits : List Nat → List Char
  | [] => []
  | [n] => [characterOf n]
  | n :: m :: rest =>
    if isHighUnit n && isLowUnit m then
      joinedUnits n m :: joinUnits rest
    else characterOf n :: joinUnits (m :: rest)

/-- A string behind its opening quote. -/
def string? (cs : List Char) : Option (String × List Char) :=
  (stringBody? cs).map fun r => (String.ofList (joinUnits r.1), r.2)

/-- The digits of a whole number: a zero alone, or digits of which the first is no zero. -/
def wholeDigits? (cs : List Char) : Option (List Char × List Char) :=
  match cs with
  | '0' :: rest => some (['0'], rest)
  | _ =>
    match cs.takeWhile Char.isDigit with
    | [] => none
    | ds => some (ds, cs.dropWhile Char.isDigit)

/-- The digits behind a point, or none if there is no fraction. -/
def fractionDigits (cs : List Char) : List Char × List Char :=
  match cs with
  | '.' :: rest =>
    match rest.takeWhile Char.isDigit with
    | [] => ([], cs)
    | ds => (ds, rest.dropWhile Char.isDigit)
  | _ => ([], cs)

/-- An exponent, if there is one. -/
def exponentPart (cs : List Char) : Option Int × List Char :=
  match cs with
  | c :: rest =>
    if c = 'e' || c = 'E' then
      let (negative, digits) := match rest with
        | '-' :: r => (true, r)
        | '+' :: r => (false, r)
        | r => (false, r)
      -- an `e` without digits is not part of the number
      match digits.takeWhile Char.isDigit with
      | [] => (none, cs)
      | ds =>
        let n : Int := decimalValue ds
        (some (if negative then -n else n), digits.dropWhile Char.isDigit)
    else (none, cs)
  | [] => (none, cs)

/-- A number behind its sign, and the text behind it. With a fraction or an exponent it is one of
double precision. -/
def readMagnitude (negative : Bool) (cs : List Char) : Except ReadError (Data × List Char) := do
  let (whole, rest) ← expect (wholeDigits? cs)
  let (fraction, rest) := fractionDigits rest
  let (exponent, rest) := exponentPart rest
  if fraction.isEmpty && exponent.isNone then
    let n ← (limitedValue whole).mapError .digitLimit
    return (.int (signed negative n), rest)
  else
    let digits := decimalValue (whole ++ fraction)
    -- the digits behind the point are counted off the exponent
    return (.real (.ofScientific negative digits (exponent.getD 0 - fraction.length)), rest)

/-- A number, and the text behind it. -/
def readNumber : List Char → Except ReadError (Data × List Char)
  | '-' :: rest => readMagnitude true rest
  | cs => readMagnitude false cs

/-- A name that stands for a value, and the text behind it. -/
def named? (cs : List Char) : Option (Data × List Char) :=
  let names : List (String × Data) :=
    [("null", .null), ("true", .bool true), ("false", .bool false), ("NaN", .real .notANumber),
     ("Infinity", .real (.infinite false)), ("-Infinity", .real (.infinite true))]
  (names.find? fun n => n.1.toList.isPrefixOf cs).map fun n => (n.2, cs.drop n.1.length)

mutual

/-- The value at the head of a text, and the text behind it. -/
def readValue : Nat → List Char → Except ReadError (Data × List Char)
  | 0, _ => .error .malformed
  | fuel + 1, cs =>
    match cs with
    | '"' :: rest => do
      let (s, after) ← expect (string? rest)
      return (.text s, after)
    | '[' :: rest =>
      match skipBlanks rest with
      | ']' :: after => .ok (.list [], after)
      | rest => do
        let (items, after) ← readItems fuel rest
        return (.list items, after)
    | '\x7b' :: rest =>
      match skipBlanks rest with
      | '\x7d' :: after => .ok (.map [], after)
      | rest => do
        let (entries, after) ← readEntries fuel rest
        return (.ofEntries entries, after)
    | cs =>
      match named? cs with
      | some found => .ok found
      | none => readNumber cs

/-- The items of a list up to its closing bracket, and the text behind it. -/
def readItems : Nat → List Char → Except ReadError (List Data × List Char)
  | 0, _ => .error .malformed
  | fuel + 1, cs => do
    let (item, rest) ← readValue fuel cs
    match skipBlanks rest with
    | ']' :: after => return ([item], after)
    | ',' :: rest =>
      let (items, after) ← readItems fuel (skipBlanks rest)
      return (item :: items, after)
    | _ => .error .malformed

/-- The entries of a map up to its closing brace, and the text behind it. -/
def readEntries : Nat → List Char → Except ReadError (List (Data × Data) × List Char)
  | 0, _ => .error .malformed
  | fuel + 1, cs =>
    match cs with
    | '"' :: rest => do
      let (key, rest) ← expect (string? rest)
      match skipBlanks rest with
      | ':' :: rest =>
        let (value, rest) ← readValue fuel (skipBlanks rest)
        match skipBlanks rest with
        | '\x7d' :: after => return ([(.text key, value)], after)
        | ',' :: rest =>
          let (entries, after) ← readEntries fuel (skipBlanks rest)
          return ((.text key, value) :: entries, after)
        | _ => .error .malformed
      | _ => .error .malformed
    | _ => .error .malformed

end

/-- The document of a JSON text. -/
def read (text : String) : Except ReadError Data := do
  let cs := text.toList
  let (data, rest) ← readValue (2 * cs.length + 2) (skipBlanks cs)
  if (skipBlanks rest).isEmpty then return data else .error .malformed

end VerilogLoops.Json
