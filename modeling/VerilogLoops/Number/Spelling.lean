import VerilogLoops.Number.Numeral
import VerilogLoops.Text.Digit
/-!
# Spellings of numbers

A number that is asked for by name may be spelled freely: with blanks around it, with a sign, with
decimal digits of any script, a whole number with the mark of its base in front, and a real number
without a point, with an exponent, or as one of the names of the special values.
-/

namespace VerilogLoops.Number

open VerilogLoops.Text

/-- The blanks that may surround a number: white space without the information separators. -/
def isOuterBlank (c : Char) : Bool :=
  isWhiteSpace c && !(0x1c ≤ c.toNat && c.toNat < 0x20)

/-- A text without the blanks around it. -/
def trimmed (cs : List Char) : List Char :=
  ((cs.dropWhile isOuterBlank).reverse.dropWhile isOuterBlank).reverse

/-- A sign is in front of a text, and it is the negative one. -/
def isNegative (cs : List Char) : Bool :=
  cs.head? = some '-'

/-- A text without a sign in front. -/
def unsigned : List Char → List Char
  | c :: rest => if c = '-' || c = '+' then rest else c :: rest
  | [] => []

/-- The letters that mark a base behind a zero. -/
def baseMarks : List (Nat × List Char) :=
  [(2, ['b', 'B']), (8, ['o', 'O']), (16, ['x', 'X'])]

/-- A text without the mark of its base in front. -/
def withoutMark (base : Nat) : List Char → List Char
  | '0' :: c :: rest =>
    if ((baseMarks.lookup base).getD []).contains c then rest else '0' :: c :: rest
  | cs => cs

/-- A digit of a base up to thirty-six. -/
def isDigitIn (base : Nat) (c : Char) : Bool :=
  (c.isDigit || ('a' ≤ c && c ≤ 'z') || ('A' ≤ c && c ≤ 'Z')) && digitValue c < base

/-- Why a text spells no whole number. -/
inductive SpellingError where
  | malformed
  | digitLimit (error : DigitLimitError)
deriving DecidableEq, Repr

/-- The whole number that a text spells in a base. Too many decimal digits are an error whatever
stands behind them. -/
def integerOf (base : Nat) (cs : List Char) : Except SpellingError Int :=
  let spelling := (trimmed cs).map toAsciiDigit
  let body := withoutMark base (unsigned spelling)
  let ds := body.takeWhile (isDigitIn base)
  if base = 10 && digitLimit < ds.length then .error (.digitLimit (.reading ds.length))
  else if ds.isEmpty || ds.length < body.length then .error .malformed
  else .ok (signed (isNegative spelling) (valueInBase base ds))

/-- The exponent that a text spells behind its mark, or nothing if there is no exponent. -/
def exponentOf? : List Char → Option Int
  | [] => some 0
  | c :: rest =>
    let ds := unsigned rest
    if (c = 'e' || c = 'E') && !ds.isEmpty && ds.all Char.isDigit then
      some (signed (isNegative rest) (decimalValue ds))
    else none

/-- The number that a text without a sign spells. -/
def magnitudeOf? (negative : Bool) (cs : List Char) : Option Binary64 :=
  let name := String.ofList (cs.map Char.toLower)
  if name = "inf" || name = "infinity" then some (.infinite negative)
  else if name = "nan" then some .notANumber
  else
    let whole := cs.takeWhile Char.isDigit
    let rest := cs.dropWhile Char.isDigit
    let fraction := match rest with
      | '.' :: rest => rest.takeWhile Char.isDigit
      | _ => []
    let rest := match rest with
      | '.' :: rest => rest.dropWhile Char.isDigit
      | rest => rest
    if whole.isEmpty && fraction.isEmpty then none
    else do
      let exponent ← exponentOf? rest
      return .ofScientific negative (decimalValue (whole ++ fraction)) (exponent - fraction.length)

/-- The number of double precision that a text spells. -/
def realOf? (cs : List Char) : Option Binary64 :=
  let spelling := (trimmed cs).map toAsciiDigit
  magnitudeOf? (isNegative spelling) (unsigned spelling)

end VerilogLoops.Number
