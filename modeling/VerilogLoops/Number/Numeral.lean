import VerilogLoops.Number.Binary64
/-!
# Numerals

What digits stand for in some base, and how long a numeral may be. A whole number with more than
4300 decimal digits is neither read from decimal digits nor shown in them, since that takes longer
than the number of digits lets expect. Other bases have no limit.
-/

namespace VerilogLoops.Number

/-- The value of an ASCII digit or letter as a digit of a base up to thirty-six. -/
def digitValue (c : Char) : Nat :=
  if c.isDigit then c.toNat - '0'.toNat
  else if 'a' ≤ c && c ≤ 'z' then c.toNat - 'a'.toNat + 10
  else c.toNat - 'A'.toNat + 10

/-- The value of digits of a base. -/
def valueInBase (base : Nat) (ds : List Char) : Nat :=
  ds.foldl (fun n d => n * base + digitValue d) 0

/-- The value of decimal digits. -/
def decimalValue (ds : List Char) : Nat :=
  valueInBase 10 ds

/-- The most decimal digits of a whole number that is read from decimal digits or shown in them. -/
def digitLimit : Nat := 4300

/-- Why a whole number is not read or not shown. -/
inductive DigitLimitError where
  /-- So many decimal digits are not read. -/
  | reading (digits : Nat)
  /-- The number has too many decimal digits to be shown. -/
  | showing
deriving DecidableEq, Repr

/-- The error in words. -/
def DigitLimitError.message : DigitLimitError → String
  | .reading digits =>
    s!"Exceeds the limit ({digitLimit} digits) for integer string conversion: value has {digits} "
      ++ "digits; use sys.set_int_max_str_digits() to increase the limit"
  | .showing =>
    s!"Exceeds the limit ({digitLimit} digits) for integer string conversion; "
      ++ "use sys.set_int_max_str_digits() to increase the limit"

/-- The value of decimal digits, unless they are too many. -/
def limitedValue (ds : List Char) : Except DigitLimitError Nat :=
  if digitLimit < ds.length then .error (.reading ds.length) else .ok (decimalValue ds)

/-- A whole number can be shown in decimal digits. -/
def isShowable (i : Int) : Bool :=
  i.natAbs < tenTo digitLimit

/-- Digits that are not too many are read as what they stand for. -/
theorem limitedValue_of_le {ds : List Char} (h : ds.length ≤ digitLimit) :
    limitedValue ds = .ok (decimalValue ds) := by
  simp [limitedValue, Nat.not_lt.2 h]

end VerilogLoops.Number
