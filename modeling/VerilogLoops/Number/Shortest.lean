import VerilogLoops.Number.Binary64
/-!
# The text of a number of double precision

A number is written with the fewest decimal digits from which it can be read back. The numbers that
are read as a given one fill an interval around it, which reaches halfway to its neighbours; the
ends belong to it if its whole number is even. For one digit, two digits and so on, the two
decimals next to the number are looked at, until one of them lies in the interval. Of two such
decimals the nearer one is taken. Seventeen digits are always enough.
-/

namespace VerilogLoops.Number

/-- The reals that are read as some number, as quotients over one denominator: the number, the
ends of the interval, and whether the ends belong to it. -/
structure ReadingInterval where
  value : Nat
  low : Nat
  high : Nat
  den : Nat
  closed : Bool
deriving DecidableEq, Repr

/-- The interval around a whole number times a power of two. Below the least whole number with all
bits the numbers lie twice as close. -/
def ReadingInterval.around (mantissa : Nat) (exponent : Int) : ReadingInterval :=
  let narrow := mantissa = twoTo (mantissaBits - 1) && leastExponent < exponent
  let unit := scaledDown (2 - exponent) 1 1
  { value := 4 * mantissa * unit.1
    low := (4 * mantissa - if narrow then 1 else 2) * unit.1
    high := (4 * mantissa + 2) * unit.1
    den := unit.2
    closed := mantissa % 2 = 0 }

/-- A quotient over the denominator of an interval lies in it. -/
def ReadingInterval.holds (interval : ReadingInterval) (num : Nat) : Bool :=
  (interval.low < num && num < interval.high)
    || (interval.closed && (num = interval.low || num = interval.high))

/-- An interval counted in units of a power of ten. -/
def ReadingInterval.inUnits (interval : ReadingInterval) (power : Int) : ReadingInterval :=
  let num := tenTo (-power).toNat
  { interval with
    value := interval.value * num
    low := interval.low * num
    high := interval.high * num
    den := interval.den * tenTo power.toNat }

/-- The count of units next to the number that is read as the number. Of two such counts it is the
nearer one, and from halfway the even one. -/
def ReadingInterval.nearby? (interval : ReadingInterval) : Option Nat :=
  let below := interval.value / interval.den
  let nearer := roundedQuotient interval.value interval.den
  let other := if nearer = below then below + 1 else below
  [nearer, other].find? fun n => interval.holds (n * interval.den)

/-- The power of ten that is larger than a positive quotient by less than a factor of ten. -/
def pointOf (num den : Nat) : Int :=
  if den ≤ num then decimalLength (num / den) else 1 - decimalLength ((den - 1) / num)

/-- The digits of the shortest decimal of an interval, from some number of digits on, and the power
of ten of the last digit. -/
def ReadingInterval.shortestFrom (interval : ReadingInterval) (point : Int) :
    Nat → Nat → Nat × Int
  | _, 0 => (0, 0)
  | count, more + 1 =>
    let power := point - count
    match (interval.inUnits power).nearby? with
    | some digits => if digits = tenTo count then (1, point) else (digits, power)
    | none => shortestFrom interval point (count + 1) more

/-- The most digits that a number needs. -/
def mostDigits : Nat := 17

/-- The digits of the shortest decimal that is read as a positive number, and the power of ten of
the last digit. -/
def shortest (mantissa : Nat) (exponent : Int) : Nat × Int :=
  let interval := ReadingInterval.around mantissa exponent
  interval.shortestFrom (pointOf interval.value interval.den) 1 mostDigits

/-- Some zeros. -/
def zeros (n : Nat) : String :=
  String.ofList (List.replicate n '0')

/-- A whole number with an explicit sign and at least two digits. -/
def exponentText (e : Int) : String :=
  (if e < 0 then "-" else "+") ++ (if e.natAbs < 10 then "0" else "") ++ toString e.natAbs

/-- Some digits times a power of ten. From `10 ^ -4` up to `10 ^ 16` a number is written with a
point and at least one digit on each side of it, any other with an exponent. -/
def decimalText (digits : Nat) (exponent : Int) : String :=
  let ds := Nat.toDigits 10 digits
  let point : Int := ds.length + exponent
  if point ≤ -4 || 16 < point then
    let tail := ds.drop 1
    String.ofList (ds.take 1) ++ (if tail.isEmpty then "" else "." ++ String.ofList tail) ++ "e"
      ++ exponentText (point - 1)
  else if point ≤ 0 then "0." ++ zeros (-point).toNat ++ String.ofList ds
  else if ds.length ≤ point.toNat then
    String.ofList ds ++ zeros (point.toNat - ds.length) ++ ".0"
  else String.ofList (ds.take point.toNat) ++ "." ++ String.ofList (ds.drop point.toNat)

/-- The text of a number. -/
def Binary64.text : Binary64 → String
  | .finite negative mantissa exponent =>
    let magnitude := if mantissa = 0 then "0.0"
      else
        let decimal := shortest mantissa exponent
        decimalText decimal.1 decimal.2
    (if negative then "-" else "") ++ magnitude
  | .infinite negative => if negative then "-inf" else "inf"
  | .notANumber => "nan"

end VerilogLoops.Number
