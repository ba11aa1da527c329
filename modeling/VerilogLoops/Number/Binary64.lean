/-!
# Numbers of double precision

The real numbers that a document can hold are those of the binary format with 64 bits: a whole
number of at most 53 bits times a power of two, with a smallest and a largest power, besides the two
infinities and the value that is no number. Zero has a sign.

A number is kept by its parts and not by its bits, and each is rounded in exact arithmetic: a
quotient goes to the nearest number there is, and a quotient halfway between two of them to the one
whose whole number is even. Since the parts are chosen as large as the format admits
(`Binary64.ofRatio`), equal numbers have equal parts.
-/

namespace VerilogLoops.Number

/-- A number of double precision. -/
inductive Binary64 where
  /-- A whole number times a power of two, made negative or not. -/
  | finite (negative : Bool) (mantissa : Nat) (exponent : Int)
  | infinite (negative : Bool)
  | notANumber
deriving DecidableEq, Repr

/-- A power of two. -/
def twoTo (n : Nat) : Nat :=
  Nat.pow 2 n

/-- A power of ten. -/
def tenTo (n : Nat) : Nat :=
  Nat.pow 10 n

/-- The number of bits of the whole number. -/
def mantissaBits : Nat := 53

/-- The smallest exponent of two. -/
def leastExponent : Int := -1074

/-- The largest exponent of two. -/
def greatestExponent : Int := 971

/-- A quotient rounded to the nearest whole number, and to the even one from halfway. -/
def roundedQuotient (num den : Nat) : Nat :=
  let q := num / den
  let twice := 2 * (num % den)
  if den < twice || (twice = den && q % 2 = 1) then q + 1 else q

/-- A quotient divided by a power of two. -/
def scaledDown (exponent : Int) (num den : Nat) : Nat × Nat :=
  if 0 ≤ exponent then (num, den * twoTo exponent.toNat) else (num * twoTo (-exponent).toNat, den)

/-- The exponent at which a quotient has as many bits as the whole number may have, and at least
the smallest one. -/
def placeOf (num den : Nat) : Int :=
  let guess : Int := (num.log2 : Int) - den.log2 - mantissaBits
  let scaled := scaledDown guess num den
  max leastExponent (if scaled.1 / scaled.2 < twoTo mantissaBits then guess else guess + 1)

/-- The parts of a number with this whole number, of which one bit too many is a zero. -/
def Binary64.ofParts (negative : Bool) (mantissa : Nat) (exponent : Int) : Binary64 :=
  let carried := mantissa = twoTo mantissaBits
  let place := if carried then exponent + 1 else exponent
  if greatestExponent < place then .infinite negative
  else .finite negative (if carried then mantissa / 2 else mantissa) place

/-- Zero with a sign. -/
def Binary64.zero (negative : Bool) : Binary64 :=
  .finite negative 0 leastExponent

/-- The number nearest to a quotient, with a sign. -/
def Binary64.ofRatio (negative : Bool) (num den : Nat) : Binary64 :=
  if num = 0 then .zero negative
  else
    let place := placeOf num den
    let scaled := scaledDown place num den
    .ofParts negative (roundedQuotient scaled.1 scaled.2) place

/-- The number of decimal digits of a whole number. -/
def decimalLength (n : Nat) : Nat :=
  (Nat.toDigits 10 n).length

/-- The number nearest to some digits times a power of ten, with a sign. Below `10 ^ -324` every
number is nearest to zero, and from `10 ^ 309` on to infinity, so no larger powers are computed. -/
def Binary64.ofScientific (negative : Bool) (digits : Nat) (exponent : Int) : Binary64 :=
  let point : Int := decimalLength digits + exponent
  if digits = 0 || point ≤ -324 then .zero negative
  else if 309 < point then .infinite negative
  else if 0 ≤ exponent then .ofRatio negative (digits * tenTo exponent.toNat) 1
  else .ofRatio negative digits (tenTo (-exponent).toNat)

/-- The number nearest to a whole number. -/
def Binary64.ofInt (i : Int) : Binary64 :=
  .ofRatio (i < 0) i.natAbs 1

/-- The number is zero, with either sign. -/
def Binary64.isZero : Binary64 → Bool
  | .finite _ mantissa _ => mantissa = 0
  | _ => false

/-- The number with the other sign. -/
def Binary64.negate : Binary64 → Binary64
  | .finite negative mantissa exponent => .finite (!negative) mantissa exponent
  | .infinite negative => .infinite (!negative)
  | .notANumber => .notANumber

/-- The number nearest to a whole number times a power of two. -/
def Binary64.ofScaled (negative : Bool) (mantissa : Nat) (exponent : Int) : Binary64 :=
  if 0 ≤ exponent then .ofRatio negative (mantissa * twoTo exponent.toNat) 1
  else .ofRatio negative mantissa (twoTo (-exponent).toNat)

/-- The number nearest to the product of two numbers. -/
def Binary64.times : Binary64 → Binary64 → Binary64
  | .notANumber, _ | _, .notANumber => .notANumber
  | .infinite s, .infinite t => .infinite (s != t)
  | .infinite s, .finite t m _ | .finite s m _, .infinite t =>
    if m = 0 then .notANumber else .infinite (s != t)
  | .finite s m e, .finite t n f => .ofScaled (s != t) (m * n) (e + f)

/-- A whole number with a sign. -/
def signed (negative : Bool) (n : Nat) : Int :=
  if negative then -n else n

/-- The number nearest to the sum of two numbers. A sum of nothing is negative only if both numbers
are. -/
def Binary64.plus : Binary64 → Binary64 → Binary64
  | .notANumber, _ | _, .notANumber => .notANumber
  | .infinite s, .infinite t => if s = t then .infinite s else .notANumber
  | .infinite s, .finite .. | .finite .., .infinite s => .infinite s
  | .finite s m e, .finite t n f =>
    let place := min e f
    let sum := signed s (m * twoTo (e - place).toNat) + signed t (n * twoTo (f - place).toNat)
    if sum = 0 then .zero (s && t) else .ofScaled (sum < 0) sum.natAbs place

/-- The number is exactly this whole number. -/
def Binary64.isInt (i : Int) : Binary64 → Bool
  | .finite negative mantissa exponent =>
    if 0 ≤ exponent then signed negative (mantissa * twoTo exponent.toNat) = i
    else signed negative mantissa = i * twoTo (-exponent).toNat
  | _ => false

/-- A quotient of nothing is zero. -/
theorem Binary64.ofRatio_zero (negative : Bool) (den : Nat) :
    ofRatio negative 0 den = zero negative := by
  simp [ofRatio]

/-- The rounded quotient is next to the quotient. -/
theorem roundedQuotient_bounds (num den : Nat) :
    num / den ≤ roundedQuotient num den ∧ roundedQuotient num den ≤ num / den + 1 := by
  simp only [roundedQuotient]
  split <;> omega

end VerilogLoops.Number
