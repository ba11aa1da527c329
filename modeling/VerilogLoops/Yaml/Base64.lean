/-!
# Octets in base 64

Binary data is written in base 64: four characters for three octets, and one or two equals signs in
place of characters at the end. What is no digit of the base is passed over. So is an equals sign,
unless it completes a group of four that has at least two digits; what follows such a group does not
count.
-/

namespace VerilogLoops.Yaml

/-- The value of a digit in base 64. -/
def base64Digit? (c : Char) : Option Nat :=
  if 'A' ≤ c && c ≤ 'Z' then some (c.toNat - 'A'.toNat)
  else if 'a' ≤ c && c ≤ 'z' then some (c.toNat - 'a'.toNat + 26)
  else if c.isDigit then some (c.toNat - '0'.toNat + 52)
  else if c = '+' then some 62
  else if c = '/' then some 63
  else none

/-- Why a text is not the text of some octets. -/
inductive Base64Error where
  /-- The last group has one digit, which stands for less than an octet. The number is that of all
  digits. -/
  | loneDigit (digits : Nat)
  /-- The last group is not complete. -/
  | padding
deriving DecidableEq, Repr

/-- The error in words. -/
def Base64Error.message : Base64Error → String
  | .loneDigit digits =>
    s!"Invalid base64-encoded string: number of data characters ({digits}) cannot be 1 more than "
      ++ "a multiple of 4"
  | .padding => "Incorrect padding"

/-- The digits of a text up to the group that equals signs complete, and whether there is such a
group, given the number of digits in front and of equals signs right in front. -/
def base64Digits (before signs : Nat) : List Char → List Nat × Bool
  | [] => ([], false)
  | c :: rest =>
    if c = '=' then
      if before % 4 < 2 then base64Digits before signs rest
      else if 4 ≤ before % 4 + signs + 1 then ([], true)
      else base64Digits before (signs + 1) rest
    else
      match base64Digit? c with
      | none => base64Digits before signs rest
      | some d =>
        let (ds, isComplete) := base64Digits (before + 1) 0 rest
        (d :: ds, isComplete)

/-- The octets of digits in base 64, four digits for three octets. -/
def base64Octets : List Nat → List UInt8
  | a :: b :: c :: d :: rest =>
    let n := ((a * 64 + b) * 64 + c) * 64 + d
    UInt8.ofNat (n / 65536) :: UInt8.ofNat (n / 256) :: UInt8.ofNat n :: base64Octets rest
  | [a, b, c] =>
    let n := (a * 64 + b) * 64 + c
    [UInt8.ofNat (n / 1024), UInt8.ofNat (n / 4)]
  | [a, b] => [UInt8.ofNat ((a * 64 + b) / 16)]
  | _ => []

/-- The octets of a text. -/
def octetsOf (cs : List Char) : Except Base64Error (List UInt8) :=
  let (ds, isComplete) := base64Digits 0 0 cs
  if isComplete || ds.length % 4 = 0 then .ok (base64Octets ds)
  else if ds.length % 4 = 1 then .error (.loneDigit ds.length)
  else .error .padding

end VerilogLoops.Yaml
