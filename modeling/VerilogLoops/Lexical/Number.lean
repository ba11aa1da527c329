import VerilogLoops.Text.Digit
/-!
# Number literals

A number literal is kept as it is written. It takes one of five forms, tried in this order.

* A based number: an optional size, a tick, an optional `s`, a base letter and based digits, with
  white space in front of the tick and behind the base letter: `8'hFF`, `'b01`, `4 'sd x`.
* A real number with an exponent: `1e9`, `2.5E-3`.
* A real number without: `2.5`.
* A plain decimal number: `1_000`.
* An unbased single bit: `'0`, `'1`, `'x`, `'z`.

None of the forms needs a second attempt: what follows a run of digits is never a digit itself.
-/

namespace VerilogLoops.Lexical

open VerilogLoops.Text

/-- The length of the longest run of characters of a class at the head of a text. -/
def runLength (p : Char → Bool) (cs : List Char) : Nat :=
  (cs.takeWhile p).length

/-- The length of a decimal number, a digit and then digits and underscores. -/
def decimal? : List Char → Option Nat
  | c :: rest =>
    if isDecimalDigit c then some (1 + runLength (fun d => isDecimalDigit d || d = '_') rest)
    else none
  | [] => none

/-- The digits of based numbers, with the unknown and high-impedance ones. -/
def isBasedDigit (c : Char) : Bool :=
  "0123456789abcdefABCDEFxXzZ?".toList.contains c

/-- The length of a base: a tick, an optional sign mark and a base letter. -/
def base? : List Char → Option Nat
  | '\'' :: c :: rest =>
    if "bBoOdDhH".toList.contains c then some 2
    else if c = 's' || c = 'S' then
      match rest with
      | d :: _ => if "bBoOdDhH".toList.contains d then some 3 else none
      | [] => none
    else none
  | _ => none

/-- The length of the digits of a based number. -/
def basedDigits? : List Char → Option Nat
  | c :: rest =>
    if isBasedDigit c then some (1 + runLength (fun d => isBasedDigit d || d = '_') rest) else none
  | [] => none

/-- The length of a based number. -/
def basedNumber? (cs : List Char) : Option Nat := do
  let size := (decimal? cs).getD 0
  let head := size + runLength isWhiteSpace (cs.drop size)
  let mark := head + (← base? (cs.drop head))
  let gap := mark + runLength isWhiteSpace (cs.drop mark)
  return gap + (← basedDigits? (cs.drop gap))

/-- The length of a fraction: a point and a decimal number. -/
def fraction? : List Char → Option Nat
  | '.' :: rest => (decimal? rest).map (1 + ·)
  | _ => none

/-- The length of an exponent: its letter, an optional sign and a decimal number. -/
def exponent? : List Char → Option Nat
  | c :: rest =>
    if c = 'e' || c = 'E' then
      match rest with
      | '+' :: digits => (decimal? digits).map (2 + ·)
      | '-' :: digits => (decimal? digits).map (2 + ·)
      | digits => (decimal? digits).map (1 + ·)
    else none
  | [] => none

/-- The length of a real number with an exponent. -/
def scientificNumber? (cs : List Char) : Option Nat := do
  let whole ← decimal? cs
  let mantissa := whole + (fraction? (cs.drop whole)).getD 0
  return mantissa + (← exponent? (cs.drop mantissa))

/-- The length of a real number without an exponent. -/
def fractionalNumber? (cs : List Char) : Option Nat := do
  let whole ← decimal? cs
  return whole + (← fraction? (cs.drop whole))

/-- The length of an unbased single bit. -/
def unbasedBit? : List Char → Option Nat
  | '\'' :: c :: _ => if "01xXzZ".toList.contains c then some 2 else none
  | _ => none

/-- The length of a number literal at the head of a text. -/
def number? (cs : List Char) : Option Nat :=
  (basedNumber? cs).or <| (scientificNumber? cs).or <| (fractionalNumber? cs).or <|
    (decimal? cs).or (unbasedBit? cs)

end VerilogLoops.Lexical
