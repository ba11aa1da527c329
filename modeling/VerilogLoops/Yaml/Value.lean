import VerilogLoops.Number.Spelling
import VerilogLoops.Text.Lowercase
import VerilogLoops.Text.Quoted
import VerilogLoops.Yaml.Base64
import VerilogLoops.Yaml.Moment
import VerilogLoops.Yaml.Tag
/-!
# The values of scalars

The data that a scalar of a YAML text stands for, given its tag. A tag that is written in front of a
scalar may not fit its text, so every tag has a way to fail. A scalar whose tag comes from its own
spelling can only fail in a few ways: its number is too long, its base has no digits, or its date is
none of the calendar.
-/

namespace VerilogLoops.Yaml

open VerilogLoops.Document VerilogLoops.Number VerilogLoops.Text

/-- Why a scalar has no value. -/
inductive ScalarError where
  /-- There is no number at all. -/
  | noNumber
  /-- A text spells no whole number in a base. -/
  | notInteger (base : Nat) (spelling : List Char)
  | digitLimit (error : DigitLimitError)
  /-- A text spells no number of double precision. -/
  | notReal (spelling : List Char)
  /-- A number in sixties has more parts than a number of double precision can count. -/
  | tooManySixties
  /-- A word, in lower case, says neither yes nor no. -/
  | notTruth (word : List Char)
  /-- A text spells neither a date nor a time. -/
  | notMoment
  | calendar (error : CalendarError)
  /-- Binary data has characters beyond ASCII: the first of them, its offset, and the offset behind
  those that follow on it. -/
  | notAscii (first : Char) (start stop : Nat)
  | base64 (error : Base64Error)
  /-- The tag stands for no kind of data. -/
  | unknownTag (tag : Tag)
deriving DecidableEq, Repr

/-- The most characters of a spelling that a message shows. -/
def shownWidth : Nat := 200

/-- The error in words. -/
def ScalarError.message : ScalarError → String
  | .noNumber => "string index out of range"
  | .notInteger base spelling =>
    s!"invalid literal for int() with base {base}: "
      ++ String.ofList ((quoted (String.ofList spelling)).toList.take shownWidth)
  | .digitLimit error => error.message
  | .notReal spelling =>
    "could not convert string to float: " ++ quoted (String.ofList spelling)
  | .tooManySixties => "int too large to convert to float"
  | .notTruth word => quoted (String.ofList word)
  | .notMoment => "'NoneType' object has no attribute 'groupdict'"
  | .calendar error => error.message
  | .notAscii first start stop =>
    "failed to convert base64 data into ascii: 'ascii' codec can't encode "
      ++ (if stop = start + 1 then s!"character '{codePointEscape first}' in position {start}"
        else s!"characters in position {start}-{stop - 1}")
      ++ ": ordinal not in range(128)"
  | .base64 error => "failed to decode base64 data: " ++ error.message
  | .unknownTag tag => "could not determine a constructor for the tag " ++ quoted tag.name

/-- The parts of a text between marks. -/
def segments (mark : Char) : List Char → List (List Char)
  | [] => [[]]
  | c :: rest =>
    if c = mark then [] :: segments mark rest
    else
      match segments mark rest with
      | [] => [[c]]
      | part :: parts => (c :: part) :: parts

/-- The whole number that a text spells in a base. -/
def wholeIn (base : Nat) (cs : List Char) : Except ScalarError Int :=
  match integerOf base cs with
  | .ok i => .ok i
  | .error .malformed => .error (.notInteger base cs)
  | .error (.digitLimit error) => .error (.digitLimit error)

/-- The whole number of a text without a sign: in the base that it marks, or in decimal parts that
count in sixties. -/
def unsignedInteger : List Char → Except ScalarError Int
  | ['0'] => .ok 0
  | '0' :: 'b' :: ds => wholeIn 2 ds
  | '0' :: 'x' :: ds => wholeIn 16 ds
  | '0' :: ds => wholeIn 8 ('0' :: ds)
  | ds => do
    let parts ← (segments ':' ds).mapM (wholeIn 10)
    return parts.foldl (fun n part => n * 60 + part) 0

/-- The whole number of a text. Underscores are passed over. -/
def integerValue (cs : List Char) : Except ScalarError Int :=
  let cs := cs.filter (· ≠ '_')
  if (unsigned cs).isEmpty then .error .noNumber
  else do
    let i ← unsignedInteger (unsigned cs)
    return if isNegative cs then -i else i

/-- The number of double precision that a text spells. -/
def realIn (cs : List Char) : Except ScalarError Binary64 :=
  match realOf? cs with
  | some r => .ok r
  | none => .error (.notReal cs)

/-- The sum of parts that count in sixties, the last part first, each counting `base`. -/
def sumOfSixties (base : Nat) (sum : Binary64) : List Binary64 → Except ScalarError Binary64
  | [] => .ok sum
  | part :: parts =>
    match Binary64.ofInt base with
    | .finite negative mantissa exponent =>
      sumOfSixties (base * 60) (sum.plus (part.times (.finite negative mantissa exponent))) parts
    | _ => .error .tooManySixties

/-- The number of double precision of a text without a sign. -/
def unsignedReal (cs : List Char) : Except ScalarError Binary64 :=
  if cs = ".inf".toList then .ok (.infinite false)
  else if cs = ".nan".toList then .ok .notANumber
  else if cs.contains ':' then do
    let parts ← (segments ':' cs).mapM realIn
    sumOfSixties 1 (.zero false) parts.reverse
  else realIn cs

/-- The number of double precision of a text. Underscores are passed over. -/
def realValue (cs : List Char) : Except ScalarError Binary64 :=
  let cs := lowerCase (cs.filter (· ≠ '_'))
  if cs.isEmpty then .error .noNumber
  else do
    let r ← unsignedReal (unsigned cs)
    return if isNegative cs then r.negate else r

/-- The truth value of a word in letters of either case. -/
def truthValue (cs : List Char) : Except ScalarError Bool :=
  let word := lowerCase cs
  if ["yes", "true", "on"].any (·.toList = word) then .ok true
  else if ["no", "false", "off"].any (·.toList = word) then .ok false
  else .error (.notTruth word)

/-- The date or the time of a text, which may end with a line feed. -/
def momentValue (cs : List Char) : Except ScalarError Data :=
  match moment? (withoutLastBreak cs) with
  | some m => m.toData.mapError .calendar
  | none => .error .notMoment

/-- The octets of a text in base 64. -/
def binaryValue (cs : List Char) : Except ScalarError (List UInt8) :=
  let start := (cs.takeWhile fun c => c.toNat < 128).length
  match cs.drop start with
  | [] => (octetsOf cs).mapError .base64
  | c :: rest =>
    .error (.notAscii c start (start + 1 + (rest.takeWhile fun c => 128 ≤ c.toNat).length))

/-- The value of a scalar with a tag. -/
def scalarValue (tag : Tag) (cs : List Char) : Except ScalarError Data :=
  match tag with
  | .text => .ok (.text (String.ofList cs))
  | .nothing => .ok .null
  | .truth => do return .bool (← truthValue cs)
  | .integer => do return .int (← integerValue cs)
  | .real => do return .real (← realValue cs)
  | .time => momentValue cs
  | .binary => do return .binary (← binaryValue cs)
  | tag => .error (.unknownTag tag)

end VerilogLoops.Yaml
