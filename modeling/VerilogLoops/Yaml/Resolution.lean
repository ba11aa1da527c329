import VerilogLoops.Yaml.Value
/-!
# What a plain scalar stands for

A scalar without quotes may stand for a truth value, a number, a date or nothing. Its spelling
decides, by the rules of YAML 1.1: `yes` and `off` are truth values, `017` is octal, `1:30` counts
in sixties, `1_000` is a thousand, a number with an exponent needs a point, and the exponent a
sign. What fits no rule is a text.
-/

namespace VerilogLoops.Yaml

open VerilogLoops.Number

/-- The spellings of nothing. -/
def nothingWords : List String :=
  ["", "~", "null", "Null", "NULL"]

/-- The spellings of truth. -/
def trueWords : List String :=
  ["yes", "Yes", "YES", "true", "True", "TRUE", "on", "On", "ON"]

/-- The spellings of falsehood. -/
def falseWords : List String :=
  ["no", "No", "NO", "false", "False", "FALSE", "off", "Off", "OFF"]

/-- One of some words. -/
def isOneOf (words : List String) (cs : List Char) : Bool :=
  words.any (·.toList = cs)

/-- A digit or an underscore. -/
def isFiller (c : Char) : Bool :=
  c.isDigit || c = '_'

/-- A number from 0 to 59 in one or two digits. -/
def isSixtieth : List Char → Bool
  | [a] => a.isDigit
  | [a, b] => '0' ≤ a && a ≤ '5' && b.isDigit
  | _ => false

/-- A number in sixties, whose first part starts with a digit of a class. -/
def isSexagesimal (first : Char → Bool) (cs : List Char) : Bool :=
  match segments ':' cs with
  | (c :: rest) :: part :: parts =>
    first c && rest.all isFiller && isSixtieth part && parts.all isSixtieth
  | _ => false

/-- A digit other than zero. -/
def isNonzeroDigit (c : Char) : Bool :=
  '1' ≤ c && c ≤ '9'

/-- The spellings of whole numbers. -/
def isInteger (cs : List Char) : Bool :=
  match unsigned cs with
  | ['0'] => true
  | '0' :: 'b' :: rest => !rest.isEmpty && rest.all fun c => c = '0' || c = '1' || c = '_'
  | '0' :: 'x' :: rest =>
    !rest.isEmpty
      && rest.all fun c => c.isDigit || ('a' ≤ c && c ≤ 'f') || ('A' ≤ c && c ≤ 'F') || c = '_'
  | '0' :: rest => rest.all fun c => ('0' ≤ c && c ≤ '7') || c = '_'
  | c :: rest =>
    isNonzeroDigit c && (rest.all isFiller || isSexagesimal isNonzeroDigit (c :: rest))
  | [] => false

/-- An exponent with its sign, or nothing. -/
def isExponent : List Char → Bool
  | [] => true
  | e :: sign :: d :: rest =>
    (e = 'e' || e = 'E') && (sign = '+' || sign = '-') && d.isDigit && rest.all Char.isDigit
  | _ => false

/-- The spellings of numbers with a point. -/
def isReal (cs : List Char) : Bool :=
  let body := unsigned cs
  let whole := body.takeWhile (· ≠ '.')
  match body.dropWhile (· ≠ '.') with
  | [] => false
  | _ :: tail =>
    match whole with
    | [] =>
      isOneOf ["inf", "Inf", "INF"] tail
        || body = cs && (isOneOf ["nan", "NaN", "NAN"] tail
          || tail.head?.any Char.isDigit && isExponent (tail.dropWhile isFiller))
    | c :: rest =>
      c.isDigit && rest.all isFiller && isExponent (tail.dropWhile isFiller)
        || isSexagesimal Char.isDigit whole && tail.all isFiller

/-- The tag of a spelling. -/
def Tag.ofSpelling (cs : List Char) : Tag :=
  if isOneOf (trueWords ++ falseWords) cs then .truth
  else if isReal cs then .real
  else if isInteger cs then .integer
  else if isOneOf ["<<"] cs then .merge
  else if isOneOf nothingWords cs then .nothing
  else if isMoment cs then .time
  else if isOneOf ["="] cs then .value
  else .text

/-- The tag of a plain scalar. A scalar that is taken as a plain one may have a line feed at its
end, which does not count, unless there is nothing else. -/
def Tag.ofPlain (cs : List Char) : Tag :=
  if cs = ['\n'] then .text else .ofSpelling (withoutLastBreak cs)

/-- Without a line feed at the end the whole text is the spelling. -/
theorem Tag.ofPlain_of_getLast? {cs : List Char} (h : cs.getLast? ≠ some '\n') :
    ofPlain cs = ofSpelling cs := by
  have : cs ≠ ['\n'] := by rintro rfl; simp at h
  simp [ofPlain, withoutLastBreak, h, this]

end VerilogLoops.Yaml
