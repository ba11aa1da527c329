import VerilogLoops.Document.Data
import VerilogLoops.Number.Numeral
import VerilogLoops.Text.Quoted
/-!
# Documents in messages

How a document is shown in a message about it: texts in quotes, lists in brackets, maps in braces,
and the name of the kind of data it is.
-/

namespace VerilogLoops.Document

open VerilogLoops.Number VerilogLoops.Text

/-- The name of the kind of data. -/
def Data.kindName : Data → String
  | .null => "NoneType"
  | .bool _ => "bool"
  | .int _ => "int"
  | .real _ => "float"
  | .text _ => "str"
  | .list _ => "list"
  | .map _ => "dict"
  | .set _ => "set"
  | .pair .. => "tuple"
  | .binary _ => "bytes"
  | .date .. => "date"
  | .moment .. => "datetime"

/-- The parts of a moment that are shown. The second is left out when it and the millionths are
zero, and so are the millionths. -/
def momentParts (year month day hour minute second millionths : Nat) : List Nat :=
  [year, month, day, hour, minute]
    ++ (if second = 0 && millionths = 0 then [] else [second])
    ++ (if millionths = 0 then [] else [millionths])

/-- The distance from universal time. -/
def zoneText (seconds : Int) : String :=
  if seconds = 0 then "datetime.timezone.utc"
  else "datetime.timezone(" ++ durationText seconds ++ ")"

/-- An octet inside quotes: an ASCII character as such, any other octet by its number. -/
def quotedOctet (quote : Char) (octet : UInt8) : String :=
  if octet.toNat < 0x80 then quotedCharacter quote (Char.ofNat octet.toNat)
  else "\\x" ++ hexadecimal 2 octet.toNat

/-- Binary data in quotes with a mark in front of them. -/
def quotedOctets (octets : List UInt8) : String :=
  let quote := quoteFor (octets.map fun octet => Char.ofNat octet.toNat)
  "b" ++ String.singleton quote ++ String.join (octets.map (quotedOctet quote))
    ++ String.singleton quote

/-- The name of the kind of data with the module it belongs to. -/
def Data.fullKindName : Data → String
  | .date .. => "datetime.date"
  | .moment .. => "datetime.datetime"
  | data => data.kindName

mutual

/-- A document as it is shown in a message. -/
def Data.inspect : Data → String
  | .null => "None"
  | .bool b => if b then "True" else "False"
  | .int i => toString i
  | .real r => r.text
  | .text s => quoted s
  | .list items => "[" ++ ", ".intercalate (inspectItems items) ++ "]"
  | .map entries => "\x7b" ++ ", ".intercalate (inspectEntries entries) ++ "\x7d"
  | .set [] => "set()"
  | .set items => "\x7b" ++ ", ".intercalate (inspectItems items) ++ "\x7d"
  | .pair key value => "(" ++ key.inspect ++ ", " ++ value.inspect ++ ")"
  | .binary octets => quotedOctets octets
  | .date year month day => s!"datetime.date({year}, {month}, {day})"
  | .moment year month day hour minute second millionths zone =>
    "datetime.datetime("
      ++ ", ".intercalate
        ((momentParts year month day hour minute second millionths).map toString)
      ++ (match zone with
        | none => ""
        | some seconds => ", tzinfo=" ++ zoneText seconds)
      ++ ")"

/-- The items of a list. -/
def inspectItems : List Data → List String
  | [] => []
  | item :: rest => item.inspect :: inspectItems rest

/-- The entries of a map. -/
def inspectEntries : List (Data × Data) → List String
  | [] => []
  | (key, value) :: rest => (key.inspect ++ ": " ++ value.inspect) :: inspectEntries rest

end

mutual

/-- Every whole number in a document can be shown in decimal digits. -/
def Data.isShowable : Data → Bool
  | .int i => Number.isShowable i
  | .list items => areShowable items
  | .map entries => areShowableEntries entries
  | .set items => areShowable items
  | .pair key value => key.isShowable && value.isShowable
  | _ => true

/-- Every whole number in some documents can be shown. -/
def areShowable : List Data → Bool
  | [] => true
  | item :: rest => item.isShowable && areShowable rest

/-- Every whole number in some entries can be shown. -/
def areShowableEntries : List (Data × Data) → Bool
  | [] => true
  | (key, value) :: rest => key.isShowable && value.isShowable && areShowableEntries rest

end

/-- A number with zeros in front, at least so many digits. -/
def padded (width n : Nat) : String :=
  let digits := toString n
  zeros (width - digits.length) ++ digits

/-- A date by its year, month and day. -/
def dateText (year month day : Nat) : String :=
  padded 4 year ++ "-" ++ padded 2 month ++ "-" ++ padded 2 day

/-- A distance from universal time in hours and minutes, and in seconds if need be. -/
def zoneOffsetText (seconds : Int) : String :=
  let n := seconds.natAbs
  (if seconds < 0 then "-" else "+") ++ padded 2 (n / 3600) ++ ":" ++ padded 2 (n / 60 % 60)
    ++ (if n % 60 = 0 then "" else ":" ++ padded 2 (n % 60))

/-- A document inside a running text: a text stands for itself, and dates and times are written
with their usual marks. -/
def Data.display : Data → String
  | .text s => s
  | .date year month day => dateText year month day
  | .moment year month day hour minute second millionths zone =>
    dateText year month day ++ " " ++ padded 2 hour ++ ":" ++ padded 2 minute ++ ":"
      ++ padded 2 second ++ (if millionths = 0 then "" else "." ++ padded 6 millionths)
      ++ (match zone with
        | none => ""
        | some seconds => zoneOffsetText seconds)
  | data => data.inspect

end VerilogLoops.Document
