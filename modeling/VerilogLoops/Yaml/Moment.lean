import VerilogLoops.Document.Data
import VerilogLoops.Number.Numeral
/-!
# Spellings of dates and times

A date is a year of four digits, a month and a day. A time of day may follow behind the letter `T`
or some blanks, and behind it the distance from universal time, in which `Z` stands for none. Such a
spelling may still name a date that the calendar does not have.
-/

namespace VerilogLoops.Yaml

open VerilogLoops.Document VerilogLoops.Number

/-- A time of day. -/
structure Clock where
  hour : Nat
  minute : Nat
  second : Nat
  millionths : Nat
  /-- The distance from universal time in seconds, if it is given. -/
  zone : Option Int
deriving DecidableEq, Repr

/-- A date, or a date and a time of day. -/
structure Moment where
  year : Nat
  month : Nat
  day : Nat
  clock : Option Clock
deriving DecidableEq, Repr

/-- A number of at least so many and at most so many digits, and the text behind it. -/
def digitsBetween (least most : Nat) (cs : List Char) : Option (Nat × List Char) :=
  let ds := (cs.take most).takeWhile Char.isDigit
  if least ≤ ds.length then some (decimalValue ds, cs.drop ds.length) else none

/-- The text behind a mark. -/
def behindMark (mark : Char) : List Char → Option (List Char)
  | c :: rest => if c = mark then some rest else none
  | [] => none

/-- A blank inside a line. -/
def isInlineBlank (c : Char) : Bool :=
  c = ' ' || c = '\t'

/-- The text behind what parts a date from a time of day. -/
def behindDate : List Char → Option (List Char)
  | c :: rest =>
    if c = 'T' || c = 't' then some rest
    else if isInlineBlank c then some (rest.dropWhile isInlineBlank)
    else none
  | [] => none

/-- The millionths of a second behind a point, or none without a point. -/
def millionthsPart : List Char → Nat × List Char
  | '.' :: rest =>
    let ds := rest.takeWhile Char.isDigit
    (decimalValue ((ds ++ List.replicate 6 '0').take 6), rest.drop ds.length)
  | cs => (0, cs)

/-- The distance from universal time at the end of a text, or nothing. -/
def zonePart? (cs : List Char) : Option (Option Int) :=
  match cs.dropWhile isInlineBlank with
  | [] => if cs.isEmpty then some none else none
  | ['Z'] => some (some 0)
  | sign :: rest => do
    if sign ≠ '+' && sign ≠ '-' then none
    else
      let (hours, rest) ← digitsBetween 1 2 rest
      let minutes ← match rest with
        | [] => some 0
        | rest => do
          let (minutes, rest) ← digitsBetween 2 2 (← behindMark ':' rest)
          if rest.isEmpty then some minutes else none
      return some (signed (sign = '-') (hours * 3600 + minutes * 60))

/-- The time of day of a text. -/
def clock? (cs : List Char) : Option Clock := do
  let (hour, rest) ← digitsBetween 1 2 cs
  let (minute, rest) ← digitsBetween 2 2 (← behindMark ':' rest)
  let (second, rest) ← digitsBetween 2 2 (← behindMark ':' rest)
  let (millionths, rest) := millionthsPart rest
  return ⟨hour, minute, second, millionths, ← zonePart? rest⟩

/-- The date of a text, with the time of day if there is one. -/
def moment? (cs : List Char) : Option Moment := do
  let (year, rest) ← digitsBetween 4 4 cs
  let (month, rest) ← digitsBetween 1 2 (← behindMark '-' rest)
  let (day, rest) ← digitsBetween 1 2 (← behindMark '-' rest)
  if rest.isEmpty then return ⟨year, month, day, none⟩
  else return ⟨year, month, day, some (← clock? (← behindDate rest))⟩

/-- A plain scalar is taken for a moment. A date on its own needs two digits for the month and for
the day. -/
def isMoment (cs : List Char) : Bool :=
  (moment? cs).any fun m => m.clock.isSome || cs.length = 10

/-- The date or the time that a moment names, if the calendar and the clock have it. The distance
from universal time is looked at first, then the date, then the time of day. -/
def Moment.toData (m : Moment) : Except CalendarError Data :=
  match m.clock with
  | none => do
    checkDate m.year m.month m.day
    return .date m.year m.month m.day
  | some clock => do
    checkOffset (clock.zone.getD 0)
    checkDate m.year m.month m.day
    checkTime clock.hour clock.minute clock.second
    return .moment m.year m.month m.day clock.hour clock.minute clock.second clock.millionths
      clock.zone

end VerilogLoops.Yaml
