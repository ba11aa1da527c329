/-!
# Dates and times of day

Which dates the calendar has, and which times the clock. The Gregorian calendar is used for all
years, from year 1 on. A time may come with its distance from universal time, which is less than a
day in both directions.
-/

namespace VerilogLoops.Document

/-- Why there is no such date or time. -/
inductive CalendarError where
  /-- The distance from universal time, in seconds, is a day or more. -/
  | offset (seconds : Int)
  | year (y : Nat)
  | month | day | hour | minute | second
deriving DecidableEq, Repr

/-- A length of time in days and seconds. A negative one counts its seconds from the day before. -/
def durationText (seconds : Int) : String :=
  let days := seconds / 86400
  let rest := seconds % 86400
  let parts := (if days = 0 then [] else [s!"days={days}"])
    ++ (if rest = 0 then [] else [s!"seconds={rest}"])
  "datetime.timedelta(" ++ (if parts.isEmpty then "0" else ", ".intercalate parts) ++ ")"

/-- The error in words. -/
def CalendarError.message : CalendarError → String
  | .offset seconds =>
    "offset must be a timedelta strictly between -timedelta(hours=24) and timedelta(hours=24), not "
      ++ durationText seconds ++ "."
  | .year y => s!"year {y} is out of range"
  | .month => "month must be in 1..12"
  | .day => "day is out of range for month"
  | .hour => "hour must be in 0..23"
  | .minute => "minute must be in 0..59"
  | .second => "second must be in 0..59"

/-- A year has a leap day. -/
def isLeapYear (year : Nat) : Bool :=
  (year % 4 = 0 && year % 100 ≠ 0) || year % 400 = 0

/-- The number of days of a month. -/
def daysIn (year month : Nat) : Nat :=
  if month = 2 then if isLeapYear year then 29 else 28
  else if [4, 6, 9, 11].contains month then 30
  else 31

/-- The calendar has a date. The year is looked at first, then the month, then the day. -/
def checkDate (year month day : Nat) : Except CalendarError Unit :=
  if year = 0 then .error (.year year)
  else if month = 0 || 12 < month then .error .month
  else if day = 0 || daysIn year month < day then .error .day
  else .ok ()

/-- The clock has a time. -/
def checkTime (hour minute second : Nat) : Except CalendarError Unit :=
  if 23 < hour then .error .hour
  else if 59 < minute then .error .minute
  else if 59 < second then .error .second
  else .ok ()

/-- A distance from universal time is less than a day. -/
def checkOffset (seconds : Int) : Except CalendarError Unit :=
  if seconds.natAbs < 86400 then .ok () else .error (.offset seconds)

/-- The number of days from the first day of the calendar up to the first day of a year. -/
def daysBeforeYear (year : Nat) : Nat :=
  let past := year - 1
  past * 365 + past / 4 - past / 100 + past / 400

/-- The number of days of a year up to a month. -/
def daysBeforeMonth (year : Nat) : Nat → Nat
  | 0 | 1 => 0
  | month + 2 => daysBeforeMonth year (month + 1) + daysIn year (month + 1)

/-- The number of days from the first day of the calendar up to a date. -/
def dayNumber (year month day : Nat) : Nat :=
  daysBeforeYear year + daysBeforeMonth year month + (day - 1)

/-- A date passes the check exactly if it is one of the calendar. -/
theorem checkDate_eq_ok_iff (year month day : Nat) :
    checkDate year month day = .ok () ↔
      0 < year ∧ (0 < month ∧ month ≤ 12) ∧ 0 < day ∧ day ≤ daysIn year month := by
  unfold checkDate
  split
  · simp; omega
  · split
    · simp_all; omega
    · split <;> simp_all <;> omega

end VerilogLoops.Document
