import ApiManifest.Text.Digit

/-!
# Dates and times

Calendar dates of the years 1 to 9999 and times of day, with or without a distance from
universal time. Two times with a distance are the same when they name the same instant.
-/

namespace ApiManifest

/-- A calendar date. -/
structure Date where
  year : Nat
  month : Nat
  day : Nat
  deriving DecidableEq, Repr, Inhabited

/-- A date with a time of day. `offset` is the distance from universal time in seconds. -/
structure DateTime where
  date : Date
  hour : Nat := 0
  minute : Nat := 0
  second : Nat := 0
  microsecond : Nat := 0
  offset : Option Int := none
  deriving DecidableEq, Repr, Inhabited

namespace Date

/-- A year with a 29th of February. -/
def isLeap (year : Nat) : Bool := year % 4 = 0 && (year % 100 != 0 || year % 400 = 0)

/-- The number of days of a month. -/
def monthLength (year month : Nat) : Nat :=
  if month = 2 then (if isLeap year then 29 else 28)
  else if month = 4 ∨ month = 6 ∨ month = 9 ∨ month = 11 then 30
  else 31

/-- The date, if the calendar has it. -/
def of? (year month day : Nat) : Option Date :=
  if 1 ≤ year ∧ year ≤ 9999 ∧ 1 ≤ month ∧ month ≤ 12 ∧ 1 ≤ day ∧ day ≤ monthLength year month
  then some ⟨year, month, day⟩ else none

/-- The number of days from the first day of the year 1. -/
def ordinal (d : Date) : Nat :=
  let y := d.year - 1
  let months := (List.range (d.month - 1)).map fun m => monthLength d.year (m + 1)
  y * 365 + y / 4 - y / 100 + y / 400 + months.foldl Nat.add 0 + d.day - 1

/-- The date as `YYYY-MM-DD`. -/
def text (d : Date) : List Char :=
  Text.decimalPadded d.year 4 ++ '-' :: Text.decimalPadded d.month 2
    ++ '-' :: Text.decimalPadded d.day 2

end Date

namespace DateTime

/-- The time, if the calendar and the clock have it. A distance stays below one day. -/
def of? (date : Date) (hour minute second microsecond : Nat) (offset : Option Int) :
    Option DateTime :=
  if hour < 24 ∧ minute < 60 ∧ second < 60 ∧ microsecond < 1000000 ∧
      offset.all (·.natAbs < 86400)
  then some ⟨date, hour, minute, second, microsecond, offset⟩ else none

/-- The seconds since the first day of the year 1, by the clock's own reading. -/
def clock (t : DateTime) : Int :=
  t.date.ordinal * 86400 + t.hour * 3600 + t.minute * 60 + t.second

/-- Whether two times are the same. Times that tell their distance name instants; one that does
not is compared with its like only. -/
def same (s t : DateTime) : Bool :=
  s.microsecond == t.microsecond &&
    match s.offset, t.offset with
    | some a, some b => s.clock - a == t.clock - b
    | none, none => s.clock == t.clock
    | _, _ => false

/-- A distance as sign, hours, minutes and, when there are any, seconds. -/
def offsetText (seconds : Int) : List Char :=
  let n := seconds.natAbs
  (if seconds < 0 then '-' else '+') :: Text.decimalPadded (n / 3600) 2
    ++ ':' :: Text.decimalPadded (n / 60 % 60) 2
    ++ (if n % 60 = 0 then [] else ':' :: Text.decimalPadded (n % 60) 2)

/-- Date and time with a separator between them. Parts of a second and the distance are written
only if there are any. -/
def text (separator : Char) (t : DateTime) : List Char :=
  t.date.text ++ separator :: Text.decimalPadded t.hour 2
    ++ ':' :: Text.decimalPadded t.minute 2 ++ ':' :: Text.decimalPadded t.second 2
    ++ (if t.microsecond = 0 then [] else '.' :: Text.decimalPadded t.microsecond 6)
    ++ (t.offset.map offsetText).getD []

end DateTime

end ApiManifest
