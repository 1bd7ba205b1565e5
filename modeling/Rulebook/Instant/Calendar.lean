/-!
Dates of the Gregorian calendar, in all years, and their numbers counted from 1 January 1970. Years
are taken to begin in March, so that a leap day ends its year and four hundred years always have the
same number of days.

    day 0   1970-01-01        day -719468   0000-03-01        day 11016   2000-02-29
-/

namespace Rulebook

/-- A year, month and day, not all of which the calendar has. -/
structure Date where
  year : Int
  month : Nat
  day : Nat
  deriving DecidableEq, Repr

/-- Every fourth year, but of the full centuries only every fourth. -/
def isLeapYear (y : Int) : Bool := y % 4 == 0 && (y % 100 != 0 || y % 400 == 0)

/-- The number of days of a month. -/
def daysInMonth (y : Int) (m : Nat) : Nat :=
  if m = 2 then if isLeapYear y then 29 else 28
  else if m = 4 ∨ m = 6 ∨ m = 9 ∨ m = 11 then 30
  else 31

/-- The dates that the calendar has. -/
def Date.Valid (d : Date) : Prop :=
  1 ≤ d.month ∧ d.month ≤ 12 ∧ 1 ≤ d.day ∧ d.day ≤ daysInMonth d.year d.month

instance (d : Date) : Decidable d.Valid := inferInstanceAs (Decidable (_ ∧ _ ∧ _ ∧ _))

/-- The days of four hundred years. -/
def daysPerEra : Int := 146097

/-- The days from 1 March of the year 0 to the start of 1970. -/
def epochOffset : Int := 719468

/-- The number of a date. -/
def Date.number (d : Date) : Int :=
  let year := if d.month ≤ 2 then d.year - 1 else d.year
  let month : Int := if d.month ≤ 2 then d.month + 9 else d.month - 3
  let yearOfEra := year % 400
  let dayOfYear := (153 * month + 2) / 5 + d.day - 1
  year / 400 * daysPerEra + yearOfEra * 365 + yearOfEra / 4 - yearOfEra / 100 + dayOfYear -
    epochOffset

/-- The date with a number. -/
def Date.ofNumber (n : Int) : Date :=
  let days := n + epochOffset
  let dayOfEra := days % daysPerEra
  let yearOfEra := (dayOfEra - dayOfEra / 1460 + dayOfEra / 36524 - dayOfEra / 146096) / 365
  let dayOfYear := dayOfEra - (365 * yearOfEra + yearOfEra / 4 - yearOfEra / 100)
  let month := (5 * dayOfYear + 2) / 153
  let day := dayOfYear - (153 * month + 2) / 5 + 1
  let year := yearOfEra + days / daysPerEra * 400
  if month < 10 then ⟨year, (month + 3).toNat, day.toNat⟩
  else ⟨year + 1, (month - 9).toNat, day.toNat⟩

end Rulebook
