import JavaMinus.Text.Digits
import JavaMinus.Toml.Reading
import JavaMinus.Toml.Value

/-!
# TOML dates

A date, a time of day, or a date with a time of day and perhaps a distance from universal time. Four
digits with a hyphen begin a date and an hour with a colon begins a time of day; what follows then
has to be one.
-/

namespace JavaMinus.Toml

open Reading

/-- The number that so many digits spell. -/
def fixedDigits (count : Nat) : Reading Nat := fun place =>
  let digits := place.take count
  if digits.length = count ∧ digits.all Char.isDigit then
    .found (Text.ofDigits 10 digits) (place.drop count)
  else .missed place

/-- Two digits whose number lies between two bounds. -/
def twoDigits (low high : Nat) : Reading Nat :=
  (fixedDigits 2).through fun n => if low ≤ n ∧ n ≤ high then some n else none

def isLeapYear (year : Nat) : Bool := year % 4 == 0 && (year % 100 != 0 || year % 400 == 0)

def daysInMonth (year month : Nat) : Nat :=
  if month = 2 then if isLeapYear year then 29 else 28
  else if month = 4 ∨ month = 6 ∨ month = 9 ∨ month = 11 then 30
  else 31

/-- A day of the calendar. -/
def day : Reading Unit := do
  let year ← fixedDigits 4
  char '-'
  commit do
    let month ← twoDigits 1 12
    char '-'
    let _ ← twoDigits 1 (daysInMonth year month)

/-- An hour and the colon behind it. -/
def hour : Reading Unit := do
  let _ ← twoDigits 0 23
  char ':'

/-- The fraction of a second. -/
def secondFraction : Reading Unit := do
  char '.'
  let _ ← one Char.isDigit
  skip Char.isDigit

/-- A time of day; a second may be a leap second, and may have a fraction. -/
def time : Reading Unit := do
  hour
  commit do
    let _ ← twoDigits 0 59
    char ':'
    let _ ← twoDigits 0 60
  let _ ← maybe secondFraction

/-- A distance from universal time. -/
def zone : Reading Unit :=
  (do let _ ← one fun c => c == 'Z' || c == 'z').orElse do
    let _ ← one fun c => c == '+' || c == '-'
    commit do
      hour
      let _ ← twoDigits 0 59

/-- A time of day behind a date. -/
def timeOfDay : Reading Unit := do
  let _ ← one fun c => c == 'T' || c == 't' || c == ' '
  time
  let _ ← maybe zone

/-- A date, a time of day, or both. -/
def dateOrTime : Reading Toml :=
  Toml.date <$> spelling
    ((do
      day
      let _ ← maybe timeOfDay).orElse time)

end JavaMinus.Toml
