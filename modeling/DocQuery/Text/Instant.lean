/-
Calendar text of an instant given in milliseconds since 1970-01-01 UTC, as in
`2024-01-02 3:04:05.678 +00:00:00`.
-/
namespace DocQuery

/-- A day of the proleptic Gregorian calendar. -/
structure CalendarDay where
  year : Int
  month : Nat
  day : Nat
deriving DecidableEq

namespace CalendarDay

/-- The day that lies `n` days after 1970-01-01.

Years are counted from March, so that the leap day comes last: a cycle of 400 years has
146097 days, and the months from March on begin on day `(153 m + 2) / 5` of their year. -/
def ofEpochDays (n : Int) : CalendarDay :=
  let shifted := n + 719468
  let cycle := shifted.fdiv 146097
  let dayOfCycle := (shifted.fmod 146097).toNat
  let leapDays := dayOfCycle / 1460 + dayOfCycle / 146096 - dayOfCycle / 36524
  let yearOfCycle := (dayOfCycle - leapDays) / 365
  let dayOfYear := dayOfCycle - (365 * yearOfCycle + yearOfCycle / 4 - yearOfCycle / 100)
  let month := (5 * dayOfYear + 2) / 153
  { year := cycle * 400 + yearOfCycle + (if month < 10 then 0 else 1)
    month := if month < 10 then month + 3 else month - 9
    day := dayOfYear - (153 * month + 2) / 5 + 1 }

/-- Days from 1970-01-01 to a day, with years counted from March as above. -/
def epochDays (date : CalendarDay) : Int :=
  let year := if date.month ≤ 2 then date.year - 1 else date.year
  let month : Nat := (date.month + 9) % 12
  let dayOfYear := ((153 * month + 2) / 5 : Nat) + (date.day : Int) - 1
  365 * year + year.fdiv 4 - year.fdiv 100 + year.fdiv 400 + dayOfYear - 719468

/-- Whether the calendar has the day: its number leads back to it. -/
def isValid (date : CalendarDay) : Bool := ofEpochDays date.epochDays = date

end CalendarDay

namespace Instant

/-- Decimal digits of a number, filled up with zeros on the left to a least width. -/
def padded (width n : Nat) : List Char :=
  let digits := Nat.toDigits 10 n
  List.replicate (width - digits.length) '0' ++ digits

/-- Years have four digits at least, and a sign when they are outside 0 to 9999. -/
def yearText (year : Int) : List Char :=
  let digits := padded 4 year.natAbs
  if year < 0 then '-' :: digits
  else if year < 10000 then digits
  else '+' :: digits

/-- Milliseconds of a second without zeros at the end, but with one digit at least. -/
def fractionText (millis : Nat) : List Char :=
  match ((padded 3 millis).reverse.dropWhile (· == '0')).reverse with
  | [] => ['0']
  | digits => digits

/-- The calendar reaches this year in both directions. -/
def lastYear : Nat := 999999

/-- Date and time of an instant; the plain number of milliseconds when it lies outside the
calendar. -/
def text (millis : Int) : String :=
  let date := CalendarDay.ofEpochDays (millis.fdiv 86400000)
  if lastYear < date.year.natAbs then toString millis
  else
    let time := (millis.fmod 86400000).toNat
    String.ofList <|
      yearText date.year ++ '-' :: padded 2 date.month ++ '-' :: padded 2 date.day ++
      ' ' :: padded 1 (time / 3600000) ++ ':' :: padded 2 (time / 60000 % 60) ++
      ':' :: padded 2 (time / 1000 % 60) ++ '.' :: fractionText (time % 1000) ++
      " +00:00:00".toList

end Instant
end DocQuery
