/-
Reading of an instant from text such as `2024-01-02T03:04:05.678+01:00`: a date,
any one ASCII character, a time with an optional fraction, and the distance from
UTC, or `Z`. A second 60 is taken at the end of a month in UTC only, and stands
for the last nanosecond before it.
-/
import DocQuery.Number.Numeral
import DocQuery.Text.Instant

namespace DocQuery.Instant

/-- Takes exactly `n` digits off the front. -/
def digits? (n : Nat) (cs : List Char) : Option (Nat × List Char) :=
  if (cs.take n).length = n then (natural? (cs.take n)).map fun value => (value, cs.drop n)
  else none

/-- Takes a given character off the front. -/
def literal? (c : Char) : List Char → Option (List Char)
  | first :: rest => if first = c then some rest else none
  | [] => none

/-- Takes any ASCII character off the front. -/
def separator? : List Char → Option (List Char)
  | first :: rest => if first.toNat < 128 then some rest else none
  | [] => none

/-- Reads a day that the calendar has. -/
def date? (cs : List Char) : Option (CalendarDay × List Char) := do
  let (year, cs) ← digits? 4 cs
  let (month, cs) ← digits? 2 (← literal? '-' cs)
  let (day, cs) ← digits? 2 (← literal? '-' cs)
  let date : CalendarDay := { year, month, day }
  if date.isValid then some (date, cs) else none

/-- Nanoseconds of a fraction, if there is one. Digits after the ninth do not count. -/
def fraction? : List Char → Option (Nat × List Char)
  | '.' :: cs =>
    let digits := cs.takeWhile Char.isDigit
    if digits.isEmpty then none
    else some (ofDigits ((digits ++ List.replicate 9 '0').take 9), cs.dropWhile Char.isDigit)
  | cs => some (0, cs)

/-- Minutes by which the local time is ahead of UTC. -/
def offset? : List Char → Option (Int × List Char)
  | [] => none
  | c :: cs => do
    if c = 'Z' ∨ c = 'z' then return (0, cs)
    let (hours, rest) ← digits? 2 cs
    let (minutes, rest) ← digits? 2 (← literal? ':' rest)
    if 23 < hours ∨ 59 < minutes then none
    else if c = '+' then return ((hours * 60 + minutes : Nat), rest)
    else if c = '-' then return (-(hours * 60 + minutes : Nat), rest)
    else none

/-- Whether a minute, counted from 1970-01-01 UTC, is the last of a month. -/
def endsMonth (minute : Int) : Bool :=
  minute.fmod 1440 = 1439 && (CalendarDay.ofEpochDays (minute.fdiv 1440 + 1)).day = 1

/-- Milliseconds from 1970-01-01 UTC to an instant; what is less than one is cut off. -/
def parse? (text : String) : Option Int := do
  let (date, cs) ← date? text.toList
  let (hour, cs) ← digits? 2 (← separator? cs)
  let (minute, cs) ← digits? 2 (← literal? ':' cs)
  let (second, cs) ← digits? 2 (← literal? ':' cs)
  let (nanos, cs) ← fraction? cs
  let (offset, cs) ← offset? cs
  if !cs.isEmpty ∨ 23 < hour ∨ 59 < minute then none
  let minutes := date.epochDays * 1440 + (hour * 60 + minute : Nat) - offset
  if second < 60 then
    return ((minutes * 60 + second) * 1000000000 + nanos).tdiv 1000000
  else if second = 60 ∧ endsMonth minutes then
    return ((minutes + 1) * 60 * 1000000000 - 1).tdiv 1000000
  else none

end DocQuery.Instant
