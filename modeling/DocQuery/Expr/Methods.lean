/-
Families of methods and members that mean variants of one thing.
-/
import DocQuery.Text.Case

namespace DocQuery

/-- Case that a method puts a string in. -/
def LetterCase.ofMethod? : String → Option LetterCase
  | "ToLower" | "ToLowerInvariant" => some .lower
  | "ToUpper" | "ToUpperInvariant" => some .upper
  | _ => none

/-- Aggregation operator that puts a string in a case. -/
def LetterCase.operator : LetterCase → String
  | .lower => "$toLower"
  | .upper => "$toUpper"

/-- Where characters are cut from a string. -/
inductive TrimSide where
  | both
  | start
  | stop
deriving DecidableEq

namespace TrimSide

def ofMethod? : String → Option TrimSide
  | "Trim" => some both
  | "TrimStart" => some start
  | "TrimEnd" => some stop
  | _ => none

def operator : TrimSide → String
  | both => "$trim"
  | start => "$ltrim"
  | stop => "$rtrim"

end TrimSide

/-- One end of a sequence. -/
inductive SequenceEnd where
  | first
  | last
deriving DecidableEq

namespace SequenceEnd

def ofMethod? : String → Option SequenceEnd
  | "First" | "FirstOrDefault" => some first
  | "Last" | "LastOrDefault" => some last
  | _ => none

/-- Position of the item at this end; negative positions count from the last item. -/
def position : SequenceEnd → Int32
  | first => 0
  | last => -1

/-- Accumulator that keeps the value at this end of a group. -/
def accumulator : SequenceEnd → String
  | first => "$first"
  | last => "$last"

end SequenceEnd

/-- Reductions of a sequence of values to one. -/
inductive Reducer where
  | sum
  | average
  | min
  | max
  | deviationOfPopulation
  | deviationOfSample
deriving DecidableEq

namespace Reducer

def ofMethod? : String → Option Reducer
  | "Sum" => some sum
  | "Average" => some average
  | "Min" => some min
  | "Max" => some max
  | "StandardDeviationPopulation" => some deviationOfPopulation
  | "StandardDeviationSample" => some deviationOfSample
  | _ => none

def operator : Reducer → String
  | sum => "$sum"
  | average => "$avg"
  | min => "$min"
  | max => "$max"
  | deviationOfPopulation => "$stdDevPop"
  | deviationOfSample => "$stdDevSamp"

end Reducer

/-- Operations on two arrays as sets. -/
inductive SetOperation where
  | union
  | intersection
  | difference
  | equality
  | subset
deriving DecidableEq

namespace SetOperation

def ofMethod? : String → Option SetOperation
  | "Union" => some union
  | "Intersect" => some intersection
  | "Except" => some difference
  | "SetEquals" => some equality
  | "IsSubsetOf" => some subset
  | _ => none

def operator : SetOperation → String
  | union => "$setUnion"
  | intersection => "$setIntersection"
  | difference => "$setDifference"
  | equality => "$setEquals"
  | subset => "$setIsSubset"

end SetOperation

/-- Parts of a date. -/
inductive DatePart where
  | year
  | month
  | day
  | hour
  | minute
  | second
  | millisecond
  | dayOfYear
  | dayOfWeek
deriving DecidableEq

namespace DatePart

def ofMember? : String → Option DatePart
  | "Year" => some year
  | "Month" => some month
  | "Day" => some day
  | "Hour" => some hour
  | "Minute" => some minute
  | "Second" => some second
  | "Millisecond" => some millisecond
  | "DayOfYear" => some dayOfYear
  | "DayOfWeek" => some dayOfWeek
  | _ => none

def operator : DatePart → String
  | year => "$year"
  | month => "$month"
  | day => "$dayOfMonth"
  | hour => "$hour"
  | minute => "$minute"
  | second => "$second"
  | millisecond => "$millisecond"
  | dayOfYear => "$dayOfYear"
  | dayOfWeek => "$dayOfWeek"

end DatePart

/-- Units of the time that is added to a date. -/
inductive TimeUnit where
  | day
  | hour
  | minute
  | second
  | millisecond
deriving DecidableEq

namespace TimeUnit

def ofMethod? : String → Option TimeUnit
  | "AddDays" => some day
  | "AddHours" => some hour
  | "AddMinutes" => some minute
  | "AddSeconds" => some second
  | "AddMilliseconds" => some millisecond
  | _ => none

def millis : TimeUnit → Nat
  | day => 86400000
  | hour => 3600000
  | minute => 60000
  | second => 1000
  | millisecond => 1

end TimeUnit

/-- Functions of one number whose result is of the number's own type. -/
inductive Rounding where
  | absolute
  | ceiling
  | floor
  | truncation
deriving DecidableEq

namespace Rounding

def ofMethod? : String → Option Rounding
  | "Abs" => some absolute
  | "Ceiling" => some ceiling
  | "Floor" => some floor
  | "Truncate" => some truncation
  | _ => none

def operator : Rounding → String
  | absolute => "$abs"
  | ceiling => "$ceil"
  | floor => "$floor"
  | truncation => "$trunc"

end Rounding
end DocQuery
