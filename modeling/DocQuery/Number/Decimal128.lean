/-
Decimal128 numbers: which decimal texts are one, and the text each is written as.
A number keeps its trailing zeros, so `1.50` and `1.5` are different numbers.
-/
import DocQuery.Number.Numeral

namespace DocQuery

/-- A decimal128 number. A finite one is `coefficient * 10^exponent` with its sign. -/
inductive Decimal128 where
  | nan
  | infinity (negative : Bool)
  | finite (negative : Bool) (coefficient : Nat) (exponent : Int)
deriving DecidableEq

namespace Decimal128

/-- A coefficient has this many digits at most. -/
def maxDigits : Nat := 34

def minExponent : Int := -6176

def maxExponent : Int := 6111

/-- The number that a numeral stands for, if it is one without rounding. Zeros are taken off the end
of a coefficient that is too long or has too small an exponent, and put there if the exponent is too
large. A zero takes the closest exponent. -/
def ofNumeral? (negative : Bool) (x : Numeral) : Option Decimal128 :=
  let e := x.exponent
  if x.power < Int16.minValue.toInt ∨ Int16.maxValue.toInt < x.power ∨ e < Int16.minValue.toInt then
    none
  else if x.coefficient = 0 then some (.finite negative 0 (max minExponent (min maxExponent e)))
  else
    let surplus := max (x.significant.length - maxDigits) (minExponent - e).toNat
    let missing := (e + surplus - maxExponent).toNat
    if x.coefficient % Nat.pow 10 surplus ≠ 0 then none
    else if maxDigits < x.significant.length - surplus + missing then none
    else some (.finite negative (x.coefficient / Nat.pow 10 surplus * Nat.pow 10 missing)
      (e + surplus - missing))

/-- Reads a numeral with an optional sign, or one of the words `inf`, `infinity`, `nan` and `snan`
in any letter case. -/
def parse? (text : String) : Option Decimal128 :=
  let (negative, cs) := splitSign text.toList
  match String.ofList (cs.map Char.toLower) with
  | "inf" | "infinity" => some (.infinity negative)
  | "nan" | "snan" => some .nan
  | _ => (Numeral.parse? cs).bind (ofNumeral? negative)

/-- Digits with a point before the last `places` of them, and a zero before a point that would come
first. -/
def plainText (digits : List Char) (places : Nat) : List Char :=
  let filled := List.replicate (places + 1 - digits.length) '0' ++ digits
  let whole := filled.take (filled.length - places)
  if places = 0 then whole else whole ++ '.' :: filled.drop (filled.length - places)

/-- Digits with a point after the first of them, and the power of ten of that first digit. -/
def scientificText (digits : List Char) (power : Int) : List Char :=
  let mantissa := if digits.length = 1 then digits else plainText digits (digits.length - 1)
  mantissa ++ 'E' :: (if 0 < power then ['+'] else []) ++ (toString power).toList

/-- Text of a number: plain where the exponent is not positive and the first digit stands at most
six places behind the point. -/
def text : Decimal128 → String
  | .nan => "NaN"
  | .infinity negative => if negative then "-Infinity" else "Infinity"
  | .finite negative coefficient exponent =>
    let digits := Nat.toDigits 10 coefficient
    let power := exponent + digits.length - 1
    let unsigned :=
      if exponent ≤ 0 ∧ -6 ≤ power then plainText digits (-exponent).toNat
      else scientificText digits power
    String.ofList (if negative then '-' :: unsigned else unsigned)

end Decimal128
end DocQuery
