/-
Decimal text of a binary64 number: the fewest digits that read back as the same
number, the nearest such decimal, of two equally near ones the larger in
absolute value. The text never has an exponent.
-/
import DocQuery.Number.Binary64

namespace DocQuery

/-- A positive decimal `digits * 10^exponent`. -/
structure Decimal where
  digits : Nat
  exponent : Int

namespace Binary64

/-- The decimals that read back as a positive finite number lie between two bounds, here
multiples of `2^-1076`; the bounds themselves belong exactly when the significand is even. -/
structure ReadBack where
  low : Nat
  high : Nat
  closed : Bool

/-- Halfway to the neighbours. Below a power of two the neighbour is half as far. -/
def readBack (x : Binary64) : ReadBack :=
  let unit := 1 <<< x.unitExponent
  let below := if x.fraction = 0 ∧ 1 < x.biasedExponent then unit else 2 * unit
  { low := 4 * x.magnitude - below
    high := 4 * x.magnitude + 2 * unit
    closed := x.significand % 2 = 0 }

/-- Whether `n / d`, in multiples of `2^-1076`, reads back. -/
def ReadBack.contains (r : ReadBack) (n d : Nat) : Bool :=
  if r.closed then r.low * d ≤ n && n ≤ r.high * d else r.low * d < n && n < r.high * d

/-- Exponent of the leading decimal digit of a positive finite number. -/
def leadingExponent (x : Binary64) : Int :=
  ((Nat.toDigits 10 ((x.magnitude * Nat.pow 10 400) >>> 1074)).length : Int) - 401

/-- The decimal closest to a positive number among the multiples of `10^k`, if it reads back. -/
def onGrid? (x : Binary64) (k : Int) : Option Decimal :=
  let r := x.readBack
  let up := Nat.pow 10 k.toNat <<< 1076
  let down := Nat.pow 10 (-k).toNat
  let value := 4 * x.magnitude * down
  let floor := value / up
  let belowHit := r.contains (floor * up) down
  let aboveHit := r.contains ((floor + 1) * up) down
  if belowHit && aboveHit then
    some ⟨if (2 * floor + 1) * up ≤ 2 * value then floor + 1 else floor, k⟩
  else if belowHit then some ⟨floor, k⟩
  else if aboveHit then some ⟨floor + 1, k⟩
  else none

/-- The decimal with the fewest digits that reads back as a positive finite number.
Seventeen digits always do. -/
def shortest (x : Binary64) : Decimal :=
  let e := x.leadingExponent
  ((List.range 17).findSome? fun (n : Nat) => x.onGrid? (e - n)).getD ⟨0, 0⟩

end Binary64

namespace Decimal

def zeros (n : Nat) : List Char := List.replicate n '0'

/-- Positional text: no exponent, no point on a whole number, no zeros at the end of a fraction. -/
def positional (d : Decimal) : String :=
  let all := Nat.toDigits 10 d.digits
  let kept := (all.reverse.dropWhile (· == '0')).reverse
  let point : Int := all.length + d.exponent
  String.ofList <|
    if point ≤ 0 then '0' :: '.' :: zeros (-point).toNat ++ kept
    else if kept.length ≤ point.toNat then kept ++ zeros (point.toNat - kept.length)
    else kept.take point.toNat ++ '.' :: kept.drop point.toNat

end Decimal

/-- Text of a number: `NaN`, `inf`, `-inf`, or its shortest decimal with a sign for any
negative number, zero included. -/
def Binary64.text (x : Binary64) : String :=
  if x.isNaN then "NaN"
  else
    (if x.isNegative then "-" else "") ++
      if !x.isFinite then "inf"
      else if x.magnitude = 0 then "0"
      else x.shortest.positional

end DocQuery
