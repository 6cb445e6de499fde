/-
Binary64 numbers as the 64 bits that store them. A finite number is a whole
multiple of `2^-1074`, its `magnitude`, so rounding and comparing need natural
numbers only:

* `nearestQuotient`: the number closest to a given quotient, in units of
  `2^-1074`, a tie going to the even significand;
* `ofInt`: the number closest to an integer;
* `scale`: a number times a natural number, rounded once;
* `roundToInt64`: the closest integer, a half away from zero, kept in range.
-/
namespace DocQuery

/-- A binary64 number: one sign bit, eleven exponent bits, fifty-two fraction bits. -/
structure Binary64 where
  bits : UInt64
deriving DecidableEq

namespace Binary64

def isNegative (x : Binary64) : Bool := 1 <<< 63 ≤ x.bits.toNat

def biasedExponent (x : Binary64) : Nat := (x.bits.toNat >>> 52) % 2048

def fraction (x : Binary64) : Nat := x.bits.toNat % (1 <<< 52)

def isFinite (x : Binary64) : Bool := x.biasedExponent != 2047

def isNaN (x : Binary64) : Bool := x.biasedExponent == 2047 && x.fraction != 0

/-- The fraction with its leading one, which a subnormal number does not have. -/
def significand (x : Binary64) : Nat :=
  if x.biasedExponent = 0 then x.fraction else x.fraction + (1 <<< 52)

/-- Exponent of the significand's last place, counted from `2^-1074`. -/
def unitExponent (x : Binary64) : Nat := x.biasedExponent - 1

/-- Absolute value of a finite number as a multiple of `2^-1074`. -/
def magnitude (x : Binary64) : Nat := x.significand <<< x.unitExponent

/-- Bits of positive infinity, above those of every finite positive number. -/
def infinityBits : Nat := 2047 <<< 52

/-- A quotient rounded to the nearest natural number, a tie to the even one. -/
def roundHalfEven (n d : Nat) : Nat :=
  let twice := 2 * (n % d)
  let floor := n / d
  if twice < d then floor
  else if twice = d then floor + floor % 2
  else floor + 1

/-- Infinity of the given sign. -/
def infinity (negative : Bool) : Binary64 :=
  ⟨((if negative then 1 <<< 63 else 0) + infinityBits).toUInt64⟩

def nan : Binary64 := ⟨0x7ff8000000000000⟩

/-- Number closest to `n / d * 2^-1074` with the given sign; infinity when it is too large.

A significand that rounds up to `2^53` carries into the exponent bits by itself. -/
def nearestQuotient (negative : Bool) (n d : Nat) : Binary64 :=
  let p := (n / d).log2 + 1 - 53
  let bits := min ((p <<< 52) + roundHalfEven n (d <<< p)) infinityBits
  ⟨((if negative then 1 <<< 63 else 0) + bits).toUInt64⟩

/-- Number closest to `n * 2^-1074` with the given sign. -/
def nearest (negative : Bool) (n : Nat) : Binary64 := nearestQuotient negative n 1

/-- Number closest to an integer. -/
def ofInt (n : Int) : Binary64 :=
  nearest (n < 0) (n.natAbs <<< 1074)

/-- A number with the opposite sign bit. -/
def neg (x : Binary64) : Binary64 := ⟨x.bits ^^^ 0x8000000000000000⟩

/-- A number times a positive natural number, rounded to the nearest number. -/
def scale (x : Binary64) (k : Nat) : Binary64 :=
  if x.isFinite then nearest x.isNegative (x.magnitude * k) else x

/-- Closest integer, a half going away from zero, limited to 64 bits; zero for NaN. -/
def roundToInt64 (x : Binary64) : Int64 :=
  if x.isNaN then 0
  else
    let n := if x.isFinite then (x.magnitude + (1 <<< 1073)) >>> 1074 else 1 <<< 63
    if x.isNegative then Int64.ofInt (-(min n (1 <<< 63) : Nat))
    else Int64.ofInt (min n ((1 <<< 63) - 1) : Nat)

end Binary64
end DocQuery
