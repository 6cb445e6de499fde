/-
Numbers written in decimal digits: integers with an optional sign, and numerals
in scientific notation, as `2.50e-3`. The digits are those of ASCII.
-/
namespace DocQuery

/-- Number that decimal digits stand for. -/
def ofDigits (digits : List Char) : Nat :=
  digits.foldl (fun n c => 10 * n + (c.toNat - '0'.toNat)) 0

/-- Takes one sign off the front, and tells whether it is a minus. -/
def splitSign : List Char → Bool × List Char
  | '-' :: rest => (true, rest)
  | '+' :: rest => (false, rest)
  | cs => (false, cs)

/-- Reads one digit or more and nothing else. -/
def natural? (cs : List Char) : Option Nat :=
  if !cs.isEmpty && cs.all Char.isDigit then some (ofDigits cs) else none

/-- Reads an integer, with or without a sign. -/
def integer? (cs : List Char) : Option Int :=
  let (negative, digits) := splitSign cs
  (natural? digits).map fun n => if negative then -(n : Int) else n

/-- An unsigned numeral: its digits without the point, how many of them stand after the point, and
the power of ten that is written behind them. -/
structure Numeral where
  digits : List Char
  places : Nat
  power : Int

namespace Numeral

/-- The digits from the first that is not zero. -/
def significant (x : Numeral) : List Char := x.digits.dropWhile (· == '0')

def coefficient (x : Numeral) : Nat := ofDigits x.digits

/-- Power of ten of the last digit: the numeral stands for `coefficient * 10^exponent`. -/
def exponent (x : Numeral) : Int := x.power - x.places

/-- Reads a numeral. It has one digit at least, before or after the point, and an exponent has one
too. -/
def parse? (cs : List Char) : Option Numeral := do
  let isMark (c : Char) : Bool := c == 'e' || c == 'E'
  let mantissa := cs.takeWhile (!isMark ·)
  let power ← match cs.dropWhile (!isMark ·) with
    | [] => some 0
    | _ :: power => integer? power
  let fraction := (mantissa.dropWhile (· != '.')).drop 1
  let digits := mantissa.takeWhile (· != '.') ++ fraction
  if !digits.isEmpty && digits.all Char.isDigit then
    return { digits, places := fraction.length, power }
  else none

end Numeral
end DocQuery
