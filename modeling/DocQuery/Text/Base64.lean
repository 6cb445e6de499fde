/-
Base64 text of a byte string, with padding. Reading takes only what is written.
-/
namespace DocQuery.Base64

def alphabet : List Char :=
  "ABCDEFGHIJKLMNOPQRSTUVWXYZabcdefghijklmnopqrstuvwxyz0123456789+/".toList

/-- Letter of a six-bit group. -/
def letter (n : Nat) : Char := alphabet.getD (n % 64) 'A'

/-- Three bytes give four letters; a last group of one or two bytes is filled up with `=`. -/
def letters : List UInt8 → List Char
  | [] => []
  | [a] =>
    let n := a.toNat * 16
    [letter (n / 64), letter n, '=', '=']
  | [a, b] =>
    let n := (a.toNat * 256 + b.toNat) * 4
    [letter (n / 4096), letter (n / 64), letter n, '=']
  | a :: b :: c :: rest =>
    let n := (a.toNat * 256 + b.toNat) * 256 + c.toNat
    letter (n / 262144) :: letter (n / 4096) :: letter (n / 64) :: letter n :: letters rest

def encode (bytes : List UInt8) : String := String.ofList (letters bytes)

/-- Bytes of letters in groups of four. What is no letter counts as zero. -/
def bytes : List Char → List UInt8
  | a :: b :: c :: d :: rest =>
    let value (x : Char) : Nat := if x ∈ alphabet then alphabet.idxOf x else 0
    let n := ((value a * 64 + value b) * 64 + value c) * 64 + value d
    let group := [(n / 65536).toUInt8, (n / 256).toUInt8, n.toUInt8]
    if d = '=' then group.take (if c = '=' then 1 else 2) else group ++ bytes rest
  | _ => []

/-- The bytes that a text is written for. -/
def decode? (text : String) : Option (List UInt8) :=
  if encode (bytes text.toList) = text then some (bytes text.toList) else none

end DocQuery.Base64
