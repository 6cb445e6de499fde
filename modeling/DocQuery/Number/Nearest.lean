/-
Reading of decimal text as the closest binary64 number.
-/
import DocQuery.Number.Binary64
import DocQuery.Number.Numeral

namespace DocQuery.Binary64

/-- Number closest to a numeral. From `10^310` on that is infinity and below `10^-330` zero, so
that only powers of ten of a moderate size are computed. -/
def ofNumeral (negative : Bool) (x : Numeral) : Binary64 :=
  let magnitude := x.significant.length + x.exponent
  if x.coefficient = 0 ∨ magnitude < -330 then nearest negative 0
  else if 310 < magnitude then infinity negative
  else nearestQuotient negative ((x.coefficient * Nat.pow 10 x.exponent.toNat) <<< 1074)
    (Nat.pow 10 (-x.exponent).toNat)

/-- Reads a numeral with an optional sign, or one of the words `inf`, `infinity` and `nan` in any
letter case. -/
def parse? (text : String) : Option Binary64 :=
  let (negative, cs) := splitSign text.toList
  match String.ofList (cs.map Char.toLower) with
  | "inf" | "infinity" => some (infinity negative)
  | "nan" => some nan
  | _ => (Numeral.parse? cs).map (ofNumeral negative)

end DocQuery.Binary64
