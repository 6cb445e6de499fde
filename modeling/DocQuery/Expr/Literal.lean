/-
Expressions whose value is known before the query runs: literals, their
negations, and objects and collections built from such expressions.
-/
import DocQuery.Expr.Basic

namespace DocQuery

namespace Literal

/-- Number held by an integer literal of either width. -/
def asInt? (l : Literal) : Option Int := l.value.asInt?

/-- That number in 64 bits, in which sums and differences wrap around. -/
def asInt64? (l : Literal) : Option Int64 := l.asInt?.map Int64.ofInt

/-- No bits are lost. -/
theorem exists_asInt64? {l : Literal} {n : Int} (h : l.asInt? = some n) :
    ∃ k, l.asInt64? = some k ∧ k.toInt = n := by
  refine ⟨.ofInt n, by rw [asInt64?, h, Option.map_some], ?_⟩
  obtain ⟨value, type⟩ := l
  cases value with
  | int32 k =>
    cases h
    have hmin := k.le_toInt
    have hmax := k.toInt_lt
    exact Int64.toInt_ofInt_of_le (by omega) (by omega)
  | int64 k =>
    cases h
    rw [Int64.ofInt_toInt]
  | _ => cases h

def asString? (l : Literal) : Option String := l.value.asString?

def asBool? (l : Literal) : Option Bool := l.value.asBool?

def isNull (l : Literal) : Bool := l.value.isNull

/-- The negated number. Integers wrap around, so the least one is its own negation. -/
def negate? (l : Literal) : Option Literal :=
  match l.value with
  | .int32 n => some { l with value := .int32 (-n) }
  | .int64 n => some { l with value := .int64 (-n) }
  | .double x => some { l with value := .double x.neg }
  | _ => none

/-- A collection of literals. Its item type is that of the first. -/
def ofItems (items : List Literal) : Literal :=
  { value := .array (items.map Literal.value)
    type := .array ((items.head?.map Literal.type).getD .any) }

end Literal

/-- How two strings are compared. -/
inductive StringComparison where
  | ordinal
  | ordinalIgnoreCase
deriving DecidableEq

/-- Reads a comparison given by name or by number. -/
def Literal.stringComparison? (l : Literal) : Option StringComparison :=
  match l.value with
  | .string name =>
    if name = "Ordinal" then some .ordinal
    else if name = "OrdinalIgnoreCase" then some .ordinalIgnoreCase
    else none
  | .int32 n => if n = 4 then some .ordinal else if n = 5 then some .ordinalIgnoreCase else none
  | _ => none

namespace Expr

mutual
/-- Value and type of an expression that is known before the query runs. -/
def known? : Expr → Option Literal
  | .quote inner => inner.known?
  | .convert operand _ => operand.known?
  | .literal l => some l
  | .negate operand => operand.known?.bind Literal.negate?
  | .object (some name) members =>
    (knownMembers? members).map fun fields => ⟨.document (Document.ofFields fields), .document name⟩
  | .collection _ (some source) _ => source.known?
  | .collection _ none items => (knownItems? items).map Literal.ofItems
  | _ => none
def knownItems? : List Expr → Option (List Literal)
  | [] => some []
  | e :: rest => do
    let l ← e.known?
    let ls ← knownItems? rest
    return l :: ls
def knownMembers? : List (String × Expr) → Option (List (String × Value))
  | [] => some []
  | (name, e) :: rest => do
    let l ← e.known?
    let ls ← knownMembers? rest
    return (name, l.value) :: ls
end

def isKnown (e : Expr) : Bool := e.known?.isSome

end Expr
end DocQuery
