/-
The length of a stored array, compared with a constant number.

A step of a name leads to the field of a document; in an array, to the item at the
position that the step is the numeral of, and to that field of each document in it
(`Value.step`). The database asks about the values that the steps of a name lead to
(`Valuation.ofDocument`). The name of an array with a position behind it leads to the
item there (`reach_position`), so that the filters for the six operators ask just for
the lengths that compare as they should (`arrayLength_spec`), whatever the number.
-/
import DocQuery.Proofs.Dotted
import DocQuery.Proofs.Filter.Answer
import DocQuery.Proofs.Pattern.Notation

namespace DocQuery

open DocQuery.Filter

/-! ## What a name leads to -/

namespace Value

/-- The field of a document. -/
def field : Value → String → List Value
  | .document d, key => (Document.get? d key).toList
  | _, _ => []

/-- The values that one step leads to. -/
def step : Value → String → List Value
  | .array items, key =>
    (items.zipIdx.filter fun (_, k) => toString k = key).map (·.1) ++ items.flatMap (·.field key)
  | v, key => v.field key

/-- The values that several steps lead to. -/
def reach (v : Value) (path : List String) : List Value :=
  path.foldl (fun vs key => vs.flatMap (·.step key)) [v]

/-- Whether a value is an array of the size that another one says. -/
def hasSize : Value → Value → Bool
  | .array items, size => size.asInt? = some (items.length : Int)
  | _, _ => false

variable {v : Value} {items : List Value}

theorem reach_concat (v : Value) (path : List String) (key : String) :
    v.reach (path ++ [key]) = (v.reach path).flatMap (·.step key) := by
  simp [reach]

/-- Only documents have fields. -/
theorem flatMap_field (h : ∀ d, Value.document d ∉ items) (key : String) :
    items.flatMap (·.field key) = [] := by
  rw [List.flatMap_eq_nil_iff]
  intro v hv
  cases v with
  | document d => exact absurd hv (h d)
  | _ => rfl

/-- Different positions have different numerals. -/
theorem toString_position {i k : Nat} : toString i = toString k ↔ i = k := by
  refine ⟨fun h => ?_, congrArg toString⟩
  have hdigits : Nat.toDigits 10 i = Nat.toDigits 10 k := by
    simpa using congrArg String.toList h
  rw [← Pattern.ofDigits_toDigits i, hdigits, Pattern.ofDigits_toDigits]

theorem filter_zipIdx (items : List Value) (start k : Nat) :
    ((items.zipIdx start).filter fun (_, i) => i = start + k).map (·.1) = items[k]?.toList := by
  induction items generalizing start k with
  | nil => rfl
  | cons item items ih =>
    cases k with
    | zero =>
      have hrest : ∀ p ∈ items.zipIdx (start + 1), p.2 ≠ start := by
        intro p hp
        have hle := List.le_snd_of_mem_zipIdx hp
        omega
      simpa [List.zipIdx_cons] using hrest
    | succ k =>
      have hk : start + (k + 1) = start + 1 + k := by omega
      have hne : start ≠ start + 1 + k := by omega
      simpa [List.zipIdx_cons, hk, hne] using ih (start + 1) k

/-- A numeral leads to the item at that position in an array. -/
theorem step_position (h : ∀ d, Value.document d ∉ items) (k : Nat) :
    (Value.array items).step (toString k) = items[k]?.toList := by
  simp only [step, toString_position, flatMap_field h, List.append_nil]
  simpa using filter_zipIdx items 0 k

/-- Behind the name of an array, a numeral leads to the item at that position. -/
theorem reach_position {name : String} (hname : v.reach (steps name) = [.array items])
    (h : ∀ d, Value.document d ∉ items) (k : Nat) :
    v.reach (steps (name ++ "." ++ toString k)) = items[k]?.toList := by
  have hdot : '.' ∉ (toString k).toList := by
    intro hmem
    rw [Nat.toString_eq_repr, Nat.toList_repr] at hmem
    exact absurd (Nat.isDigit_of_mem_toDigits (by decide) (by decide) hmem) (by decide)
  have hsteps : steps (toString k) = [toString k] := by
    rw [steps, List.splitOn_eq_singleton hdot, List.map_singleton, String.ofList_toList]
  rw [steps_below, hsteps, reach_concat, hname, List.flatMap_singleton, step_position h]

end Value

/-! ## What filters ask of a document -/

namespace Filter

/-- Answers about a document: whether a name leads to an array of some size, or to anything. -/
def Valuation.ofDocument (d : Document) : Valuation :=
  .ofFields fun name op x =>
    let found := (Value.document d).reach (steps name)
    if op = "$size" then found.any (·.hasSize x)
    else decide (op = "$exists") && !found.isEmpty

variable {d : Document} {name : String} {items : List Value}

theorem holds_size (hname : (Value.document d).reach (steps name) = [.array items])
    {x : Value} {n : Int} (hx : x.asInt? = some n) :
    holds (.ofDocument d) (testOp name "$size" x) = decide (n = items.length) := by
  have hop : isOperator "$size" = true := rfl
  rw [Valuation.ofDocument, holds_testOp_ofFields hop (by decide)]
  simp [operatorHolds, Valuation.ofFields, hname, Value.hasSize, hx]

theorem holds_not_size (hname : (Value.document d).reach (steps name) = [.array items])
    {x : Value} {n : Int} (hx : x.asInt? = some n) :
    holds (.ofDocument d) (testOp name "$not" (.single "$size" x)) =
      !decide (n = items.length) := by
  have hop : isOperator "$not" = true := rfl
  have hsize : isOperator "$size" = true := rfl
  rw [testOp, Valuation.ofDocument, holds_test_ofFields (by simp [Value.single])]
  simp [Value.single, conditionHolds, isOperators, hop, hsize, operatorsHold, operatorHolds,
    Valuation.ofFields, hname, Value.hasSize, hx]

/-- An array has an item at each position that is less than its length. -/
theorem holds_position {t : Target} (hpath : t.path ≠ [])
    (hname : (Value.document d).reach (steps t.name) = [.array items])
    (h : ∀ d, Value.document d ∉ items) {i : Int} (hi : 0 ≤ i) (b : Bool) :
    holds (.ofDocument d) (testOp (t.child (toString i)) "$exists" (.bool b)) = true ↔
      (i < items.length ↔ b = true) := by
  have hop : isOperator "$exists" = true := rfl
  obtain ⟨k, rfl⟩ := Int.eq_ofNat_of_zero_le hi
  have hchild : t.child (toString (k : Int)) = t.name ++ "." ++ toString k := by
    rw [Target.child, if_neg (by simpa using hpath)]
    rfl
  rw [Valuation.ofDocument, holds_testOp_ofFields hop (by decide), hchild]
  simp only [operatorHolds, Valuation.ofFields, Value.reach_position hname h]
  by_cases hk : k < items.length <;> simp [hk]

/-- The filter for each operator, whatever the number. -/
theorem arrayLength_spec (t : Target) (hpath : t.path ≠ []) {op : BinaryOp}
    (hop : op.isComparison = true) {x : Value} {n : Int} (hx : x.asInt? = some n) :
    ∃ q, arrayLength t op n x = some q ∧
      ∀ d items, (Value.document d).reach (steps t.name) = [.array items] →
        (∀ d, Value.document d ∉ items) →
        (holds (.ofDocument d) q = true ↔ op.Relates items.length n) := by
  -- A bound that every length or none meets is decided beforehand; the others say which position
  -- has an item.
  cases op with
  | equal =>
    refine ⟨_, rfl, fun d items hname _ => ?_⟩
    split
    · simp only [holds_never, Bool.false_eq_true, false_iff, BinaryOp.Relates]
      omega
    · rw [holds_size hname hx, decide_eq_true_iff, BinaryOp.Relates]
      exact eq_comm
  | notEqual =>
    refine ⟨_, rfl, fun d items hname _ => ?_⟩
    split
    · simp only [always, holds, true_iff, BinaryOp.Relates]
      omega
    · simp only [holds_not_size hname hx, Bool.not_eq_true', decide_eq_false_iff_not,
        BinaryOp.Relates]
      exact ne_comm
  | greater =>
    refine ⟨_, rfl, fun d items hname h => ?_⟩
    split
    · simp only [always, holds, true_iff, BinaryOp.Relates]
      omega
    · simp only [holds_position hpath hname h (show 0 ≤ n by omega), iff_true, BinaryOp.Relates,
        gt_iff_lt]
  | greaterOrEqual =>
    refine ⟨_, rfl, fun d items hname h => ?_⟩
    split
    · simp only [always, holds, true_iff, BinaryOp.Relates]
      omega
    · simp only [holds_position hpath hname h (show 0 ≤ n - 1 by omega), iff_true,
        BinaryOp.Relates]
      omega
  | less =>
    refine ⟨_, rfl, fun d items hname h => ?_⟩
    split
    · simp only [holds_never, Bool.false_eq_true, false_iff, BinaryOp.Relates]
      omega
    · simp only [holds_position hpath hname h (show 0 ≤ n - 1 by omega), Bool.false_eq_true,
        iff_false, BinaryOp.Relates]
      omega
  | lessOrEqual =>
    refine ⟨_, rfl, fun d items hname h => ?_⟩
    split
    · simp only [holds_never, Bool.false_eq_true, false_iff, BinaryOp.Relates]
      omega
    · simp only [holds_position hpath hname h (show 0 ≤ n by omega), Bool.false_eq_true,
        iff_false, BinaryOp.Relates]
      omega
  | _ => simp [BinaryOp.isComparison] at hop

end Filter

/-! ## Filters -/

namespace Mapping

variable {m : Mapping} {left right e : Expr} {f : FieldPath} {p : Param} {op : BinaryOp}
  {l : Literal} {n : Int}

theorem firstAnswer_arrayLength (hf : m.schema.fieldPath? e = .ok (some f)) (hp : f.param = p.name)
    (harray : (m.schema.typeOf e).isArray = true) (hleft : left.lengthOf? = some e)
    (hn : l.asInt? = some n) {q : Document}
    (hq : arrayLength ⟨f.path, f.type, f.representation⟩ op n l.value = some q) :
    (Comparison.mk op left l).firstAnswer (.root p.name) m.comparisonRules = .ok (some q) := by
  have hrules : m.comparisonRules = [] ++ m.arrayLengthRule ::
      [m.moduloRule, m.orderingRule, m.indexOfRule, m.charAtRule, m.stringLengthRule,
        m.letterCaseRule, m.bitsRule] := rfl
  rw [hrules]
  refine Comparison.firstAnswer_of_rule (by simp) ?_
  unfold arrayLengthRule
  simp only [hleft, hn, harray, if_true, target_of_fieldPath? hf hp, ← hq]
  rfl

/-- **The length of a stored array.** It is spelled in any of the three ways and compared with a
constant, by any of the six operators and in either order of the sides. The filter accepts just the
documents in which the array has a length that compares with the number as it should. -/
theorem filter_arrayLength (hf : m.schema.fieldPath? e = .ok (some f)) (hp : f.param = p.name)
    (hpath : f.path ≠ []) (harray : (m.schema.typeOf e).isArray = true)
    (hleft : left.lengthOf? = some e) (hright : (Scope.root p.name).Constant right l)
    (hn : l.asInt? = some n) (hop : op.isComparison = true) :
    ∃ q,
      m.filter (.lambda [p] (.binary op left right)) = .ok q ∧
      m.filter (.lambda [p] (.binary op.flip right left)) = .ok q ∧
      ∀ d items, (Value.document d).reach (steps f.dotted) = [.array items] →
        (∀ d, Value.document d ∉ items) →
        (holds (.ofDocument d) q = true ↔ op.Relates items.length n) ∧
        (holds (.ofDocument d) q = true ↔ op.flip.Relates n items.length) := by
  obtain ⟨q, hq, hexact⟩ :=
    arrayLength_spec ⟨f.path, f.type, f.representation⟩ hpath hop hn
  obtain ⟨hfilter, hflipped⟩ := filter_of_answer hop (Expr.known?_of_lengthOf? hleft)
    (Scope.check_of_lengthOf? p.name hf hleft) hright
    (firstAnswer_arrayLength hf hp harray hleft hn hq)
  refine ⟨q, hfilter, hflipped, fun d items hname h => ?_⟩
  rw [BinaryOp.relates_flip, and_self]
  exact hexact d items hname h

/-- A document with some lines. -/
def withLines (lines : List String) : Document := [("lines", .array (lines.map .string))]

/-- At most two lines, their number counted and the bound negated: two lines are accepted and three
are not. -/
theorem filter_arrayLength_atMostTwo :
    (Scope.root "x").Constant (.negate (.literal ⟨.int64 (-2), .int64⟩)) ⟨.int64 2, .int64⟩ ∧
    ∃ q,
      linesMapping.filter (.lambda [⟨"x", .document "Root"⟩]
        (.binary .lessOrEqual
          (.call (.member (.param ⟨"x", .document "Root"⟩) "Lines") "Count" [])
          (.negate (.literal ⟨.int64 (-2), .int64⟩)))) = .ok q ∧
      linesMapping.filter (.lambda [⟨"x", .document "Root"⟩]
        (.binary .greaterOrEqual (.negate (.literal ⟨.int64 (-2), .int64⟩))
          (.call (.member (.param ⟨"x", .document "Root"⟩) "Lines") "Count" []))) = .ok q ∧
      holds (.ofDocument (withLines ["a", "b"])) q = true ∧
      holds (.ofDocument (withLines ["a", "b", "c"])) q = false := by
  have hright : (Scope.root "x").Constant (.negate (.literal ⟨.int64 (-2), .int64⟩))
      ⟨.int64 2, .int64⟩ := (Scope.constant_literal _ _).negate rfl
  have hleft : (Expr.call (.member (.param ⟨"x", .document "Root"⟩) "Lines") "Count" []).lengthOf? =
      some (.member (.param ⟨"x", .document "Root"⟩) "Lines") := rfl
  obtain ⟨q, hfilter, hflipped, hexact⟩ :=
    filter_arrayLength (m := linesMapping) (p := ⟨"x", .document "Root"⟩)
      (f := ⟨"x", ["lines"], .array .string, .natural, false⟩) (n := 2) rfl rfl (by simp) rfl hleft
      hright rfl (show BinaryOp.lessOrEqual.isComparison = true from rfl)
  have htwo := hexact (withLines ["a", "b"]) [.string "a", .string "b"] rfl (by simp)
  have hthree := hexact (withLines ["a", "b", "c"]) [.string "a", .string "b", .string "c"] rfl
    (by simp)
  refine ⟨hright, q, hfilter, hflipped, htwo.1.2 ?_, Bool.eq_false_iff.2 fun h => ?_⟩
  · simp [BinaryOp.Relates]
  · have hle := hthree.1.1 h
    simp [BinaryOp.Relates] at hle

end Mapping
end DocQuery
