/-
Every filter of a plain expression is valid (`isValid_filterOf`): logical
operators stand over lists of filters, the operators on a field are distinct,
and `$ne` has a value that equality would have when written alone. So the
algebra of filters applies to whatever is emitted.

This is so for each way to build a filter (`isValid_of_built`). A condition on
array items is an operand of `$elemMatch` and is not looked into.
-/
import DocQuery.Proofs.Filter.Built

namespace DocQuery

open DocQuery.Filter

namespace Filter

theorem isValid_never : isValid never = true := by decide

theorem isValid_ofBool (b : Bool) : isValid (ofBool b) = true := by
  cases b
  · exact isValid_never
  · rfl

theorem isValid_complement {d : Document} (h : isValid d = true) : isValid (complement d) = true :=
  (complement_spec (v := ⟨fun _ _ _ => true, fun _ _ => true⟩) h).2

theorem isValid_conj {clauses : List Document} (h : ∀ c ∈ clauses, isValid c = true) :
    isValid (conj clauses) = true :=
  (conj_spec (v := ⟨fun _ _ _ => true, fun _ _ => true⟩) h).2

theorem isValid_disj {clauses : List Document} (h : ∀ c ∈ clauses, isValid c = true) :
    isValid (disj clauses) = true :=
  (disj_spec (v := ⟨fun _ _ _ => true, fun _ _ => true⟩) h).2

/-- An operator with a plain operand is no `$not`, and has a value that `$ne` can have. -/
theorem isCondition_operation {op : String} {x : Value}
    (h : Operation (fun x => Filter.isPlain x = true) op x) : isCondition (.single op x) = true := by
  have hnot : op ≠ "$not" ∧ Filter.isPlain x = true := by
    cases h with
    | value ho hx =>
      refine ⟨?_, hx⟩
      rintro rfl
      exact absurd ho (by decide)
    | list ho hx =>
      refine ⟨?_, hx⟩
      rintro rfl
      exact absurd ho (by decide)
  simp [Value.single, isCondition, areConditions, Document.hasKey, Document.get?, hnot.1, hnot.2]

theorem isCondition_leaf {c : Value} (h : Leaf (fun x => Filter.isPlain x = true) c) :
    isCondition c = true := by
  cases h with
  | equal hx => exact isCondition_of_isPlain hx
  | regex pattern options => rfl
  | operation ho => exact isCondition_operation ho
  | refused ho =>
    rw [Value.single, isCondition, Bool.or_eq_true]
    exact .inr (by simp [areConditions, Document.hasKey, Document.get?, isCondition_operation ho])
  | nonEmpty => decide

/-- Every way to build a filter from valid ones gives a valid one. -/
theorem isValid_of_built {q : Expr → Bool} {d : Document}
    (h : Built q (fun x => Filter.isPlain x = true) d) : isValid d = true := by
  induction h with
  | always => rfl
  | test hn hc => rw [isValid_test hn, isCondition_leaf hc]
  | inject hd _ => exact hd
  | conj _ _ iha ihb => exact isValid_conj (by simp [iha, ihb])
  | disj _ _ iha ihb => exact isValid_disj (by simp [iha, ihb])
  | complement _ ih => exact isValid_complement ih
  | someItem hn _ _ _ =>
    rw [isValid_testOp hn rfl]
    simp
  | noItem hn _ _ _ =>
    rw [isValid_testOp hn rfl, if_pos rfl]
    simp [Value.single, isCondition, areConditions, Document.hasKey, Document.get?]

theorem isValid_comparison? {name : String} (hn : isOperator name = false) (op : BinaryOp)
    {x : Value} (hx : Filter.isPlain x = true) :
    ∀ d ∈ comparison? name op x, isValid d = true := by
  intro d hd
  exact isValid_of_built (q := fun _ => true) (built_comparison? hn op hx d hd)

end Filter

/-! ## Parts of plain expressions -/

/-- Every node of a plain expression passes the test that asks for nothing. -/
theorem Expr.passes_of_isPlain {schema : Schema} {e : Expr} (h : e.isPlain schema = true) :
    e.Passes schema (fun _ => true) :=
  ⟨h, every_of_forall (fun _ => rfl) e⟩

/-- Both sides of a comparison are plain. -/
structure Comparison.IsPlain (schema : Schema) (c : Comparison) : Prop where
  left : c.left.isPlain schema = true
  value : Filter.isPlain c.value.value = true

theorem Comparison.isPlain_of? {schema : Schema} {op : BinaryOp} {left right : Expr}
    {c : Comparison} (h : Comparison.of? op left right = some c)
    (hl : left.isPlain schema = true) (hr : right.isPlain schema = true) : c.IsPlain schema := by
  unfold Comparison.of? at h
  split at h
  · rename_i l hk _
    cases h
    exact ⟨hr, Expr.isPlain_known? hl hk⟩
  · rename_i r hk
    cases h
    exact ⟨hl, Expr.isPlain_known? hr hk⟩
  · cases h

theorem Expr.isPlain_of_lengthOf? {schema : Schema} {e source : Expr}
    (h : e.isPlain schema = true) (hs : e.lengthOf? = some source) :
    source.isPlain schema = true :=
  ((passes_of_isPlain h).lengthOf? hs).plain

theorem Expr.isPlain_of_stringLengthOf? {schema : Schema} {e source : Expr}
    (h : e.isPlain schema = true) (hs : e.stringLengthOf? = some source) :
    source.isPlain schema = true :=
  ((passes_of_isPlain h).stringLengthOf? hs).plain

namespace Mapping

variable {m : Mapping}

theorem isPlain_unwrap {schema : Schema} (node : Expr) {e : Expr} (sm : StringMatch)
    (he : e.isPlain schema = true) (hsm : sm.receiver.isPlain schema = true) :
    Post (fun r => r.receiver.isPlain schema = true) (fun _ => True) (sm.unwrap node e) :=
  ((Expr.passes_of_isPlain he).unwrap node sm (Expr.passes_of_isPlain hsm)).imp fun _ hr => hr.plain

theorem isPlain_of_oneKnown? {schema : Schema} {a b source : Expr} {l : Literal}
    (ha : a.isPlain schema = true) (hb : b.isPlain schema = true)
    (h : oneKnown? a b = some (source, l)) : source.isPlain schema = true :=
  (Expr.Passes.oneKnown? (Expr.passes_of_isPlain ha) (Expr.passes_of_isPlain hb) h).plain

theorem isPlain_of_isScalar {x : Value} (h : x.isScalar = true) : Filter.isPlain x = true := by
  cases x <;> first | rfl | cases h

theorem isPlain_discriminator (schema : Schema) (nominal actual : String) :
    Post (fun o => ∀ x ∈ o, Filter.isPlain x = true) (fun _ => True)
      (schema.discriminator nominal actual) :=
  (scalar_discriminator schema nominal actual).imp fun _ ho x hx => isPlain_of_isScalar (ho x hx)

/-! ## Filters -/

/-- A plain mapping keeps values plain. -/
theorem IsPlain.keeps (hm : m.IsPlain) :
    m.Keeps (fun _ => true) (fun x => Filter.isPlain x = true) where
  toIsPlain := hm
  scalar _ hx := isPlain_of_isScalar hx
  scalars _ _ := rfl
  known he hl := Expr.isPlain_known? he.plain hl
  stored t _ hl := plain_encodeFor hm t hl
  listed node t l _ := (Post.of_total (m.encodeItemsFor node t l)).imp fun _ _ => rfl
  receiver _ _ := rfl

/-- **Every filter of a plain expression is valid.** -/
theorem isValid_filterOf (hm : m.IsPlain) (e : Expr) {s : Scope} (hs : s.IsPlain)
    (h : e.isPlain m.schema = true) :
    Post (fun d => isValid d = true) (fun _ => True) (m.filterOf e s) :=
  (built_filterOf hm.keeps e hs (Expr.passes_of_isPlain h)).imp fun _ hd => isValid_of_built hd

end Mapping
end DocQuery
