/-
The filter of an expression in terms of the filters of its parts.

`filterNode` asks only for filters of smaller expressions (`filterNode_congr`),
so the limit on the size never matters (`filterWithin_eq`), and `filterOf`
satisfies its defining equation without one (`filterOf_eq`).
-/
import DocQuery.Expr.Size
import DocQuery.Filter.Predicate

namespace DocQuery

theorem Comparison.size_left_lt {op : BinaryOp} {left right : Expr} {c : Comparison} {n : Nat}
    (h : Comparison.of? op left right = some c) (hl : left.size < n) (hr : right.size < n) :
    c.left.size < n := by
  unfold Comparison.of? at h
  split at h <;> cases h <;> assumption

namespace Mapping

variable {m : Mapping} {f g : Expr → Scope → Result Document} {n : Nat}

theorem comparison_congr (h : ∀ e s, e.size < n → f e s = g e s) {node left right : Expr}
    {op : BinaryOp} {s : Scope} (hl : left.size < n) (hr : right.size < n) :
    m.comparison f node op left right s = m.comparison g node op left right s := by
  unfold comparison
  cases hc : Comparison.of? op left right with
  | none => rfl
  | some c => simp only [h c.left s (Comparison.size_left_lt hc hl hr)]

theorem stringEquality_congr (h : ∀ e s, e.size < n → f e s = g e s) {node a b comparison : Expr}
    {s : Scope} (ha : a.size < n) (hb : b.size < n) :
    m.stringEquality f node a b comparison s = m.stringEquality g node a b comparison s := by
  unfold stringEquality
  rw [comparison_congr h ha hb]

theorem negation_congr (h : ∀ e s, e.size < n → f e s = g e s) {node operand : Expr} {s : Scope}
    (ho : operand.size < n) : m.negation f node operand s = m.negation g node operand s := by
  unfold negation
  split
  · next inner hs =>
    have := operand.size_strip_le
    rw [hs] at this
    simp only [Expr.size] at this
    exact h inner s (by omega)
  · rw [h operand s ho]

theorem collapsed?_congr (h : ∀ e s, e.size < n → f e s = g e s) {stored : Target} {param : Param}
    {body : Expr} {s : Scope} (hb : body.size < n) :
    collapsed? f stored param body s = collapsed? g stored param body s := by
  unfold collapsed?
  simp only [h body _ hb]

theorem itemFilter_congr (h : ∀ e s, e.size < n → f e s = g e s) {param : Param} {body : Expr}
    {s : Scope} (hb : body.size < n) : itemFilter f param body s = itemFilter g param body s :=
  h body _ hb

theorem anyStored_congr (h : ∀ e s, e.size < n → f e s = g e s) {node array body : Expr}
    {selection : Option Document} {param : Param} {s : Scope} (hb : body.size < n) :
    m.anyStored f node array selection param body s =
      m.anyStored g node array selection param body s := by
  unfold anyStored
  simp only [collapsed?_congr h hb, itemFilter_congr h hb]

theorem anyItem_congr (h : ∀ e s, e.size < n → f e s = g e s) {node source predicate : Expr}
    {s : Scope} (hp : predicate.size < n) :
    m.anyItem f node source predicate s = m.anyItem g node source predicate s := by
  unfold anyItem
  cases hl : predicate.asUnaryLambda? with
  | none => rfl
  | some lambda =>
    obtain ⟨param, body⟩ := lambda
    have hb : body.size < n := Nat.lt_trans (Expr.size_lt_of_asUnaryLambda? hl) hp
    simp only [anyStored_congr h hb]

theorem allItems_congr (h : ∀ e s, e.size < n → f e s = g e s) {node source predicate : Expr}
    {s : Scope} (hp : predicate.size < n) :
    m.allItems f node source predicate s = m.allItems g node source predicate s := by
  unfold allItems
  cases hl : predicate.asUnaryLambda? with
  | none => rfl
  | some lambda =>
    obtain ⟨param, body⟩ := lambda
    have hb : body.size < n := Nat.lt_trans (Expr.size_lt_of_asUnaryLambda? hl) hp
    simp only [itemFilter_congr h hb]

theorem callFilter_congr (h : ∀ e s, e.size < n → f e s = g e s) {node target : Expr}
    {method : String} {args : List Expr} {s : Scope} (ht : target.size < n)
    (ha : ∀ a ∈ args, a.size < n) :
    m.callFilter f node target method args s = m.callFilter g node target method args s := by
  unfold callFilter
  split
  · rfl
  · next arg =>
    have hs : arg.size < n := ha arg (by simp)
    rw [anyItem_congr h hs, allItems_congr h hs, comparison_congr h ht hs]
  · next other comparison =>
    rw [stringEquality_congr h ht (ha other (by simp))]
  · rfl

theorem staticCallFilter_congr (h : ∀ e s, e.size < n → f e s = g e s) {node : Expr}
    {owner method : String} {args : List Expr} {s : Scope} (ha : ∀ a ∈ args, a.size < n) :
    m.staticCallFilter f node owner method args s =
      m.staticCallFilter g node owner method args s := by
  unfold staticCallFilter
  split
  · rfl
  · rfl
  · rfl
  · exact comparison_congr h (ha _ (by simp)) (ha _ (by simp))
  · exact comparison_congr h (ha _ (by simp)) (ha _ (by simp))
  · exact stringEquality_congr h (ha _ (by simp)) (ha _ (by simp))
  · rfl

/-- The filter of an expression depends on the filters of smaller expressions only. -/
theorem filterNode_congr {node : Expr} {s : Scope}
    (h : ∀ e s, e.size < node.size → f e s = g e s) :
    m.filterNode f node s = m.filterNode g node s := by
  cases node with
  | quote inner => exact h inner s (by simp [Expr.size])
  | convert operand type => exact h operand s (by simp [Expr.size])
  | not operand => exact negation_congr h (by simp [Expr.size])
  | binary op left right =>
    have hl : left.size < (Expr.binary op left right).size := by simp only [Expr.size]; omega
    have hr : right.size < (Expr.binary op left right).size := by simp only [Expr.size]; omega
    simp only [filterNode, h left s hl, h right s hr, comparison_congr h hl hr]
  | call target method args =>
    refine callFilter_congr h (by simp only [Expr.size]; omega) fun a ha => ?_
    have := Expr.size_le_sizes ha
    simp only [Expr.size]; omega
  | staticCall owner method args =>
    simp only [filterNode]
    cases hc : (Expr.staticCall owner method args).receiverForm? with
    | some call => exact h call s (Expr.size_lt_of_receiverForm? hc)
    | none =>
      refine staticCallFilter_congr h fun a ha => ?_
      have := Expr.size_le_sizes ha
      simp only [Expr.size]; omega
  | _ => rfl

/-- A limit that an expression keeps does not change its filter. -/
theorem filterWithin_eq (m : Mapping) {n k : Nat} {e : Expr} {s : Scope} (hn : e.size ≤ n)
    (hk : e.size ≤ k) : m.filterWithin n e s = m.filterWithin k e s := by
  induction n generalizing k e s with
  | zero => have := e.size_pos; omega
  | succ n ih =>
    cases k with
    | zero => have := e.size_pos; omega
    | succ k =>
      exact filterNode_congr fun e' s' he => ih (by omega) (by omega)

/-- The filter of an expression, from the filters of its parts. -/
theorem filterOf_eq (m : Mapping) (e : Expr) (s : Scope) :
    m.filterOf e s = m.filterNode m.filterOf e s := by
  rw [filterOf, filterWithin_eq m (Nat.le_refl _) (Nat.le_succ _)]
  exact filterNode_congr fun e' s' he => filterWithin_eq m (by omega) (Nat.le_refl _)

end Mapping
end DocQuery
