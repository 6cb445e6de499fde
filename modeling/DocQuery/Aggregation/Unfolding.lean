/-
The aggregation expression of an expression in terms of those of its parts.

`operandNode` asks only for aggregation expressions of smaller expressions
(`operandNode_congr`), so the limit on the size never matters
(`operandWithin_eq`), and `operandOf` satisfies its defining equation without
one (`operandOf_eq`).
-/
import DocQuery.Aggregation.Expression
import DocQuery.Expr.Size

namespace DocQuery.Mapping

variable {m : Mapping} {f g : Expr → Scope → Result Value} {n : Nat}

theorem mapM_congr {α β : Type} {xs : List α} {p q : α → Result β} (h : ∀ x ∈ xs, p x = q x) :
    xs.mapM p = xs.mapM q := by
  induction xs with
  | nil => rfl
  | cons x rest ih =>
    simp only [List.mapM_cons]
    rw [h x (by simp), ih fun y hy => h y (by simp [hy])]

theorem compared_congr (h : ∀ e s, e.size < n → f e s = g e s) {side other : Expr} {s : Scope}
    (hs : side.size < n) : m.compared f side other s = m.compared g side other s := by
  unfold compared
  rw [h side s hs]

theorem comparedPair_congr (h : ∀ e s, e.size < n → f e s = g e s) {a b : Expr} {s : Scope}
    (ha : a.size < n) (hb : b.size < n) : m.comparedPair f a b s = m.comparedPair g a b s := by
  unfold comparedPair
  rw [compared_congr h ha, compared_congr h hb]

theorem datePart_congr (h : ∀ e s, e.size < n → f e s = g e s) {node date : Expr} {name : String}
    {s : Scope} (hd : date.size < n) :
    datePart f node date name s = datePart g node date name s := by
  unfold datePart
  rw [h date s hd]

theorem storedMember_congr (h : ∀ e s, e.size < n → f e s = g e s) {node target : Expr}
    {name : String} {s : Scope} (ht : target.size < n) :
    m.storedMember f node target name s = m.storedMember g node target name s := by
  unfold storedMember
  simp only [h target s ht]

theorem memberOperand_congr (h : ∀ e s, e.size < n → f e s = g e s) {node target : Expr}
    {name : String} {s : Scope} (ht : target.size < n) :
    m.memberOperand f node target name s = m.memberOperand g node target name s := by
  unfold memberOperand
  simp only [h target s ht, datePart_congr h ht, storedMember_congr h ht]

theorem itemAt_congr (h : ∀ e s, e.size < n → f e s = g e s) {node target position : Expr}
    {s : Scope} (ht : target.size < n) (hp : position.size < n) :
    m.itemAt f node target position s = m.itemAt g node target position s := by
  unfold itemAt
  rw [h target s ht, h position s hp]

theorem indexOfCall_congr (h : ∀ e s, e.size < n → f e s = g e s) {node : Expr} {text : Value}
    {args : List Expr} {s : Scope} (ha : ∀ a ∈ args, a.size < n) :
    m.indexOfCall f node text args s = m.indexOfCall g node text args s := by
  unfold indexOfCall
  split
  · rw [h _ s (ha _ (by simp))]
  · next value start => rw [h value s (ha _ (by simp)), h start s (ha _ (by simp))]
  · next value start count =>
    rw [h value s (ha _ (by simp)), h start s (ha _ (by simp)), h count s (ha _ (by simp))]
  · rfl

theorem substringCall_congr (h : ∀ e s, e.size < n → f e s = g e s) {node : Expr} {text : Value}
    {args : List Expr} {s : Scope} (ha : ∀ a ∈ args, a.size < n) :
    m.substringCall f node text args s = m.substringCall g node text args s := by
  unfold substringCall
  split
  · rw [h _ s (ha _ (by simp))]
  · next start length => rw [h start s (ha _ (by simp)), h length s (ha _ (by simp))]
  · rfl

theorem foundCall_congr (h : ∀ e s, e.size < n → f e s = g e s) {test : String} {text : Value}
    {value : Expr} {s : Scope} (hv : value.size < n) :
    m.foundCall f test text value s = m.foundCall g test text value s := by
  unfold foundCall
  rw [h value s hv]

theorem stringCall_congr (h : ∀ e s, e.size < n → f e s = g e s) {node target : Expr}
    {method : String} {args : List Expr} {s : Scope} (ht : target.size < n)
    (ha : ∀ a ∈ args, a.size < n) :
    m.stringCall f node target method args s = m.stringCall g node target method args s := by
  unfold stringCall
  rw [h target s ht]
  congr 1
  funext text
  split
  · rfl
  · rfl
  · split
    · rw [substringCall_congr h ha]
    · rw [indexOfCall_congr h ha]
    · rw [foundCall_congr h (ha _ (by simp))]
    · rw [foundCall_congr h (ha _ (by simp))]
    · rfl
    · rfl

theorem stringEqualsCall_congr (h : ∀ e s, e.size < n → f e s = g e s)
    {node a b comparison : Expr} {s : Scope} (ha : a.size < n) (hb : b.size < n) :
    m.stringEqualsCall f node a b comparison s = m.stringEqualsCall g node a b comparison s := by
  unfold stringEqualsCall
  rw [comparedPair_congr h ha hb]

theorem dateCall_congr (h : ∀ e s, e.size < n → f e s = g e s) {node target : Expr}
    {method : String} {args : List Expr} {s : Scope} (ht : target.size < n)
    (ha : ∀ a ∈ args, a.size < n) :
    dateCall f node target method args s = dateCall g node target method args s := by
  unfold dateCall
  split
  · next arg => rw [h target s ht, h arg s (ha _ (by simp))]
  · rfl

theorem lambdaBody_congr (h : ∀ e s, e.size < n → f e s = g e s) {node lambda : Expr} {s : Scope}
    (hl : lambda.size < n) : lambdaBody f node lambda s = lambdaBody g node lambda s := by
  unfold lambdaBody
  split
  · rfl
  · next param body he =>
    rw [h body _ (Nat.lt_trans (Expr.size_lt_of_asUnaryLambda? he) hl)]

theorem mapItems_congr (h : ∀ e s, e.size < n → f e s = g e s) {node selector : Expr}
    {input : Value} {s : Scope} (hs : selector.size < n) :
    mapItems f node input selector s = mapItems g node input selector s := by
  unfold mapItems
  rw [lambdaBody_congr h hs]

theorem filterItems_congr (h : ∀ e s, e.size < n → f e s = g e s) {node predicate : Expr}
    {input : Value} {s : Scope} (hp : predicate.size < n) :
    filterItems f node input predicate s = filterItems g node input predicate s := by
  unfold filterItems
  rw [lambdaBody_congr h hp]

theorem foldSeed_congr (h : ∀ e s, e.size < n → f e s = g e s) {source : Expr}
    {seed : Option Expr} {s : Scope} (hseed : ∀ e, seed = some e → e.size < n) :
    m.foldSeed f source seed s = m.foldSeed g source seed s := by
  cases seed with
  | none => rfl
  | some seed => exact h seed s (hseed seed rfl)

theorem foldResult_congr (h : ∀ e s, e.size < n → f e s = g e s) {node : Expr} {reduced : Value}
    {result : Option Expr} {s : Scope} (hresult : ∀ e, result = some e → e.size < n) :
    foldResult f node reduced result s = foldResult g node reduced result s := by
  cases result with
  | none => rfl
  | some result => simp only [foldResult, lambdaBody_congr h (hresult result rfl)]

theorem foldItems_congr (h : ∀ e s, e.size < n → f e s = g e s) {node source step : Expr}
    {array : Value} {seed result : Option Expr} {s : Scope} (hs : step.size < n)
    (hseed : ∀ e, seed = some e → e.size < n) (hresult : ∀ e, result = some e → e.size < n) :
    m.foldItems f node source array seed step result s =
      m.foldItems g node source array seed step result s := by
  unfold foldItems
  split
  · next accumulator item body he =>
    have hb : body.size < n := Nat.lt_trans (Expr.size_lt_of_asLambda? he) hs
    simp only [foldSeed_congr h hseed, h body _ hb, foldResult_congr h hresult]
  · rfl

theorem zipItems_congr (h : ∀ e s, e.size < n → f e s = g e s) {node second selector : Expr}
    {first : Value} {s : Scope} (h₂ : second.size < n) (hs : selector.size < n) :
    zipItems f node first second selector s = zipItems g node first second selector s := by
  unfold zipItems
  split
  · next left right body he =>
    have hb : body.size < n := Nat.lt_trans (Expr.size_lt_of_asLambda? he) hs
    simp only [h body _ hb, h second s h₂]
  · rfl

theorem size_lt_of_skipped? {e source count : Expr} (h : skipped? e = some (source, count)) :
    source.size < e.size ∧ count.size < e.size := by
  have := e.size_strip_le
  unfold skipped? at h
  split at h
  · next hs =>
    cases h
    rw [hs] at this
    simp only [Expr.size, Expr.sizes] at this
    constructor <;> omega
  · cases h

theorem reducedValues_congr (h : ∀ e s, e.size < n → f e s = g e s) {node target : Expr}
    {args : List Expr} {s : Scope} (ht : target.size < n) (ha : ∀ a ∈ args, a.size < n) :
    m.reducedValues f node target args s = m.reducedValues g node target args s := by
  unfold reducedValues
  split
  · exact h target s ht
  · next selector =>
    simp only [h target s ht, mapItems_congr h (ha selector (by simp))]
  · rfl

theorem arrayCallOneArg_congr (h : ∀ e s, e.size < n → f e s = g e s) {node target arg : Expr}
    {method : String} {array : Value} {s : Scope} (ha : arg.size < n) :
    m.arrayCallOneArg f node target method array arg s =
      m.arrayCallOneArg g node target method array arg s := by
  unfold arrayCallOneArg
  rw [h arg s ha, filterItems_congr h ha, mapItems_congr h ha,
    foldItems_congr h ha (fun e he => by cases he) (fun e he => by cases he)]

theorem arrayCall_congr (h : ∀ e s, e.size < n → f e s = g e s) {node target : Expr}
    {method : String} {args : List Expr} {s : Scope} (ht : target.size < n)
    (ha : ∀ a ∈ args, a.size < n) :
    m.arrayCall f node target method args s = m.arrayCall g node target method args s := by
  unfold arrayCall
  split
  · rw [reducedValues_congr h ht ha]
  · split
    · rw [h target s ht]
    · next arg =>
      have harg : arg.size < n := ha _ (by simp)
      cases hs : (if method = "Take" then skipped? target else none) with
      | none => simp only [h target s ht, arrayCallOneArg_congr h harg]
      | some pair =>
        have hk : skipped? target = some pair := by
          split at hs
          · exact hs
          · cases hs
        have := size_lt_of_skipped? hk
        simp only [h pair.1 s (by omega), h pair.2 s (by omega), h arg s harg]
    · next a b =>
      have h₁ : a.size < n := ha _ (by simp)
      have h₂ : b.size < n := ha _ (by simp)
      have hfold (array : Value) : m.foldItems f node target array (some a) b none s =
          m.foldItems g node target array (some a) b none s :=
        foldItems_congr h h₂ (fun e he => by cases he; exact h₁) (fun e he => by cases he)
      simp only [h target s ht, zipItems_congr h h₁ h₂, hfold]
    · next a b c =>
      have h₁ : a.size < n := ha _ (by simp)
      have h₂ : b.size < n := ha _ (by simp)
      have h₃ : c.size < n := ha _ (by simp)
      have hfold (array : Value) : m.foldItems f node target array (some a) b (some c) s =
          m.foldItems g node target array (some a) b (some c) s :=
        foldItems_congr h h₂ (fun e he => by cases he; exact h₁) (fun e he => by cases he; exact h₃)
      simp only [h target s ht, hfold]
    · rw [h target s ht]

theorem callOperand_congr (h : ∀ e s, e.size < n → f e s = g e s) {node target : Expr}
    {method : String} {args : List Expr} {s : Scope} (ht : target.size < n)
    (ha : ∀ a ∈ args, a.size < n) :
    m.callOperand f node target method args s = m.callOperand g node target method args s := by
  unfold callOperand
  split
  · next other => rw [h target s ht, h other s (ha _ (by simp))]
  · next other => rw [comparedPair_congr h ht (ha _ (by simp))]
  · next other comparison => exact stringEqualsCall_congr h ht (ha _ (by simp))
  · split
    · split
      · rw [h _ s (ha _ (by simp))]
      · rfl
    · split
      · exact stringCall_congr h ht ha
      · exact dateCall_congr h ht ha
      · exact arrayCall_congr h ht ha
      · rfl

theorem mathCall_congr (h : ∀ e s, e.size < n → f e s = g e s) {node : Expr} {method : String}
    {args : List Expr} {s : Scope} (ha : ∀ a ∈ args, a.size < n) :
    mathCall f node method args s = mathCall g node method args s := by
  unfold mathCall
  split
  · next value => rw [h value s (ha _ (by simp))]
  · next value second => rw [h value s (ha _ (by simp)), h second s (ha _ (by simp))]
  · rfl

theorem staticCallOperand_congr (h : ∀ e s, e.size < n → f e s = g e s) {node : Expr}
    {owner method : String} {args : List Expr} {s : Scope} (ha : ∀ a ∈ args, a.size < n) :
    m.staticCallOperand f node owner method args s =
      m.staticCallOperand g node owner method args s := by
  unfold staticCallOperand
  split
  · exact mathCall_congr h ha
  · next start count => rw [h start s (ha _ (by simp)), h count s (ha _ (by simp))]
  · next text => rw [h text s (ha _ (by simp))]
  · rw [mapM_congr fun e he => h e s (ha e he)]
  · rw [comparedPair_congr h (ha _ (by simp)) (ha _ (by simp))]
  · rw [comparedPair_congr h (ha _ (by simp)) (ha _ (by simp))]
  · exact stringEqualsCall_congr h (ha _ (by simp)) (ha _ (by simp))
  · rfl

theorem binaryOperand_congr (h : ∀ e s, e.size < n → f e s = g e s) {node left right : Expr}
    {op : BinaryOp} {s : Scope} (hl : left.size < n) (hr : right.size < n) :
    m.binaryOperand f node op left right s = m.binaryOperand g node op left right s := by
  unfold binaryOperand
  simp only [h left s hl, h right s hr, comparedPair_congr h hl hr]

theorem objectMembers_congr (h : ∀ e s, e.size < n → f e s = g e s) {typeName : Option String}
    {members : List (String × Expr)} {s : Scope} (hm : ∀ p ∈ members, p.2.size < n) :
    m.objectMembers f typeName members s = m.objectMembers g typeName members s := by
  unfold objectMembers
  refine mapM_congr fun p hp => ?_
  simp only [h p.2 s (hm p hp)]

theorem computedOperand_congr {node : Expr} {s : Scope}
    (h : ∀ e s, e.size < node.size → f e s = g e s) :
    m.computedOperand f node s = m.computedOperand g node s := by
  cases node with
  | quote inner => exact h inner s (by simp [Expr.size])
  | convert operand type => exact h operand s (by simp [Expr.size])
  | member target name => exact memberOperand_congr h (by simp [Expr.size])
  | index target position =>
    exact itemAt_congr h (by simp only [Expr.size]; omega) (by simp only [Expr.size]; omega)
  | call target method args =>
    refine callOperand_congr h (by simp only [Expr.size]; omega) fun a ha => ?_
    have := Expr.size_le_sizes ha
    simp only [Expr.size]; omega
  | staticCall owner method args =>
    simp only [computedOperand]
    cases hc : (Expr.staticCall owner method args).receiverForm? with
    | some call => exact h call s (Expr.size_lt_of_receiverForm? hc)
    | none =>
      refine staticCallOperand_congr h fun a ha => ?_
      have := Expr.size_le_sizes ha
      simp only [Expr.size]; omega
  | not operand => simp only [computedOperand, h operand s (by simp [Expr.size])]
  | negate operand => simp only [computedOperand, h operand s (by simp [Expr.size])]
  | binary op left right =>
    exact binaryOperand_congr h (by simp only [Expr.size]; omega) (by simp only [Expr.size]; omega)
  | conditional test ifTrue ifFalse =>
    simp only [computedOperand, h test s (by simp only [Expr.size]; omega),
      h ifTrue s (by simp only [Expr.size]; omega), h ifFalse s (by simp only [Expr.size]; omega)]
  | object typeName members =>
    simp only [computedOperand]
    rw [objectMembers_congr h fun p hp => ?_]
    have := Expr.size_le_memberSizes hp
    simp only [Expr.size]; omega
  | collection kind source items =>
    cases source with
    | some source => simp only [computedOperand, h source s (by simp only [Expr.size]; omega)]
    | none =>
      simp only [computedOperand]
      rw [mapM_congr fun e he => h e s ?_]
      have := Expr.size_le_sizes he
      simp only [Expr.size]; omega
  | _ => rfl

/-- The aggregation expression of an expression depends on those of smaller expressions only. -/
theorem operandNode_congr {node : Expr} {s : Scope}
    (h : ∀ e s, e.size < node.size → f e s = g e s) :
    m.operandNode f node s = m.operandNode g node s := by
  unfold operandNode
  rw [computedOperand_congr h]

/-- A limit that an expression keeps does not change its aggregation expression. -/
theorem operandWithin_eq (m : Mapping) {n k : Nat} {e : Expr} {s : Scope} (hn : e.size ≤ n)
    (hk : e.size ≤ k) : m.operandWithin n e s = m.operandWithin k e s := by
  induction n generalizing k e s with
  | zero => have := e.size_pos; omega
  | succ n ih =>
    cases k with
    | zero => have := e.size_pos; omega
    | succ k => exact operandNode_congr fun e' s' he => ih (by omega) (by omega)

/-- The aggregation expression of an expression, from those of its parts. -/
theorem operandOf_eq (m : Mapping) (e : Expr) (s : Scope) :
    m.operandOf e s = m.operandNode m.operandOf e s := by
  rw [operandOf, operandWithin_eq m (Nat.le_refl _) (Nat.le_succ _)]
  exact operandNode_congr fun e' s' he => operandWithin_eq m (by omega) (Nat.le_refl _)

end DocQuery.Mapping
