/-
Aggregation expressions raise no illegal scope reference where every parameter
is bound by the innermost frame (`legal_operandOf`).

The lemmas about single functions ask for the parts that a function reads, each
in the scope that it is read in. An argument may be read as a value or, if it is
a lambda over stored items, by its body (`ArgLegal`).
-/
import DocQuery.Aggregation.Unfolding
import DocQuery.Proofs.Scope.Reference

namespace DocQuery.Mapping

open Aggregation

variable {m : Mapping} {s : Scope} {fs : Frames} {sub : Expr → Scope → Result Value} {n : Nat}
  {target arg : Expr} {method : String} {args : List Expr}

theorem legal_compared {side other : Expr} (hs : Legal (sub side s)) (ho : other.Readable fs) :
    Legal (m.compared sub side other s) := by
  unfold compared
  split
  · exact legal_comparedConstant _ ho
  · exact hs

theorem legal_comparedPair {a b : Expr} (ha : Legal (sub a s)) (hb : Legal (sub b s))
    (hra : a.Readable fs) (hrb : b.Readable fs) : Legal (m.comparedPair sub a b s) :=
  Legal.bind (legal_compared ha hrb) fun _ =>
    Legal.bind (legal_compared hb hra) fun _ => trivial

/-! ## Members -/

theorem legal_datePart (node : Expr) (name : String) {date : Expr} (hd : Legal (sub date s)) :
    Legal (datePart sub node date name s) := by
  unfold datePart
  split
  · exact legal_unsupported node
  · exact Legal.bind hd fun _ => trivial

theorem legal_endMember? (hs : s.Models fs) (ht : target.Readable fs) (element : String) :
    Legal (m.endMember? target element s) := by
  unfold endMember?
  split
  · rename_i source method he
    split
    · trivial
    · refine Legal.bind (legal_reference? hs (ht.owns_strip he rfl).callTarget) fun o => ?_
      split <;> trivial
  · trivial

theorem legal_storedMember (hs : s.Models fs) (node : Expr) (name : String)
    (ht : Legal (sub target s)) (hr : target.Readable fs) :
    Legal (m.storedMember sub node target name s) := by
  refine Legal.bind (m.schema.legal_storedMember? _ name) fun o => ?_
  cases o with
  | none => exact legal_unsupported node
  | some stored =>
    refine Legal.bind (legal_endMember? hs hr stored.element) fun v => ?_
    cases v with
    | some v => trivial
    | none => exact Legal.bind ht fun _ => trivial

theorem legal_memberOperand (hs : s.Models fs) (node : Expr) (name : String)
    (ht : Legal (sub target s)) (hr : target.Readable fs) :
    Legal (m.memberOperand sub node target name s) := by
  have hstored := legal_storedMember (m := m) hs node name ht hr
  unfold memberOperand
  dsimp only
  split
  · exact ht
  · split
    · exact Legal.bind ht fun _ => trivial
    · split
      · exact legal_datePart node name ht
      · split
        · exact ht.map _
        · exact hstored
      · split
        · exact ht.map _
        · exact hstored
      · exact hstored

theorem legal_itemAt (node : Expr) {position : Expr} (ht : Legal (sub target s))
    (hp : Legal (sub position s)) : Legal (m.itemAt sub node target position s) := by
  unfold itemAt
  split
  · exact Legal.bind ht fun _ => Legal.bind hp fun _ => trivial
  · exact legal_unsupported node

/-! ## Strings and dates -/

theorem legal_trimCall (node : Expr) (side : TrimSide) (text : Value) (args : List Expr) :
    Legal (trimCall node side text args) := by
  unfold trimCall
  split
  · trivial
  · split
    · trivial
    · exact legal_unsupported node
  · exact legal_unsupported node

theorem legal_indexOfCall (node : Expr) (text : Value) (ha : ∀ a ∈ args, Legal (sub a s)) :
    Legal (m.indexOfCall sub node text args s) := by
  unfold indexOfCall
  split
  · exact Legal.bind (ha _ (by simp)) fun _ => trivial
  · exact Legal.bind (ha _ (by simp)) fun _ => Legal.bind (ha _ (by simp)) fun _ => trivial
  · refine Legal.bind (ha _ (by simp)) fun _ => Legal.bind (ha _ (by simp)) fun _ => ?_
    exact Legal.bind (ha _ (by simp)) fun _ => trivial
  · exact legal_unsupported node

theorem legal_substringCall (node : Expr) (text : Value) (ha : ∀ a ∈ args, Legal (sub a s)) :
    Legal (m.substringCall sub node text args s) := by
  unfold substringCall
  split
  · exact Legal.bind (ha _ (by simp)) fun _ => trivial
  · exact Legal.bind (ha _ (by simp)) fun _ => Legal.bind (ha _ (by simp)) fun _ => trivial
  · exact legal_unsupported node

theorem legal_stringCall (node : Expr) (ht : Legal (sub target s))
    (ha : ∀ a ∈ args, Legal (sub a s)) : Legal (m.stringCall sub node target method args s) := by
  refine Legal.bind ht fun text => ?_
  split
  · split
    · trivial
    · exact legal_unsupported node
  · exact legal_trimCall node _ text args
  · split
    · exact legal_substringCall node text ha
    · exact legal_indexOfCall node text ha
    · exact Legal.bind (ha _ (by simp)) fun _ => trivial
    · exact Legal.bind (ha _ (by simp)) fun _ => trivial
    · split
      · trivial
      · exact legal_unsupported node
    · exact legal_unsupported node

theorem legal_stringEqualsCall (node comparison : Expr) {a b : Expr} (ha : Legal (sub a s))
    (hb : Legal (sub b s)) (hra : a.Readable fs) (hrb : b.Readable fs) :
    Legal (m.stringEqualsCall sub node a b comparison s) := by
  have hpair : Legal (m.comparedPair sub a b s) := legal_comparedPair ha hb hra hrb
  unfold stringEqualsCall
  split
  · exact legal_unsupported node
  · exact hpair.map _
  · exact Legal.bind hpair fun _ => trivial

theorem legal_dateCall (node : Expr) (ht : Legal (sub target s))
    (ha : ∀ a ∈ args, Legal (sub a s)) : Legal (dateCall sub node target method args s) := by
  unfold dateCall
  split
  · split
    · refine Legal.bind ht fun date => ?_
      split
      · trivial
      · exact Legal.bind (ha _ (by simp)) fun _ => trivial
    · split
      · exact Legal.bind (ha _ (by simp)) fun _ => Legal.bind ht fun _ => trivial
      · exact legal_unsupported node
  · exact legal_unsupported node

/-! ## Arrays -/

/-- An argument raises no illegal scope reference when it is read as a value, nor does its body
where its parameters are bound. -/
structure ArgLegal (sub : Expr → Scope → Result Value) (s : Scope) (arg : Expr) : Prop where
  value : Legal (sub arg s)
  body : ∀ {params body}, arg.asLambda? = some (params, body) → ∀ f : Frame,
    (∀ name, (f.binding? name).isSome = true ↔ name ∈ params.map Param.name) →
    Legal (sub body (s.push f))

theorem legal_lambdaBody (node : Expr) (ha : ArgLegal sub s arg) :
    Legal (lambdaBody sub node arg s) := by
  unfold lambdaBody
  split
  · exact legal_unsupported node
  · rename_i hlambda
    refine Legal.bind (ha.body (Expr.asLambda?_of_asUnaryLambda? hlambda) _ fun name => ?_)
      fun _ => trivial
    simp [Frame.isSome_binding?, Frame.of]

theorem legal_mapItems (node : Expr) (input : Value) (ha : ArgLegal sub s arg) :
    Legal (mapItems sub node input arg s) :=
  Legal.bind (legal_lambdaBody node ha) fun _ => trivial

theorem legal_filterItems (node : Expr) (input : Value) (ha : ArgLegal sub s arg) :
    Legal (filterItems sub node input arg s) :=
  Legal.bind (legal_lambdaBody node ha) fun _ => trivial

theorem legal_itemsOfType (node target : Expr) (array : Value) (typeArg : Expr) :
    Legal (m.itemsOfType node target array typeArg) := by
  unfold itemsOfType
  split
  · refine Legal.bind (m.schema.legal_discriminator _ _) fun o => ?_
    cases o <;> trivial
  · exact legal_unsupported node

theorem legal_foldResult (node : Expr) (reduced : Value) {result : Option Expr}
    (hresult : ∀ e ∈ result, ArgLegal sub s e) :
    Legal (foldResult sub node reduced result s) := by
  cases result with
  | none => trivial
  | some e => exact Legal.bind (legal_lambdaBody node (hresult e rfl)) fun _ => trivial

theorem legal_foldItems (node source : Expr) (array : Value) {seed result : Option Expr}
    (hseed : ∀ e ∈ seed, Legal (sub e s)) (hstep : ArgLegal sub s arg)
    (hresult : ∀ e ∈ result, ArgLegal sub s e) :
    Legal (m.foldItems sub node source array seed arg result s) := by
  have hinitial : Legal (m.foldSeed sub source seed s) := by
    cases seed with
    | none => trivial
    | some e => exact hseed e rfl
  unfold foldItems
  split
  · rename_i accumulator item body hlambda
    refine Legal.bind hinitial fun _ => Legal.bind (hstep.body hlambda _ fun name => ?_) fun _ => ?_
    · simp [Frame.isSome_binding?, Frame.of, Frame.bind, or_comm]
    · exact legal_foldResult node _ hresult
  · exact legal_unsupported node

theorem legal_zipItems (node : Expr) (first : Value) {second : Expr} (h : Legal (sub second s))
    (ha : ArgLegal sub s arg) : Legal (zipItems sub node first second arg s) := by
  unfold zipItems
  split
  · rename_i left right body hlambda
    refine Legal.bind (ha.body hlambda _ fun name => ?_) fun _ => Legal.bind h fun _ => trivial
    simp [Frame.isSome_binding?, Frame.of, Frame.bind, or_comm]
  · exact legal_unsupported node

theorem legal_reducedValues (node : Expr) (ht : Legal (sub target s))
    (href : ∀ a ∈ args, Legal (m.reference? (.call target "Select" [a]) s))
    (ha : ∀ a ∈ args, ArgLegal sub s a) : Legal (m.reducedValues sub node target args s) := by
  unfold reducedValues
  split
  · exact ht
  · refine Legal.bind (href _ (by simp)) fun o => ?_
    cases o with
    | some v => trivial
    | none => exact Legal.bind ht fun _ => legal_mapItems _ _ (ha _ (by simp))
  · exact legal_unsupported node

theorem legal_arrayCallNoArg (node : Expr) (method : String) (array : Value) :
    Legal (arrayCallNoArg node method array) := by
  unfold arrayCallNoArg
  split
  · trivial
  · split <;> first | trivial | exact legal_unsupported node

theorem legal_arrayCallOneArg (node target : Expr) (array : Value) (ha : ArgLegal sub s arg) :
    Legal (m.arrayCallOneArg sub node target method array arg s) := by
  have hfilter := legal_filterItems node array ha
  have hmap := legal_mapItems node array ha
  unfold arrayCallOneArg
  split
  · exact Legal.bind hfilter fun _ => trivial
  · exact Legal.bind ha.value fun _ => trivial
  · split
    · exact hfilter.map _
    · exact hfilter.map _
    · exact Legal.bind hmap fun _ => trivial
    · exact Legal.bind hmap fun _ => trivial
    · exact Legal.bind ha.value fun _ => trivial
    · exact Legal.bind ha.value fun _ => trivial
    · exact Legal.bind ha.value fun _ => trivial
    · exact Legal.bind ha.value fun _ => trivial
    · exact Legal.bind ha.value fun _ => trivial
    · exact Legal.bind ha.value fun _ => trivial
    · exact Legal.bind ha.value fun _ => trivial
    · exact hfilter
    · exact hmap
    · exact legal_itemsOfType node target array arg
    · exact legal_foldItems node target array (by simp) ha (by simp)
    · exact legal_unsupported node

theorem legal_arrayCall (node : Expr) (ht : Legal (sub target s))
    (href : ∀ a ∈ args, Legal (m.reference? (.call target "Select" [a]) s))
    (hskip : ∀ source count, skipped? target = some (source, count) →
      Legal (sub source s) ∧ Legal (sub count s))
    (ha : ∀ a ∈ args, ArgLegal sub s a) : Legal (m.arrayCall sub node target method args s) := by
  unfold arrayCall
  split
  · exact (legal_reducedValues node ht href ha).map _
  · split
    · exact Legal.bind ht fun _ => legal_arrayCallNoArg node method _
    · rename_i arg
      have harg := ha arg (by simp)
      split
      · rename_i source skip hs
        have hskipped : skipped? target = some (source, skip) := by
          split at hs
          · exact hs
          · cases hs
        obtain ⟨hsource, hcount⟩ := hskip source skip hskipped
        exact Legal.bind hsource fun _ => Legal.bind hcount fun _ =>
          Legal.bind harg.value fun _ => trivial
      · exact Legal.bind ht fun _ => legal_arrayCallOneArg node target _ harg
    · rename_i a b
      have ha' := ha a (by simp)
      have hb := ha b (by simp)
      refine Legal.bind ht fun array => ?_
      split
      · exact legal_foldItems node target array (by simpa using ha'.value) hb (by simp)
      · exact legal_zipItems node array ha'.value hb
      · exact legal_unsupported node
    · rename_i a b c
      have ha' := ha a (by simp)
      have hc := ha c (by simp)
      refine Legal.bind ht fun array => ?_
      split
      · exact legal_foldItems node target array (by simpa using ha'.value) (ha b (by simp))
          (by simpa using hc)
      · exact legal_unsupported node
    · exact Legal.bind ht fun _ => legal_unsupported node

/-! ## Calls -/

/-- The arguments of a call on stored items. -/
theorem argLegal_of_owns (hs : s.Models fs) (hsub : SubLegal sub n)
    (h : (Expr.call target method args).Owns fs) (hk : target.known? = none)
    (hn : (Expr.call target method args).size ≤ n) : ∀ a ∈ args, ArgLegal sub s a := by
  intro a ha
  have hsize := Expr.size_le_sizes ha
  simp only [Expr.size] at hn
  refine ⟨hsub a s fs (by omega) (h.callArg ha) hs, fun {params body} hl f hf => ?_⟩
  have hbody := Expr.size_lt_of_asLambda? hl
  exact hsub body _ _ (by omega) (h.opened ha hl hk).readable (hs.push hf)

theorem legal_skipped? (hs : s.Models fs) (hsub : SubLegal sub n) (ht : target.Readable fs)
    (htn : target.size < n) {source count : Expr} (h : skipped? target = some (source, count)) :
    Legal (sub source s) ∧ Legal (sub count s) := by
  obtain ⟨hsource, hcount⟩ := size_lt_of_skipped? h
  unfold skipped? at h
  split at h
  · rename_i he
    cases h
    have hskip := ht.owns_strip he rfl
    exact ⟨hsub _ s fs (by omega) hskip.callTarget hs,
      hsub _ s fs (by omega) (hskip.callArg (by simp)) hs⟩
  · cases h

theorem legal_callOperand (hs : s.Models fs) (hsub : SubLegal sub n) (node : Expr)
    (h : (Expr.call target method args).Owns fs)
    (hn : (Expr.call target method args).size ≤ n) :
    Legal (m.callOperand sub node target method args s) := by
  have hr := h.callTarget
  have htn : target.size < n := by simp only [Expr.size] at hn; omega
  have ht := hsub target s fs htn hr hs
  have hra : ∀ a ∈ args, a.Readable fs := fun a ha => h.callArg ha
  have ha : ∀ a ∈ args, Legal (sub a s) := fun a ha => by
    have hsize := Expr.size_le_sizes ha
    simp only [Expr.size] at hn
    exact hsub a s fs (by omega) (hra a ha) hs
  unfold callOperand
  split
  · exact Legal.bind ht fun _ => Legal.bind (ha _ (by simp)) fun _ => trivial
  · exact (legal_comparedPair ht (ha _ (by simp)) hr (hra _ (by simp))).map _
  · exact legal_stringEqualsCall node _ ht (ha _ (by simp)) hr (hra _ (by simp))
  · split
    · split
      · exact Legal.bind (ha _ (by simp)) fun _ => trivial
      · exact legal_unsupported node
    · rename_i hk
      split
      · exact legal_stringCall node ht ha
      · exact legal_dateCall node ht ha
      · refine legal_arrayCall node ht (fun a hmem => ?_) (fun _ _ => legal_skipped? hs hsub hr htn)
          (argLegal_of_owns hs hsub h hk hn)
        have hselect : (Expr.call target "Select" [a]).Owns fs := h.select hmem
        exact legal_reference? hs hselect.readable
      · exact legal_unsupported node

theorem legal_mathCall (node : Expr) (ha : ∀ a ∈ args, Legal (sub a s)) :
    Legal (mathCall sub node method args s) := by
  unfold mathCall
  split
  · have hvalue := ha _ (List.mem_singleton.2 rfl)
    split
    · exact hvalue.map _
    · split
      · exact Legal.bind hvalue fun _ => trivial
      · exact Legal.bind hvalue fun _ => trivial
      · exact Legal.bind hvalue fun _ => trivial
      · exact Legal.bind hvalue fun _ => trivial
      · exact legal_unsupported node
  · split
    · split
      · exact Legal.bind (legal_pure _) fun _ => Legal.bind (ha _ (by simp)) fun _ => trivial
      · exact Legal.bind (ha _ (by simp)) fun _ => Legal.bind (ha _ (by simp)) fun _ => trivial
    · exact Legal.bind (ha _ (by simp)) fun _ => Legal.bind (ha _ (by simp)) fun _ => trivial
    · exact legal_unsupported node
  · exact legal_unsupported node

theorem legal_staticCallOperand (node : Expr) (owner : String) (ha : ∀ a ∈ args, Legal (sub a s))
    (hra : ∀ a ∈ args, a.Readable fs) :
    Legal (m.staticCallOperand sub node owner method args s) := by
  unfold staticCallOperand
  split
  · exact legal_mathCall node ha
  · exact Legal.bind (ha _ (by simp)) fun _ => Legal.bind (ha _ (by simp)) fun _ => trivial
  · exact Legal.bind (ha _ (by simp)) fun _ => trivial
  · exact Legal.bind (legal_mapM ha) fun _ => trivial
  · exact (legal_comparedPair (ha _ (by simp)) (ha _ (by simp)) (hra _ (by simp))
      (hra _ (by simp))).map _
  · exact (legal_comparedPair (ha _ (by simp)) (ha _ (by simp)) (hra _ (by simp))
      (hra _ (by simp))).map _
  · exact legal_stringEqualsCall node _ (ha _ (by simp)) (ha _ (by simp)) (hra _ (by simp))
      (hra _ (by simp))
  · exact legal_unsupported node

/-! ## Every node -/

theorem legal_binaryOperand (node : Expr) (op : BinaryOp) {left right : Expr}
    (hl : Legal (sub left s)) (hr : Legal (sub right s)) (hrl : left.Readable fs)
    (hrr : right.Readable fs) : Legal (m.binaryOperand sub node op left right s) := by
  unfold binaryOperand
  split
  · exact legal_unsupported node
  · split
    · exact Legal.bind (legal_comparedPair hl hr hrl hrr) fun _ => trivial
    · exact Legal.bind hl fun _ => Legal.bind hr fun _ => trivial

theorem legal_objectMembers (typeName : Option String) {members : List (String × Expr)}
    (h : ∀ p ∈ members, Legal (sub p.2 s)) : Legal (m.objectMembers sub typeName members s) :=
  legal_mapM fun p hp =>
    Legal.bind (legal_outputElement typeName p.1) fun _ => Legal.bind (h p hp) fun _ => trivial

theorem legal_computedOperand (hs : s.Models fs) {node : Expr} (hsub : SubLegal sub node.size)
    (h : node.Readable fs) : Legal (m.computedOperand sub node s) := by
  have hpart {e : Expr} (hl : node.asLambda? = none) (hp : (.same, e) ∈ node.parts) :
      Legal (sub e s) :=
    hsub e s fs (Expr.size_lt_of_mem_parts hp) ((h hl).same hp).readable hs
  have hread {e : Expr} (hl : node.asLambda? = none) (hp : (.same, e) ∈ node.parts) :
      e.Readable fs :=
    ((h hl).same hp).readable
  cases node with
  | quote inner =>
    exact hsub inner s fs (by simp [Expr.size]) (fun hl => (h hl).same (by simp [Expr.parts])) hs
  | convert operand type => exact hpart rfl (by simp [Expr.parts])
  | literal l => trivial
  | member target name =>
    exact legal_memberOperand hs _ name (hpart rfl (by simp [Expr.parts]))
      (hread rfl (by simp [Expr.parts]))
  | index target position =>
    exact legal_itemAt _ (hpart rfl (by simp [Expr.parts])) (hpart rfl (by simp [Expr.parts]))
  | call target method args => exact legal_callOperand hs hsub _ (h rfl) (Nat.le_refl _)
  | staticCall owner method args =>
    simp only [computedOperand]
    cases hc : (Expr.staticCall owner method args).receiverForm? with
    | some call =>
      exact hsub call s fs (Expr.size_lt_of_receiverForm? hc) ((h rfl).receiverForm hc).readable hs
    | none =>
      have hra : ∀ a ∈ args, a.Readable fs := fun a ha => (h rfl).staticArg hc ha
      refine legal_staticCallOperand _ owner (fun a ha => ?_) hra
      have := Expr.size_le_sizes ha
      exact hsub a s fs (by simp only [Expr.size]; omega) (hra a ha) hs
  | not operand => exact Legal.bind (hpart rfl (by simp [Expr.parts])) fun _ => trivial
  | negate operand => exact Legal.bind (hpart rfl (by simp [Expr.parts])) fun _ => trivial
  | binary op left right =>
    exact legal_binaryOperand _ op (hpart rfl (by simp [Expr.parts]))
      (hpart rfl (by simp [Expr.parts])) (hread rfl (by simp [Expr.parts]))
      (hread rfl (by simp [Expr.parts]))
  | conditional test ifTrue ifFalse =>
    refine Legal.bind (hpart rfl (by simp [Expr.parts])) fun _ => ?_
    refine Legal.bind (hpart rfl (by simp [Expr.parts])) fun _ => ?_
    exact Legal.bind (hpart rfl (by simp [Expr.parts])) fun _ => trivial
  | object typeName members =>
    refine Legal.bind (legal_objectMembers typeName fun p hp => ?_) fun _ => trivial
    exact hpart rfl (by simp only [Expr.parts, List.mem_map]; exact ⟨p, hp, rfl⟩)
  | collection kind source items =>
    cases source with
    | some source => exact Legal.bind (hpart rfl (by simp [Expr.parts])) fun _ => trivial
    | none =>
      refine Legal.bind (legal_mapM fun e he => ?_) fun _ => trivial
      exact hpart rfl (by simp [Expr.parts, he])
  | param | lambda | typeTest | inject => exact legal_unsupported _

/-- **An aggregation expression raises no illegal scope reference where every parameter is bound by
the innermost frame.** -/
theorem legal_operandOf (m : Mapping) (e : Expr) {s : Scope} {fs : Frames} (hs : s.Models fs)
    (h : e.Readable fs) : Legal (m.operandOf e s) := by
  rw [operandOf_eq]
  refine Legal.bind (legal_reference? hs h) fun o => ?_
  cases o with
  | some v => trivial
  | none =>
    exact legal_computedOperand hs (fun e' _ _ _ h' hs' => legal_operandOf m e' hs' h') h
termination_by e.size

end DocQuery.Mapping
