/-
Which operator binds the variable that a lambda parameter is read through
(`nearest_of_project`).

Inside a lambda over the items of an array, a parameter is a variable, or an item
of a pair that a variable stands for. `Reaches` follows the translation from the
body of a selector to one of its parts and keeps the names that are bound on the
way: those inside the innermost lambda, and from that lambda's own outwards. Only
an item that is sought in a stored array is under names of the translation's own,
so a parameter is captured there if it has the name that such an item is given.
-/
import DocQuery.Proofs.Aggregation.Constant

namespace DocQuery

open Aggregation

/-! ## Names of variables -/

/-- The variable that a reference reads. -/
def variableOf? (reference : String) : Option String :=
  match reference.toList with
  | '$' :: '$' :: rest => (steps (String.ofList rest)).head?
  | _ => none

/-- What the database takes for the name of a variable: all up to a dot. -/
def readName (name : String) : String := (steps name).headD ""

theorem head?_steps (name : String) : (steps name).head? = some (readName name) := by
  obtain ⟨first, rest, h⟩ := List.exists_cons_of_ne_nil (steps_ne_nil name)
  simp [readName, h]

theorem readName_of_not_mem {name : String} (h : '.' ∉ name.toList) : readName name = name := by
  simp [readName, steps_of_not_mem h]

/-- Exactly the names without dots are read as a whole. -/
theorem readName_eq_iff {name : String} : readName name = name ↔ '.' ∉ name.toList := by
  refine ⟨fun h hdot => ?_, readName_of_not_mem⟩
  obtain ⟨a, b, hname, ha⟩ := List.eq_append_cons_of_mem hdot
  have hbelow : name = String.ofList a ++ "." ++ String.ofList b := by
    apply String.toList_inj.1
    simp [hname]
  have hfirst : readName name = String.ofList a := by
    have hsteps : steps name = steps (String.ofList a) ++ steps (String.ofList b) := by
      rw [hbelow, steps_below]
    have hread : readName (String.ofList a) = String.ofList a :=
      readName_of_not_mem (by simpa using ha)
    rw [readName, hsteps, List.headD_eq_head?_getD, List.head?_append, head?_steps, hread]
    rfl
  have hlength : a.length = name.toList.length := by
    rw [← h, hfirst, String.toList_ofList]
  rw [hname] at hlength
  simp at hlength

theorem variableOf?_below {name reference : String} (h : variableOf? reference = some name)
    (element : String) : variableOf? (reference ++ "." ++ element) = some name := by
  unfold variableOf? at h
  split at h
  · rename_i rest hrest
    have hsteps : steps (String.ofList (rest ++ '.' :: element.toList)) =
        steps (String.ofList rest) ++ steps element := by
      rw [← steps_below]
      congr 1
      apply String.toList_inj.1
      simp
    unfold variableOf?
    simp only [String.toList_append, hrest, List.cons_append]
    have hdot : ".".toList = ['.'] := rfl
    rw [hdot, List.append_assoc, List.singleton_append, hsteps, List.head?_append, h]
    rfl
  · cases h

theorem variableOf?_variableRef (name : String) (path : List String) :
    variableOf? (variableRef name path) = some (readName name) := by
  have hone : variableOf? ("$$" ++ name) = some (readName name) := by
    have hchars : ("$$" ++ name).toList = '$' :: '$' :: name.toList := by simp
    rw [variableOf?, hchars]
    simp only [String.ofList_toList]
    exact head?_steps name
  unfold variableRef
  cases path with
  | nil => rwa [String.intercalate_singleton]
  | cons step rest =>
    have hcons : String.intercalate "." (("$$" ++ name) :: step :: rest) =
        "$$" ++ name ++ "." ++ String.intercalate "." (step :: rest) := by
      apply String.toList_inj.1
      simp [String.toList_intercalate, List.intercalate]
    rw [hcons]
    exact variableOf?_below hone _

/-! ## Variables that are read -/

/-- A variable is read in a value, where some names are bound. -/
def Value.ReadsUnder (o : Value) (name : String) (bound : List (List String)) : Prop :=
  ∃ reference, variableOf? reference = some name ∧ (Value.string reference).Under bound o

/-- The innermost of some operators that binds a name, counted from the inside. -/
def nearest? (name : String) (bound : List (List String)) : Option Nat :=
  bound.findIdx? fun names => names.contains name

theorem Value.ReadsUnder.trans {v o : Value} {name : String} {bound outer : List (List String)}
    (h : v.ReadsUnder name bound) (ho : v.Under outer o) :
    o.ReadsUnder name (bound ++ outer) := by
  obtain ⟨reference, hname, hunder⟩ := h
  exact ⟨reference, hname, hunder.trans ho⟩

/-- What a parameter stands for is read through a variable. -/
inductive Binding.Through : Binding → String → Prop
  | named (name : String) : Through (.variable name) name
  | item (pair : String) (i : Int32) : Through (.computed (Mapping.pairItem pair i)) pair

namespace Mapping

variable {m : Mapping} {e e' r target : Expr} {s s' : Scope} {o x : Value} {name v : String}
  {bound inside outside : List (List String)}

/-! ## References of an expression -/

/-- The stored fields and selections that an expression is written with a reference to: itself, the
array whose first or last item it reads a member of, or the selection that it reduces. -/
def cited (m : Mapping) (e : Expr) (s : Scope) : List Expr :=
  if m.isStored e then [e]
  else
    match e with
    | .member target name => (m.endMemberSource? target name s).toList
    | .call target method [selector] =>
      let selection := Expr.call target "Select" [selector]
      if (Reducer.ofMethod? method).isSome && m.isStored selection then [selection] else []
    | _ => []

/-- A reference is one to the parameter at the root of its place. If the parameter is read through
a variable, the reference reads that variable. -/
theorem resolve_of_reference? (h : m.reference? r s = .ok (some x)) :
    ∃ f b, m.schema.fieldPath? r = .ok (some f) ∧ s.resolve f.param r = .ok b ∧
      ∀ v, b.Through v → x.ReadsUnder (readName v) [] := by
  unfold reference? at h
  split at h
  · cases h
  · obtain ⟨f, hf, h⟩ := bind_eq_ok.1 h
    cases f with
    | none => cases h
    | some f =>
      change (if f.positional then _ else _) = _ at h
      split at h
      · cases h
      · obtain ⟨b, hb, h⟩ := bind_eq_ok.1 h
        refine ⟨f, b, hf, hb, fun v hv => ?_⟩
        cases hv with
        | named name =>
          cases h
          exact ⟨_, variableOf?_variableRef v f.path, .refl⟩
        | item pair i =>
          have hitem : (pairItem v i).ReadsUnder (readName v) [] :=
            ⟨_, variableOf?_variableRef v [], .opAll rfl (.head _)⟩
          cases h
          split
          · exact hitem
          · exact hitem.trans .letValue

theorem reference?_of_isStored (h : m.isStored e = true) (ho : m.operandOf e s = .ok o) :
    m.reference? e s = .ok (some o) := by
  rw [operandOf_eq, operandNode] at ho
  obtain ⟨reference, hr, ho⟩ := bind_eq_ok.1 ho
  have hsome := isSome_reference? hr
  rw [h] at hsome
  cases reference with
  | none => cases hsome
  | some v =>
    cases ho
    exact hr

/-- A member of the first or last item of a stored array is read from below the reference to it. -/
theorem memberOperand_of_end {node source : Expr}
    (hend : m.endMemberSource? target name s = some source)
    (ho : m.memberOperand m.operandOf node target name s = .ok o) :
    ∃ path element position, m.reference? source s = .ok (some (.string path)) ∧
      o = opAll "$arrayElemAt" [.string (path ++ "." ++ element), position] := by
  unfold endMemberSource? at hend
  split at hend
  · rename_i hreads
    -- The member is read as an element, so no other rule for members applies.
    have hstored : m.storedMember m.operandOf node target name s = .ok o := by
      unfold readsElement at hreads
      unfold memberOperand at ho
      simp only [Bool.and_eq_true, Bool.not_eq_true', Bool.and_eq_false_imp, Bool.or_eq_false_iff,
        decide_eq_false_iff_not] at hreads
      have hvalue : ((m.schema.typeOf target).isNullable && decide (name = "Value")) = false := by
        cases hn : (m.schema.typeOf target).isNullable with
        | false => rfl
        | true => simpa using (hreads.1 hn).1
      have hhas : ((m.schema.typeOf target).isNullable && decide (name = "HasValue")) = false := by
        cases hn : (m.schema.typeOf target).isNullable with
        | false => rfl
        | true => simpa using (hreads.1 hn).2
      simp only [hvalue, hhas, Bool.false_eq_true, if_false] at ho
      split at ho <;> simp_all
    unfold storedMember at hstored
    obtain ⟨stored, -, hstored⟩ := bind_eq_ok.1 hstored
    cases stored with
    | none => cases hstored
    | some stored =>
      obtain ⟨v, hv, hstored⟩ := bind_eq_ok.1 hstored
      unfold endSource? at hend
      unfold endMember? at hv
      split at hend
      · rename_i source' method hstrip
        rw [hstrip] at hv
        dsimp only at hv
        split at hend
        · rename_i which path hwhich href
          cases hend
          rw [hwhich, href] at hv
          cases hv
          cases hstored
          exact ⟨path, stored.element, _, href, rfl⟩
        · cases hend
      · cases hend
  · cases hend

theorem method_of_reducer {method : String} {reducer : Reducer}
    (h : Reducer.ofMethod? method = some reducer) :
    method = "Sum" ∨ method = "Average" ∨ method = "Min" ∨ method = "Max" ∨
      method = "StandardDeviationPopulation" ∨ method = "StandardDeviationSample" := by
  unfold Reducer.ofMethod? at h
  split at h <;> first | simp | cases h

/-- A reduction of a stored selection is one of the reference to it. -/
theorem operandOf_of_reducer {method : String} {selector : Expr} {reducer : Reducer}
    (hreducer : Reducer.ofMethod? method = some reducer)
    (hstored : m.isStored (.call target "Select" [selector]) = true)
    (hnot : m.isStored (.call target method [selector]) = false)
    (ho : m.operandOf (.call target method [selector]) s = .ok o) :
    ∃ x, m.reference? (.call target "Select" [selector]) s = .ok (some x) ∧
      o = op reducer.operator x := by
  have ho := operandOf_of_not_isStored hnot ho
  have harray : m.arrayCall m.operandOf (.call target method [selector]) target method [selector]
      s = .ok o := by
    change m.callOperand m.operandOf _ target method [selector] s = _ at ho
    unfold callOperand at ho
    split at ho
    · cases hreducer
    · cases hreducer
    · cases hreducer
    · split at ho
      · split at ho
        · cases hreducer
        · cases ho
      · -- No method of a string or a date is a reduction.
        split at ho
        · obtain ⟨text, -, ho⟩ := bind_eq_ok.1 ho
          rcases method_of_reducer hreducer with rfl | rfl | rfl | rfl | rfl | rfl <;> cases ho
        · rcases method_of_reducer hreducer with rfl | rfl | rfl | rfl | rfl | rfl <;> cases ho
        · exact ho
        · cases ho
  unfold arrayCall reducedValues at harray
  rw [hreducer] at harray
  cases href : m.reference? (.call target "Select" [selector]) s with
  | error err =>
    simp only [href] at harray
    cases harray
  | ok reference =>
    have hsome := isSome_reference? href
    rw [hstored] at hsome
    cases reference with
    | none => cases hsome
    | some x =>
      simp only [href] at harray
      cases harray
      exact ⟨x, rfl, rfl⟩

/-- What a reference reads, the expression that is written with it reads. -/
theorem reference?_of_cited (hr : r ∈ m.cited e s) (ho : m.operandOf e s = .ok o) :
    ∃ x, m.reference? r s = .ok (some x) ∧
      ∀ name, x.ReadsUnder name [] → o.ReadsUnder name [] := by
  unfold cited at hr
  split at hr
  · rename_i hstored
    cases List.mem_singleton.1 hr
    exact ⟨o, reference?_of_isStored hstored ho, fun _ h => h⟩
  · rename_i hstored
    have hstored : m.isStored e = false := by simpa using hstored
    split at hr
    · have hcomputed := operandOf_of_not_isStored hstored ho
      obtain ⟨path, element, position, href, rfl⟩ :=
        memberOperand_of_end (Option.mem_toList.1 hr) hcomputed
      refine ⟨.string path, href, fun name hreads => ?_⟩
      obtain ⟨reference, hname, hunder⟩ := hreads
      cases hunder.eq_string
      exact ⟨_, variableOf?_below hname element, .opAll rfl (.head _)⟩
    · dsimp only at hr
      split at hr
      · rename_i hcond
        simp only [Bool.and_eq_true, Option.isSome_iff_exists] at hcond
        obtain ⟨⟨reducer, hreducer⟩, hselection⟩ := hcond
        cases List.mem_singleton.1 hr
        obtain ⟨x, href, rfl⟩ := operandOf_of_reducer hreducer hselection hstored ho
        exact ⟨x, href, fun name h => h.trans (.op (by simp) .refl)⟩
      · cases hr
    · cases hr

/-! ## From the whole to its parts -/

theorem bindsNames_of_mem_scopedOperands {fields : Document} {names : List (List String)}
    (h : (names, x) ∈ scopedOperands name fields) : bindsNames name = true := by
  unfold scopedOperands at h
  split at h <;> first | rfl | cases h

/-- The operands that a left side gives have the references in it. -/
theorem under_leftOperands (operator : String) (left : Expr) {reference : String} {l : Value}
    (h : (Value.string reference).Under bound l) :
    ∃ i ∈ leftOperands operator left l, (Value.string reference).Under bound i := by
  unfold leftOperands
  split
  · rename_i inner operands _
    split
    · rename_i hname
      simp only [Bool.and_eq_true, decide_eq_true_eq] at hname
      have hbinds : bindsNames operator = false := by
        have hvariadic := hname.1
        simp only [isVariadic, List.mem_cons, List.not_mem_nil, or_false,
          Bool.decide_or, Bool.or_eq_true, decide_eq_true_eq] at hvariadic
        rcases hvariadic with rfl | rfl | rfl | rfl | rfl <;> rfl
      have hoperands : (Value.string reference).Under bound operands := by
        cases h with
        | field hkey hx h =>
          cases List.mem_singleton.1 hx
          exact h
        | operand hx h =>
          have hname' := bindsNames_of_mem_scopedOperands hx
          rw [hname.2, hbinds] at hname'
          cases hname'
      split
      · cases hoperands with
        | item hi h => exact ⟨_, hi, h⟩
      · exact ⟨_, List.mem_singleton_self _, hoperands⟩
    · exact ⟨_, List.mem_singleton_self _, h⟩
  · exact ⟨_, List.mem_singleton_self _, h⟩

theorem mem_plainly {placing : Placing} {es : List Expr} (h : (placing, e) ∈ plainly es) :
    placing = .plain ∧ e ∈ es := by
  obtain ⟨e, he, h⟩ := List.mem_map.1 h
  cases h
  exact ⟨rfl, he⟩

theorem isStored_of_mem_placements {placing : Placing} (h : (placing, e') ∈ m.placements e s) :
    m.isStored e = false := by
  cases hstored : m.isStored e with
  | false => rfl
  | true =>
    unfold placements at h
    rw [hstored, Bool.true_or, if_pos rfl] at h
    exact hstored ▸ isStored_of_mem_operandParts (mem_plainly h).2

/-- What a part reads, the whole reads, under the names that are bound around the part. -/
theorem readsUnder_of_placement {placing : Placing} (hp : (placing, e') ∈ m.placements e s)
    (ho : m.operandOf e s = .ok o) :
    ∃ o', m.operandOf e' (placing.scope s) = .ok o' ∧
      ∀ name bound, o'.ReadsUnder name bound → o.ReadsUnder name (bound ++ placing.names) := by
  have hstored := isStored_of_mem_placements hp
  cases hsides : e.comparedSides? with
  | some sides =>
    obtain ⟨a, b⟩ := sides
    unfold placements at hp
    rw [hsides, Option.isSome_some, Bool.or_true, if_pos rfl] at hp
    obtain ⟨rfl, he⟩ := mem_plainly hp
    obtain ⟨items, hpair, hunder, -⟩ := under_comparedPair hsides ho
    simp only [operandParts, hstored, hsides, Bool.false_eq_true, if_false] at he
    obtain ⟨v, hv, ho'⟩ := mem_of_comparedPair_of_part hpair he
    exact ⟨v, ho', fun name bound h => h.trans (hunder v hv)⟩
  | none =>
    by_cases hbinary : ∃ op left right, e = .binary op left right
    · obtain ⟨op, left, right, rfl⟩ := hbinary
      have hop : op.isComparison = false := by simpa [Expr.comparedSides?] using hsides
      obtain ⟨operator, l, r, hoperator, hl, hr, rfl⟩ := operandOf_operation hop ho
      have hbinds := bindsNames_binaryOperator hoperator
      simp only [placements, operandParts, hstored, hsides, Option.isSome_none, Bool.or_false,
        Bool.false_eq_true, if_false] at hp
      obtain ⟨rfl, he⟩ := mem_plainly hp
      rcases List.mem_cons.1 he with rfl | he
      · refine ⟨l, hl, fun name bound hreads => ?_⟩
        obtain ⟨reference, hname, hunder⟩ := hreads
        obtain ⟨i, hi, hunder⟩ := under_leftOperands operator e' hunder
        have hmem : i ∈ leftOperands operator e' l ++ [r] := List.mem_append_left _ hi
        exact ⟨reference, hname, hunder.trans (.opAll hbinds hmem)⟩
      · cases List.mem_singleton.1 he
        have hmem : r ∈ leftOperands operator left l ++ [r] :=
          List.mem_append_right _ (List.mem_singleton_self r)
        exact ⟨r, hr, fun name bound h => h.trans (.opAll hbinds hmem)⟩
    · have hplaces := places_computedOperand (m := m) (s := s) (refusesLambdas_operandOf m) hstored
        hsides fun op left right h => hbinary ⟨op, left, right, h⟩
      obtain ⟨v, hv, hunder⟩ := hplaces.of_ok (operandOf_of_not_isStored hstored ho) _ hp
      exact ⟨v, hv, fun name bound h => h.trans hunder⟩

/-- The translation of an expression comes to a part of it, in the part's scope. Of the names that
are bound around the part, the first ones are bound inside the innermost lambda around it, the
others by that lambda and outside of it. -/
inductive Reaches (m : Mapping) (e : Expr) (s : Scope) :
    List (List String) → List (List String) → Expr → Scope → Prop
  | refl : m.Reaches e s [] [] e s
  | plain {inside outside : List (List String)} {e₁ e₂ : Expr} {s₁ : Scope}
      (h : m.Reaches e s inside outside e₁ s₁) (hp : (.plain, e₂) ∈ m.placements e₁ s₁) :
      m.Reaches e s inside outside e₂ s₁
  | sought {inside outside : List (List String)} {e₁ e₂ : Expr} {s₁ : Scope}
      (h : m.Reaches e s inside outside e₁ s₁) (hp : (.sought, e₂) ∈ m.placements e₁ s₁) :
      m.Reaches e s ([itemName] :: inside) outside e₂ s₁
  | opened {inside outside : List (List String)} {e₁ e₂ : Expr} {s₁ : Scope}
      {names : List String} {frame : Frame} (h : m.Reaches e s inside outside e₁ s₁)
      (hp : (.opened names frame, e₂) ∈ m.placements e₁ s₁) :
      m.Reaches e s [] (names :: (inside ++ outside)) e₂ (s₁.push frame)

theorem readsUnder_of_reaches (h : m.Reaches e s inside outside e' s')
    (ho : m.operandOf e s = .ok o) :
    ∃ o', m.operandOf e' s' = .ok o' ∧
      ∀ name bound, o'.ReadsUnder name bound →
        o.ReadsUnder name (bound ++ (inside ++ outside)) := by
  induction h with
  | refl => exact ⟨o, ho, fun name bound h => by simpa using h⟩
  | plain h hp ih =>
    obtain ⟨o₁, ho₁, hreads₁⟩ := ih
    obtain ⟨o₂, ho₂, hreads₂⟩ := readsUnder_of_placement hp ho₁
    refine ⟨o₂, ho₂, fun name bound h => ?_⟩
    have hreads := hreads₁ _ _ (hreads₂ _ _ h)
    simpa [Placing.names] using hreads
  | sought h hp ih =>
    obtain ⟨o₁, ho₁, hreads₁⟩ := ih
    obtain ⟨o₂, ho₂, hreads₂⟩ := readsUnder_of_placement hp ho₁
    refine ⟨o₂, ho₂, fun name bound h => ?_⟩
    have hreads := hreads₁ _ _ (hreads₂ _ _ h)
    simpa [Placing.names] using hreads
  | opened h hp ih =>
    obtain ⟨o₁, ho₁, hreads₁⟩ := ih
    obtain ⟨o₂, ho₂, hreads₂⟩ := readsUnder_of_placement hp ho₁
    refine ⟨o₂, ho₂, fun name bound h => ?_⟩
    have hreads := hreads₁ _ _ (hreads₂ _ _ h)
    simpa [Placing.names] using hreads

/-! ## Names and frames on the way -/

/-- Inside a lambda, only items that are sought are given names. -/
theorem eq_of_mem_inside (h : m.Reaches e s inside outside e' s') {names : List String}
    (hn : names ∈ inside) : names = [itemName] := by
  induction h with
  | refl => cases hn
  | plain _ _ ih => exact ih hn
  | sought _ _ ih =>
    rcases List.mem_cons.1 hn with rfl | hn
    · rfl
    · exact ih hn
  | opened => cases hn

theorem placing_of_mem_placements {placing : Placing} (h : (placing, e') ∈ m.placements e s) :
    placing = .plain ∨ placing = .sought ∨
      ∃ arg, placing = overItems arg ∨ placing = overFold arg ∨ placing = overPairs arg := by
  have hplain {es : List Expr} (h : (placing, e') ∈ plainly es) : placing = .plain ∨
      placing = .sought ∨ ∃ arg, placing = overItems arg ∨ placing = overFold arg ∨
        placing = overPairs arg := .inl (mem_plainly h).1
  unfold placements at h
  split at h
  · exact hplain h
  · split at h
    · split at h
      · cases h
      · exact hplain h
    · unfold callPlacements at h
      split at h
      · exact hplain h
      · split at h
        · exact hplain h
        · split at h
          · unfold arrayPlacements at h
            split at h
            · cases h
            · rcases List.mem_append.1 h with h | h
              · exact hplain h
              · split at h
                · cases h
                · unfold placedArguments at h
                  split at h <;> simp only [List.mem_cons, List.not_mem_nil, or_false,
                    List.mem_map, Prod.mk.injEq] at h <;> grind
          · exact hplain h
    · split at h
      · cases h
      · exact hplain h
    · exact hplain h

/-- The parameters of a lambda are read through the names that are bound for it. A name with a dot
is the only one. -/
theorem through_of_opened {names : List String} {frame : Frame}
    (h : (.opened names frame, e') ∈ m.placements e s) :
    ∀ q ∈ frame.bindings, ∃ v ∈ names, q.2.Through v ∧ ('.' ∈ v.toList → names = [v]) := by
  rcases placing_of_mem_placements h with h | h | ⟨arg, h | h | h⟩
  · cases h
  · cases h
  · unfold overItems at h
    split at h
    · rename_i p _ _
      cases h
      intro q hq
      cases List.mem_singleton.1 hq
      exact ⟨p.name, List.mem_singleton_self _, .named _, fun _ => rfl⟩
    · cases h
  · unfold overFold at h
    split at h
    · cases h
      intro q hq
      rcases List.mem_cons.1 hq with rfl | hq
      · exact ⟨"this", by simp, .named _, fun h => absurd h (by decide)⟩
      · cases List.mem_singleton.1 hq
        exact ⟨"value", by simp, .named _, fun h => absurd h (by decide)⟩
    · cases h
  · unfold overPairs at h
    split at h
    · cases h
      intro q hq
      rcases List.mem_cons.1 hq with rfl | hq
      · exact ⟨_, List.mem_singleton_self _, .item _ _, fun _ => rfl⟩
      · cases List.mem_singleton.1 hq
        exact ⟨_, List.mem_singleton_self _, .item _ _, fun _ => rfl⟩
    · cases h

/-- Inside a lambda, what is read is one of its own parameters, through one of its own names. -/
theorem through_of_resolve (h : m.Reaches e s inside outside e' s') (hne : outside ≠ [])
    {param : String} {node : Expr} {b : Binding} (hb : s'.resolve param node = .ok b) :
    ∃ own outer v, outside = own :: outer ∧ v ∈ own ∧ b.Through v ∧
      ('.' ∈ v.toList → own = [v]) := by
  induction h with
  | refl => exact absurd rfl hne
  | plain _ _ ih => exact ih hne hb
  | sought _ _ ih => exact ih hne hb
  | @opened inside outside _ _ _ names frame _ hp _ =>
    unfold Scope.resolve Scope.classify at hb
    simp only [Scope.push] at hb
    cases hbinding : frame.binding? param with
    | none =>
      rw [hbinding] at hb
      dsimp only at hb
      split at hb
      · rename_i hown
        split at hown <;> cases hown
      · cases hb
      · cases hb
    | some b' =>
      rw [hbinding] at hb
      cases hb
      obtain ⟨q, hq, rfl⟩ := Option.map_eq_some_iff.1 hbinding
      obtain ⟨v, hv, hthrough, hdot⟩ := through_of_opened hp q (List.mem_of_find?_eq_some hq)
      exact ⟨names, inside ++ outside, v, rfl, hv, hthrough, hdot⟩

/-- The nearest operator that binds a name of a lambda is the lambda's own, unless the name has a
dot or is that of an item that is sought. -/
theorem nearest?_own {own : List String} {outer : List (List String)}
    (hinside : ∀ names ∈ inside, names = [itemName]) (hv : v ∈ own)
    (hdot : '.' ∈ v.toList → own = [v]) :
    nearest? (readName v) (inside ++ own :: outer) = some inside.length ↔
      '.' ∉ v.toList ∧ (inside = [] ∨ v ≠ itemName) := by
  have hlength : inside.length < (inside ++ own :: outer).length := by simp
  have hown : (inside ++ own :: outer)[inside.length] = own := by simp
  rw [nearest?, List.findIdx?_eq_some_iff_getElem]
  by_cases hdots : '.' ∈ v.toList
  · -- The name up to the dot is not bound here.
    constructor
    · intro hnearest
      obtain ⟨_, h, _⟩ := hnearest
      rw [hown, hdot hdots] at h
      have hread : readName v = v := by simpa using h
      exact absurd hdots (readName_eq_iff.1 hread)
    · intro h
      exact absurd hdots h.1
  · rw [readName_of_not_mem hdots]
    constructor
    · intro hnearest
      obtain ⟨_, _, h⟩ := hnearest
      refine ⟨hdots, ?_⟩
      cases inside with
      | nil => exact .inl rfl
      | cons first rest =>
        refine .inr fun heq => ?_
        have hfirst := h 0 (by simp)
        rw [List.getElem_append_left (by simp), List.getElem_cons_zero,
          hinside first (.head _)] at hfirst
        simp [heq] at hfirst
    · intro hname
      obtain ⟨_, h⟩ := hname
      refine ⟨hlength, ?_, ?_⟩
      · rw [hown]
        simpa using hv
      · intro j hj
        rw [List.getElem_append_left hj, hinside _ (List.getElem_mem hj)]
        rcases h with rfl | h
        · cases hj
        · simpa using h

/-! ## Variables in stages -/

section Object
variable {body : Expr} {typeName : Option String} {members : List (String × Expr)}

theorem isReference_of_strip (h : e.strip = .object typeName members) : e.isReference = false := by
  fun_induction Expr.strip e with
  | case1 inner ih => exact ih h
  | case2 operand type ih => exact ih h
  | case3 e =>
    subst h
    rfl

/-- Nothing of an object with an element that reads as an operator is reached. -/
theorem strip_of_reaches (hbody : body.strip = .object typeName members)
    (hbinder : m.namesBinder typeName members = true)
    (h : m.Reaches body s inside outside e s') : e.strip = .object typeName members := by
  have hstep {placing : Placing} {e₁ e₂ : Expr} {s₁ : Scope}
      (he : e₁.strip = .object typeName members) (hp : (placing, e₂) ∈ m.placements e₁ s₁) :
      e₂.strip = .object typeName members := by
    have hstored := isStored_of_mem_placements hp
    cases e₁ with
    | quote inner =>
      simp only [placements, operandParts, hstored, Expr.comparedSides?, Option.isSome_none,
        Bool.or_false, Bool.false_eq_true, if_false] at hp
      cases List.mem_singleton.1 (mem_plainly hp).2
      exact he
    | convert operand type =>
      simp only [placements, operandParts, hstored, Expr.comparedSides?, Option.isSome_none,
        Bool.or_false, Bool.false_eq_true, if_false] at hp
      cases List.mem_singleton.1 (mem_plainly hp).2
      exact he
    | object typeName' members' =>
      cases he
      simp only [placements, hstored, Expr.comparedSides?, Option.isSome_none, Bool.or_false,
        Bool.false_eq_true, if_false, hbinder, if_true] at hp
      cases hp
    | _ => cases he
  induction h with
  | refl => exact hbody
  | plain _ hp ih => exact hstep ih hp
  | sought _ hp ih => exact hstep ih hp
  | opened _ hp ih => exact hstep ih hp

theorem cited_of_strip (h : e.strip = .object typeName members) : m.cited e s = [] := by
  have hstored : m.isStored e = false := by
    rw [isStored, isReference_of_strip h, Bool.false_and]
  unfold cited
  rw [hstored, if_neg Bool.false_ne_true]
  cases e with
  | member => cases h
  | call => cases h
  | _ => rfl

end Object

/-- The fields of a stage for a new object are those of the object's translation. -/
theorem operandOf_of_projectedMembers {body : Expr} {typeName : Option String}
    {members : List (String × Expr)} {projected : List (String × Value × String)}
    (hb : body.asObject? = some (typeName, members))
    (h : m.projectedMembers typeName members s = .ok projected) :
    m.operandOf body s = .ok (.document
      (Document.ofFields (projected.map fun (element, v, _) => (element, v)))) := by
  rw [← operandOf_strip, strip_of_asObject? hb, operandOf_of_not_reference rfl, computedOperand,
    objectMembers_of_projectedMembers h]
  rfl

/-- The body of a selector that is accepted is translated. -/
theorem operandOf_of_project {selector body : Expr} {p : Param} {stage : Stage}
    (hl : selector.asUnaryLambda? = some (p, body)) (hstage : m.project selector = .ok stage) :
    ∃ o, m.operandOf body (.root p.name) = .ok o := by
  cases hb : body.asObject? with
  | none =>
    obtain ⟨o, ho, -⟩ := project_value hl hb hstage
    exact ⟨o, operandOf_strip.1 ho⟩
  | some object =>
    obtain ⟨projected, hprojected, -⟩ := project_object hl hb hstage
    exact ⟨_, operandOf_of_projectedMembers hb hprojected⟩

/-- What a part of a selector is written with a reference to, the stage reads where the translation
comes to the part. -/
theorem readsUnder_project {selector body : Expr} {p : Param} {stage : Stage}
    (hl : selector.asUnaryLambda? = some (p, body)) (hstage : m.project selector = .ok stage)
    (h : m.Reaches body (.root p.name) inside outside e s) (hr : r ∈ m.cited e s)
    (hreads : ∀ o, m.operandOf e s = .ok o → o.ReadsUnder name []) :
    (Value.document stage.body).ReadsUnder name (inside ++ outside) := by
  cases hb : body.asObject? with
  | none =>
    obtain ⟨o, ho, rfl⟩ := project_value hl hb hstage
    obtain ⟨o', ho', hpart⟩ := readsUnder_of_reaches h (operandOf_strip.1 ho)
    have hmember : (Stage.valueName, stageMember o) ∈ (valueStage o).body :=
      mem_withoutId (List.mem_singleton_self _)
    have hstage := (hpart name [] (hreads o' ho')).trans
      (.field rfl hmember (.stageMember .refl))
    simpa using hstage
  | some object =>
    obtain ⟨typeName, members⟩ := object
    obtain ⟨projected, hprojected, rfl⟩ := project_object hl hb hstage
    have hfields := objectMembers_of_projectedMembers hprojected
    have ho := operandOf_of_projectedMembers hb hprojected
    generalize (projected.map fun (element, v, _) => (element, v)) = fields at hfields ho
    obtain ⟨o', ho', hpart⟩ := readsUnder_of_reaches h ho
    obtain ⟨reference, hname, hunder⟩ := hpart name [] (hreads o' ho')
    refine ⟨reference, hname, ?_⟩
    generalize hall : Document.ofFields fields = all at hunder
    rw [List.nil_append] at hunder
    generalize inside ++ outside = bound at hunder
    cases hunder with
    | field hkey hx hunder => exact .field hkey (mem_withoutId hx) hunder
    | @operand _ _ operator args x hx hunder =>
      -- An object that reads as an operator has no such part.
      have hkey : operator ∈ Document.keys fields := by
        rw [← Document.mem_keys_ofFields, hall]
        exact List.mem_singleton_self _
      obtain ⟨⟨member, value⟩, hq, helement⟩ := exists_of_mem_keys hfields hkey
      have hbinder : m.namesBinder typeName members = true := by
        refine List.any_eq_true.2 ⟨_, hq, ?_⟩
        dsimp only at helement ⊢
        rw [helement]
        exact bindsNames_of_mem_scopedOperands hx
      rw [cited_of_strip (strip_of_reaches (strip_of_asObject? hb) hbinder h)] at hr
      cases hr

/-- **A parameter is read through a variable that the nearest operator of its name binds for its own
lambda, unless that operator is one for an item that is sought.** Inside every lambda over items of
a selector that is accepted, each reference reads a variable of that lambda, and only items that are
sought are given names in between. The nearest operator that binds the variable's name is the
lambda's own exactly if the name has no dot, and no item is sought around the reference or the name
is not that of such an item. -/
theorem nearest_of_project {selector body : Expr} {p : Param} {stage : Stage}
    (hl : selector.asUnaryLambda? = some (p, body)) (hstage : m.project selector = .ok stage)
    (h : m.Reaches body (.root p.name) inside outside e s) (hne : outside ≠ [])
    (hr : r ∈ m.cited e s) :
    ∃ own outer f b v, outside = own :: outer ∧ m.schema.fieldPath? r = .ok (some f) ∧
      s.resolve f.param r = .ok b ∧ b.Through v ∧ v ∈ own ∧
      (Value.document stage.body).ReadsUnder (readName v) (inside ++ outside) ∧
      (∀ names ∈ inside, names = [itemName]) ∧
      (nearest? (readName v) (inside ++ outside) = some inside.length ↔
        '.' ∉ v.toList ∧ (inside = [] ∨ v ≠ itemName)) := by
  obtain ⟨o, ho⟩ := operandOf_of_project hl hstage
  obtain ⟨o', ho', -⟩ := readsUnder_of_reaches h ho
  obtain ⟨x, hx, -⟩ := reference?_of_cited hr ho'
  obtain ⟨f, b, hf, hb, hthrough⟩ := resolve_of_reference? hx
  obtain ⟨own, outer, v, rfl, hv, hbv, hdot⟩ := through_of_resolve h hne hb
  have hinside : ∀ names ∈ inside, names = [itemName] := fun names hn => eq_of_mem_inside h hn
  have hreads : ∀ o, m.operandOf e s = .ok o → o.ReadsUnder (readName v) [] := by
    intro o ho
    obtain ⟨x', hx', hreads⟩ := reference?_of_cited hr ho
    cases hx.symm.trans hx'
    exact hreads _ (hthrough v hbv)
  exact ⟨own, outer, f, b, v, rfl, hf, hb, hbv, hv, readsUnder_project hl hstage h hr hreads,
    hinside, nearest?_own hinside hv hdot⟩

/-- Documents with rows of texts. -/
def rowsMapping : Mapping :=
  { schema := { documents := [
      { name := "Root", members := [⟨"Rows", "Rows", .array (.array .string), .natural⟩] }] } }

/-- `x => x.Rows.Select(row => row.Contains(row.First()))`, with a name for the row. -/
def firstInRow (name : String) : Expr :=
  let row := Expr.param ⟨name, .array .string⟩
  .lambda [⟨"x", .document "Root"⟩]
    (.call (.member (.param ⟨"x", .document "Root"⟩) "Rows") "Select"
      [.lambda [⟨name, .array .string⟩] (.call row "Contains" [.call row "First" []])])

/-- The second reference to the row is under the variable for the item that is sought. -/
theorem reaches_firstInRow (name : String) :
    ∃ body, (firstInRow name).asUnaryLambda? = some (⟨"x", .document "Root"⟩, body) ∧
      rowsMapping.Reaches body (.root "x") [[itemName]] [[name]]
        (.param ⟨name, .array .string⟩) ((Scope.root "x").push (.of name (.variable name))) :=
  ⟨_, rfl, .plain (.sought (.opened .refl (.tail _ (.head _))) (.tail _ (.head _))) (.head _)⟩

theorem nearest_of_project_row :
    ∃ stage, rowsMapping.project (firstInRow "row") = .ok stage ∧
      (Value.document stage.body).ReadsUnder "row" [[itemName], ["row"]] ∧
      nearest? "row" [[itemName], ["row"]] = some 1 := by
  obtain ⟨stage, hstage⟩ : ∃ stage, rowsMapping.project (firstInRow "row") = .ok stage := ⟨_, rfl⟩
  obtain ⟨body, hl, hreach⟩ := reaches_firstInRow "row"
  obtain ⟨own, outer, f, b, v, -, hf, hb, hv, -, hreads, -, hnearest⟩ :=
    nearest_of_project hl hstage hreach (by simp) (List.mem_singleton_self _)
  cases hf
  cases hb
  cases hv
  exact ⟨stage, hstage, hreads, hnearest.2 ⟨by decide, .inr (by decide)⟩⟩

/-- A row that has the name of an item that is sought is captured: the nearest operator that binds
the name is the one for that item. -/
theorem nearest_of_project_item :
    ∃ stage, rowsMapping.project (firstInRow itemName) = .ok stage ∧
      stage.body.get? Stage.valueName = some (op "$map" (.document
        [("input", .string "$Rows"), ("as", .string "item"),
         ("in", opAll "$anyElementTrue" [op "$map" (.document
            [("input", .string "$$item"), ("as", .string "item"),
             ("in", opAll "$eq" [.string "$$item",
               opAll "$arrayElemAt" [.string "$$item", .int32 0]])])])])) ∧
      nearest? "item" [["item"], ["item"]] = some 0 :=
  ⟨_, rfl, rfl, rfl⟩

end Mapping
end DocQuery
