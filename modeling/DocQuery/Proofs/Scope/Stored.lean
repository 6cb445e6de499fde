/-
What may stand in a predicate over whole documents.

An expression that reads a stored place passes the check of a scope in which its
parameter is not that of an enclosing lambda (`check_of_fieldPath?`): the lambdas in
it select members of their own items. A known expression that passes the check too is
a constant (`Scope.Constant`).
-/
import DocQuery.Proofs.Filter.Comparison
import DocQuery.Proofs.Scope.Reference

namespace DocQuery

/-! ## Stored places -/

namespace Schema

variable {schema : Schema} {e target : Expr} {f : FieldPath}

/-- A member is one of a stored place. -/
theorem fieldPath?_member {name : String}
    (h : schema.fieldPath? (.member target name) = .ok (some f)) :
    ∃ g, schema.fieldPath? target = .ok (some g) ∧ f.param = g.param := by
  obtain ⟨g, hg, hmember⟩ := memberOf?_of_fieldPath? h
  exact ⟨g, hg, (post_memberOf? g name).of_ok hmember f rfl⟩

/-- A position is a literal one in a stored place. -/
theorem fieldPath?_index {position : Expr}
    (h : schema.fieldPath? (.index target position) = .ok (some f)) :
    ∃ g, schema.fieldPath? target = .ok (some g) ∧ f.param = g.param ∧
      ∃ l, position.asLiteral? = some l := by
  obtain ⟨g, l, hg, hl, hitem⟩ := item?_of_fieldPath? h
  exact ⟨g, hg, param_item? f (Option.bind_eq_some_iff.2 ⟨l, hl, hitem⟩), l, hl⟩

/-- A call has a literal argument, or selects a place below from each item of a stored array. -/
theorem fieldPath?_call {method : String} {arg : Expr}
    (h : schema.fieldPath? (.call target method [arg]) = .ok (some f)) :
    ∃ g, schema.fieldPath? target = .ok (some g) ∧ f.param = g.param ∧
      ((∃ l, arg.asLiteral? = some l) ∨
        ∃ p body inner, arg.asUnaryLambda? = some (p, body) ∧
          schema.fieldPath? body = .ok (some inner) ∧ inner.param = p.name) := by
  unfold fieldPath? at h
  split at h
  · obtain ⟨o, ho, h⟩ := bind_eq_ok.1 h
    cases o with
    | none => cases h
    | some g =>
      have hitem : arg.asLiteral?.bind g.item? = some f := Except.ok.inj h
      obtain ⟨l, hl, -⟩ := Option.bind_eq_some_iff.1 hitem
      exact ⟨g, ho, param_item? f hitem, .inl ⟨l, hl⟩⟩
  · obtain ⟨o, ho, h⟩ := bind_eq_ok.1 h
    cases o with
    | none => cases h
    | some g =>
      obtain ⟨name, hname, rfl⟩ := Option.map_eq_some_iff.1 (Except.ok.inj h)
      obtain ⟨l, hl, -⟩ := Option.bind_eq_some_iff.1 hname
      exact ⟨g, ho, rfl, .inl ⟨l, hl⟩⟩
  · split at h
    · cases h
    · rename_i p body hl
      obtain ⟨o, ho, h⟩ := bind_eq_ok.1 h
      cases o with
      | none => cases h
      | some g =>
        dsimp only at h
        split at h
        · obtain ⟨o', ho', h⟩ := bind_eq_ok.1 h
          rw [bodyPath?_eq (Expr.asLambda?_of_asUnaryLambda? hl)] at ho'
          cases o' with
          | none => cases h
          | some inner =>
            dsimp only at h
            split at h
            · rename_i hparam
              cases h
              exact ⟨g, ho, param_through g inner, .inr ⟨p, body, inner, hl, ho', hparam⟩⟩
            · cases h
        · cases h
  · cases h

/-- A chain has the parameter of its place at its root. -/
theorem chainRoot?_of_fieldPath? {e : Expr} {f : FieldPath} {name : String}
    (h : schema.fieldPath? e = .ok (some f)) (hroot : e.chainRoot? = some name) :
    name = f.param := by
  fun_induction Expr.chainRoot? e generalizing f with
  | case1 p =>
    cases h
    cases hroot
    rfl
  | case2 target member ih =>
    obtain ⟨g, hg, hparam⟩ := fieldPath?_member h
    rw [hparam]
    exact ih hg hroot
  | case3 target position ih =>
    obtain ⟨g, hg, hparam, -⟩ := fieldPath?_index h
    rw [hparam]
    exact ih hg hroot
  | case4 operand type ih =>
    rw [fieldPath?] at h
    exact ih h hroot
  | case5 inner ih =>
    rw [fieldPath?] at h
    exact ih h hroot
  | case6 => cases hroot

theorem known?_of_fieldPath? (h : schema.fieldPath? e = .ok (some f)) : e.known? = none := by
  cases hknown : e.known? with
  | none => rfl
  | some l => cases (fieldPath?_of_known hknown).symm.trans h

end Schema

/-! ## The check -/

/-- What is known beforehand is no lambda. -/
theorem Expr.asLambda?_of_known? {e : Expr} {l : Literal} (h : e.known? = some l) :
    e.asLambda? = none := by
  fun_induction Expr.asLambda? e with
  | case1 => cases h
  | case2 inner ih => exact ih h
  | case3 => rfl

theorem Expr.asLambda?_of_knownItems? {args : List Expr} {literals : List Literal}
    (h : Expr.knownItems? args = some literals) : ∀ arg ∈ args, arg.asLambda? = none := by
  induction args generalizing literals with
  | nil => simp
  | cons arg args ih =>
    simp only [Expr.knownItems?, Option.bind_eq_bind, Option.bind_eq_some_iff] at h
    obtain ⟨l, hl, literals, hliterals, -⟩ := h
    simp only [List.mem_cons, forall_eq_or_imp]
    exact ⟨Expr.asLambda?_of_known? hl, ih hliterals⟩

namespace Scope

variable {s : Scope} {e : Expr} {l : Literal}

theorem isForeign_enter (s : Scope) (p : Param) : (s.enter [p]).isForeign p.name = false := by
  simp [isForeign, classify, enter, push, Frame.binding?]

theorem check_of_asLiteral? (h : e.asLiteral? = some l) (s : Scope) : s.check e = .ok () := by
  have hroot (e : Expr) (h : e.asLiteral? = some l) : s.checkChain e = .ok () := by
    have hnone : e.chainRoot? = none := by
      fun_induction Expr.chainRoot? e with
      | case4 operand type ih => exact ih h
      | case5 inner ih => exact ih h
      | case6 => rfl
      | _ => cases h
    simp [checkChain, hnone]
  fun_induction Expr.strip e with
  | case1 inner ih =>
    have hinner : inner.asLiteral? = some l := h
    simp only [check, hroot _ h, ih hinner]
    rfl
  | case2 operand type ih =>
    have hoperand : operand.asLiteral? = some l := h
    simp only [check, hroot _ h, ih hoperand]
    rfl
  | case3 e hquote hconvert =>
    cases e with
    | literal => rfl
    | quote inner => exact absurd rfl (hquote inner)
    | convert operand type => exact absurd rfl (hconvert operand type)
    | _ => cases h

theorem checkChain_of_fieldPath? {schema : Schema} {f : FieldPath}
    (h : schema.fieldPath? e = .ok (some f)) (hs : s.isForeign f.param = false) :
    s.checkChain e = .ok () := by
  unfold checkChain
  split
  · rename_i name hroot
    rw [Schema.chainRoot?_of_fieldPath? h hroot, hs]
    rfl
  · rfl

/-- **What reads a stored place passes the check**, in a scope in which its parameter is not that of
an enclosing lambda. -/
theorem check_of_fieldPath? {schema : Schema} {e : Expr} {s : Scope} {f : FieldPath}
    (h : schema.fieldPath? e = .ok (some f)) (hs : s.isForeign f.param = false) :
    s.check e = .ok () := by
  -- The bodies of lambdas are smaller, and the scope is another one there.
  induction hn : e.size using Nat.strongRecOn generalizing e s f with
  | _ n ih =>
    have hchain := checkChain_of_fieldPath? h hs
    cases e with
    | param p => exact hchain
    | quote inner =>
      have hinner : s.check inner = .ok () := by
        rw [Schema.fieldPath?] at h
        exact ih _ (by simp [Expr.size] at hn; omega) h hs rfl
      simp only [check, hchain, hinner]
      rfl
    | convert operand type =>
      have hoperand : s.check operand = .ok () := by
        rw [Schema.fieldPath?] at h
        exact ih _ (by simp [Expr.size] at hn; omega) h hs rfl
      simp only [check, hchain, hoperand]
      rfl
    | member target name =>
      obtain ⟨g, hg, hparam⟩ := Schema.fieldPath?_member h
      have htarget : s.check target = .ok () :=
        ih _ (by simp [Expr.size] at hn; omega) hg (hparam ▸ hs) rfl
      simp only [check, hchain, htarget]
      rfl
    | index target position =>
      obtain ⟨g, hg, hparam, l, hl⟩ := Schema.fieldPath?_index h
      have htarget : s.check target = .ok () :=
        ih _ (by simp [Expr.size] at hn; omega) hg (hparam ▸ hs) rfl
      simp only [check, hchain, htarget, check_of_asLiteral? hl]
      rfl
    | call target method args =>
      cases args with
      | nil => cases h
      | cons arg rest =>
        cases rest with
        | cons _ _ => cases h
        | nil =>
          obtain ⟨g, hg, hparam, harg⟩ := Schema.fieldPath?_call h
          have htarget : s.check target = .ok () :=
            ih _ (by simp [Expr.size] at hn; omega) hg (hparam ▸ hs) rfl
          have hknown : target.isKnown = false := by
            simp [Expr.isKnown, Schema.known?_of_fieldPath? hg]
          rcases harg with ⟨l, hl⟩ | ⟨p, body, inner, hl, hbody, hinner⟩
          · have hlambda : arg.asLambda? = none :=
              Expr.asLambda?_of_known? (Expr.known?_of_asLiteral? hl)
            simp only [check, htarget, checkArgs, hlambda, check_of_asLiteral? hl]
            rfl
          · have hsize := Expr.size_lt_of_asUnaryLambda? hl
            have hcheck : (s.enter [p]).check body = .ok () := by
              refine ih _ (by simp [Expr.size, Expr.sizes] at hn; omega) hbody ?_ rfl
              rw [hinner]
              exact isForeign_enter s p
            have hlambda := Expr.asLambda?_of_asUnaryLambda? hl
            simp only [check, htarget, checkArgs, hlambda, hknown, Bool.false_eq_true, if_false,
              checkBody_eq hlambda, hcheck]
            rfl
    | _ => cases h

/-- Arguments that are no lambdas pass if each of them does. -/
theorem checkArgs_eq_ok {args : List Expr} (hlambda : ∀ arg ∈ args, arg.asLambda? = none)
    (hcheck : ∀ arg ∈ args, s.check arg = .ok ()) (known : Bool) :
    s.checkArgs known args = .ok () := by
  induction args with
  | nil => rfl
  | cons arg args ih =>
    simp only [List.mem_cons, forall_eq_or_imp] at hlambda hcheck
    simp only [checkArgs, hlambda.1, hcheck.1, ih hlambda.2 hcheck.2]
    rfl

/-! ## Constants -/

/-- An expression that is known beforehand and may stand in a scope. -/
structure Constant (s : Scope) (e : Expr) (l : Literal) : Prop where
  known : e.known? = some l
  check : s.check e = .ok ()

theorem constant_literal (s : Scope) (l : Literal) : s.Constant (.literal l) l := ⟨rfl, rfl⟩

/-- The negation of a constant number. -/
theorem Constant.negate {l' : Literal} (h : s.Constant e l) (hl : l.negate? = some l') :
    s.Constant (.negate e) l' where
  known := by simp [Expr.known?, h.known, hl]
  check := by simpa [Scope.check] using h.check

end Scope
end DocQuery
