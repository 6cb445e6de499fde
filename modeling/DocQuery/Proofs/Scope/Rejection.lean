/-
Illegal scope references are rejected exactly (`rejectsForeign_of_closed`).

A query over a closed lambda with one parameter fails for an illegal scope
reference if and only if a parameter occurs foreign in its body, and the failure
names one that does. The check before the translation finds all of them: no
reading of a body that it has accepted raises another one, wherever in the body
it is.
-/
import DocQuery.Aggregation.Stage
import DocQuery.Inclusion
import DocQuery.Proofs.Chain
import DocQuery.Proofs.Scope.Filter
import DocQuery.Proofs.Scope.Operand

namespace DocQuery

/-! ## Inclusions and projections -/

namespace Schema

variable {schema : Schema} {fs : Frames} {param : String}

theorem legal_copiedField (paths : List (List String)) {e : Expr} (h : e.Readable fs) :
    Legal (schema.copiedField param paths e) := by
  refine Post.bind (post_fieldPath? e h) fun o _ => ?_
  cases o with
  | none => trivial
  | some f =>
    dsimp only
    split
    · trivial
    · split <;> trivial

mutual
theorem legal_copied : ∀ (e : Expr) (paths : List (List String)), e.Readable fs →
    Legal (schema.copied param paths e)
  | .quote inner, paths, h =>
    legal_copied inner paths fun hl => (h hl).same (by simp [Expr.parts])
  | .convert operand _, paths, h =>
    legal_copied operand paths ((h rfl).same (by simp [Expr.parts])).readable
  | .object _ members, paths, h =>
    Legal.bind (legal_copiedMembers members paths fun p hp =>
      ((h rfl).same (by simp only [Expr.parts, List.mem_map]; exact ⟨p, hp, rfl⟩)).readable)
      fun _ => trivial
  | .literal _, paths, h | .param _, paths, h | .member .., paths, h | .call .., paths, h
  | .staticCall .., paths, h | .index .., paths, h | .not _, paths, h | .negate _, paths, h
  | .binary .., paths, h | .conditional .., paths, h | .collection .., paths, h
  | .lambda .., paths, h | .typeTest .., paths, h | .inject _, paths, h =>
    legal_copiedField paths h
theorem legal_copiedMembers : ∀ (members : List (String × Expr)) (paths : List (List String)),
    (∀ p ∈ members, p.2.Readable fs) → Legal (schema.copiedMembers param paths members)
  | [], _, _ => trivial
  | (name, e) :: rest, paths, h => by
    refine Legal.bind (legal_copied e paths (h (name, e) (by simp))) fun r => ?_
    obtain ⟨shape, paths'⟩ := r
    cases shape with
    | none => trivial
    | some shape =>
      exact Legal.bind (legal_copiedMembers rest paths' fun p hp => h p (by simp [hp]))
        fun _ => trivial
end

end Schema

namespace Mapping

variable {m : Mapping} {s : Scope} {fs : Frames}

theorem legal_projectedMembers (hs : s.Models fs) (typeName : Option String)
    {members : List (String × Expr)} (h : ∀ p ∈ members, p.2.Readable fs) :
    Legal (m.projectedMembers typeName members s) :=
  legal_mapM fun p hp => Legal.bind (legal_outputElement typeName p.1) fun _ =>
    Legal.bind (legal_operandOf m p.2 hs (h p hp)) fun _ => trivial

theorem readable_of_asObject? {e : Expr} {typeName : Option String}
    {members : List (String × Expr)} (h : e.Readable fs)
    (ho : e.asObject? = some (typeName, members)) : ∀ p ∈ members, p.2.Readable fs := by
  unfold Expr.asObject? at ho
  split at ho
  · rename_i he
    cases ho
    intro p hp
    refine ((h.owns_strip he rfl).same ?_).readable
    simp only [Expr.parts, List.mem_map]
    exact ⟨p, hp, rfl⟩
  · cases ho

end Mapping

/-! ## Queries -/

/-- The outcome is an illegal scope reference exactly if a parameter occurs foreign, and then the
reference names one that does. -/
def RejectsForeign {α : Type} (fs : Frames) (e : Expr) (r : Result α) : Prop :=
  ((∃ err, r = .error err ∧ err.kind = .illegalScopeReference) ↔
    ∃ name, e.OccursForeign fs name) ∧
  ∀ err, r = .error err → err.kind = .illegalScopeReference →
    ∃ name, err.param? = some name ∧ e.OccursForeign fs name

/-- A query that checks its body first and then does what raises no illegal scope reference. -/
theorem rejectsForeign_of_check {α : Type} {s : Scope} {fs : Frames} {body : Expr}
    (hs : s.Models fs) {rest : Result α} (hrest : s.check body = .ok () → Legal rest) :
    RejectsForeign fs body (s.check body >>= fun _ => rest) := by
  have hcheck := Scope.post_check body hs
  cases hc : s.check body with
  | ok u =>
    rw [hc] at hcheck
    have hlegal := hrest hc
    have hnone : ∀ err, rest = .error err → err.kind ≠ .illegalScopeReference :=
      fun err herr => hlegal.of_error herr
    refine ⟨⟨?_, ?_⟩, ?_⟩
    · rintro ⟨err, herr, hkind⟩
      exact absurd hkind (hnone err herr)
    · rintro ⟨name, hname⟩
      exact absurd hname (hcheck name)
    · intro err herr hkind
      exact absurd hkind (hnone err herr)
  | error err =>
    rw [hc] at hcheck
    obtain ⟨node, name, rfl, hoccurs⟩ := hcheck
    refine ⟨⟨fun _ => ⟨name, hoccurs⟩, fun _ => ⟨_, rfl, rfl⟩⟩, ?_⟩
    rintro err ⟨⟩ _
    exact ⟨name, rfl, hoccurs⟩

namespace Mapping

/-- **Scope rejection is exact.** Of a closed lambda with one parameter, each kind of query is
rejected for an illegal scope reference if and only if a parameter occurs foreign in the body, and
one that does is named. Once the check has accepted the body, no part of it raises an illegal scope
reference where it stands, be it read as a filter, as an aggregation expression, as a copied value
or as a stored field. -/
theorem rejectsForeign_of_closed (m : Mapping) {selector body : Expr} {p : Param}
    (hl : selector.asUnaryLambda? = some (p, body)) (hc : body.Closed ⟨[p.name], []⟩) :
    RejectsForeign ⟨[p.name], []⟩ body (m.filter selector) ∧
    RejectsForeign ⟨[p.name], []⟩ body (m.project selector) ∧
    RejectsForeign ⟨[p.name], []⟩ body (m.inclusion? selector) ∧
    ((Scope.root p.name).check body = .ok () →
      ∀ fs e, body.Within ⟨[p.name], []⟩ fs e → ∀ s : Scope, s.Models fs →
        Legal (m.filterOf e s) ∧ Legal (m.operandOf e s) ∧
        (∀ param paths, Legal (m.schema.copied param paths e)) ∧
        Legal (m.schema.fieldPath? e)) := by
  have hs := Scope.models_root p.name
  have howns (hcheck : (Scope.root p.name).check body = .ok ()) : body.Owns ⟨[p.name], []⟩ :=
    Expr.owns_of_closed hc ((Scope.post_check body hs).of_ok hcheck)
  refine ⟨?_, ?_, ?_, ?_⟩
  · unfold filter
    rw [hl]
    refine rejectsForeign_of_check hs fun hcheck => ?_
    exact legal_filterOf m body hs (howns hcheck).readable
  · unfold project
    rw [hl]
    refine rejectsForeign_of_check hs fun hcheck => ?_
    have hread := (howns hcheck).readable
    split
    · rename_i ho
      have hmembers := readable_of_asObject? hread ho
      exact Legal.bind (legal_projectedMembers hs _ hmembers) fun _ => trivial
    · exact Legal.bind (legal_operandOf m _ hs hread.strip) fun _ => trivial
  · unfold inclusion?
    rw [hl]
    refine rejectsForeign_of_check hs fun hcheck => ?_
    exact Legal.bind (Schema.legal_copied body [] (howns hcheck).readable) fun _ => trivial
  · intro hcheck fs e hw s hscope
    have hread := ((howns hcheck).within hw).readable
    exact ⟨legal_filterOf m e hscope hread, legal_operandOf m e hscope hread,
      fun _ paths => Schema.legal_copied e paths hread,
      (Schema.post_fieldPath? e hread).mono (fun _ _ => trivial) fun _ h => h⟩

/-- Some item `i` of the field `Items` of `x` has an `A` that equals the `B` of `x`. -/
def comparesWithOuter : Expr :=
  .call (.fieldOfParam "x" "Items") "Any"
    [.lambda [⟨"i", .any⟩] (.binary .equal (.fieldOfParam "i" "A") (.fieldOfParam "x" "B"))]

/-- A nested lambda that reads the parameter of the one around it: `x` is bound, but foreign. -/
theorem rejectsForeign_comparesWithOuter :
    comparesWithOuter.Closed ⟨["x"], []⟩ ∧ comparesWithOuter.OccursForeign ⟨["x"], []⟩ "x" ∧
    ∃ err, (mk {} {}).filter (.lambda [⟨"x", .any⟩] comparesWithOuter) = .error err ∧
      err.kind = .illegalScopeReference := by
  have hfield {fs : Frames} {param : String} (name : String) (h : fs.Bound param) :
      (Expr.fieldOfParam param name).Closed fs := by
    refine Expr.closed_of_parts (by rintro _ ⟨⟩) ?_
    simp only [Expr.fieldOfParam, Expr.parts, List.mem_singleton, forall_eq]
    refine Expr.closed_of_parts ?_ (by simp [Expr.parts])
    rintro p ⟨⟩
    exact h
  have hclosed : comparesWithOuter.Closed ⟨["x"], []⟩ := by
    refine Expr.closed_of_parts (by rintro _ ⟨⟩) ?_
    simp only [comparesWithOuter, Expr.parts, Expr.argument, Expr.asLambda?, List.map_cons,
      List.map_nil, List.mem_cons, List.not_mem_nil, or_false, forall_eq_or_imp, forall_eq]
    refine ⟨hfield "Items" (by simp [Frames.Bound, Entry.frames]), ?_⟩
    refine Expr.closed_of_parts (by rintro _ ⟨⟩) ?_
    simp only [Expr.parts, List.mem_cons, List.not_mem_nil, or_false, forall_eq_or_imp, forall_eq]
    exact ⟨hfield "A" (.inl (by simp [Entry.frames, Expr.fieldOfParam, Expr.isKnown, Expr.known?])),
      hfield "B" (.inr (by simp [Entry.frames, Expr.fieldOfParam, Expr.isKnown, Expr.known?]))⟩
  have hoccurs : comparesWithOuter.OccursForeign ⟨["x"], []⟩ "x" := by
    have hbody : (.opens [⟨"i", .any⟩],
        .binary .equal (.fieldOfParam "i" "A") (.fieldOfParam "x" "B")) ∈
          comparesWithOuter.parts := by
      simp [comparesWithOuter, Expr.parts, Expr.argument, Expr.asLambda?, Expr.fieldOfParam,
        Expr.isKnown, Expr.known?]
    have hright : (.same, .fieldOfParam "x" "B") ∈
        (Expr.binary .equal (.fieldOfParam "i" "A") (.fieldOfParam "x" "B")).parts := by
      simp [Expr.parts]
    have hparam : (.same, .param ⟨"x", .any⟩) ∈ (Expr.fieldOfParam "x" "B").parts := by
      simp [Expr.fieldOfParam, Expr.parts]
    exact ⟨⟨["i"], [["x"]]⟩, ⟨"x", .any⟩,
      .part hbody (.of_same hright (.of_same hparam .refl)), rfl, by simp [Frames.Foreign]⟩
  have hlambda : (Expr.lambda [⟨"x", .any⟩] comparesWithOuter).asUnaryLambda? =
      some (⟨"x", .any⟩, comparesWithOuter) := rfl
  obtain ⟨hfilter, -⟩ := rejectsForeign_of_closed (mk {} {}) hlambda hclosed
  exact ⟨hclosed, hoccurs, hfilter.1.2 ⟨"x", hoccurs⟩⟩

end Mapping
end DocQuery
