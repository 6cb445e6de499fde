/-
How the database applies a projection stage to a document.

Under a member, a bare number or truth value says whether the stored field of that
name is returned; all else is an expression whose value is returned, if it has
one. The identifier is returned unless the stage says something about it.

A stage of members that are written as such (`stageMember`) returns the value of
each expression under its name (`get?_project`), and from the stage of a single
expression its value is read (`returns_valueStage`).
-/
import DocQuery.Aggregation.Stage
import DocQuery.Proofs.Aggregation.Evaluation
import DocQuery.Proofs.Document
import DocQuery.Proofs.Result

namespace DocQuery

open DocQuery.Filter Aggregation

/-- Whether a member of a stage is a flag. -/
def Value.isFlag : Value → Bool
  | .bool _ | .int32 _ | .int64 _ | .double _ | .decimal _ => true
  | _ => false

/-- Whether a name is that of one field. -/
def isFieldName (name : String) : Bool :=
  name ≠ "" && !isOperator name && !name.toList.contains '.'

namespace Aggregation.Engine

variable (eng : Engine)

/-- What a member of a stage returns of a document. -/
def projected (d : Document) (name : String) (member : Value) : Option Value :=
  if member.isFlag then if eng.isTrue member then d.get? name else none
  else eng.eval { root := d } member

/-- What a stage returns of a document, if it is a stage. -/
def project (d body : Document) : Option Document :=
  if body.all fun (name, _) => isFieldName name then
    let id := if body.hasKey "_id" then [] else (d.get? "_id").toList.map ("_id", ·)
    some (id ++ body.filterMap fun (name, member) => (eng.projected d name member).map (name, ·))
  else none

end Aggregation.Engine

theorem isFlag_stageMember (v : Value) : (stageMember v).isFlag = false := by
  cases v <;> rfl

namespace Document

/-- What a stage returns under a name is what its member of that name returns. -/
theorem get?_filterMap (g : String → Value → Option Value) {body : Document} {k : String}
    {v : Value} (hbody : body.keys.Nodup) (h : (k, v) ∈ body) :
    Document.get? (body.filterMap fun (k, v) => (g k v).map (k, ·)) k = g k v := by
  induction body with
  | nil => cases h
  | cons e rest ih =>
    obtain ⟨k', v'⟩ := e
    simp only [keys, List.map_cons, List.nodup_cons] at hbody
    rcases List.mem_cons.1 h with he | h
    · cases he
      cases hg : g k v with
      | some x => simp [hg, get?]
      | none =>
        rw [List.filterMap_cons]
        simp only [hg, Option.map_none]
        refine get?_eq_none fun hk => hbody.1 ?_
        obtain ⟨e, he, rfl⟩ := List.mem_map.1 hk
        obtain ⟨e', he', hmap⟩ := List.mem_filterMap.1 he
        obtain ⟨x, -, rfl⟩ := Option.map_eq_some_iff.1 hmap
        exact List.mem_map.2 ⟨e', he', rfl⟩
    · have hne : k' ≠ k := by
        rintro rfl
        exact hbody.1 (List.mem_map_of_mem h)
      rw [List.filterMap_cons]
      cases hg : g k' v' with
      | none => simpa [hg] using ih hbody.2 h
      | some x => simpa [hg, get?, hne] using ih hbody.2 h

end Document

/-- What a stage returns for a document. -/
def Stage.Returns (stage : Stage) (eng : Engine) (d : Document) (v : Value) : Prop :=
  ∃ result, eng.project d stage.body = some result ∧ stage.shape.read result = .ok v

namespace Mapping

variable {m : Mapping} {selector body : Expr} {p : Param} {stage : Stage}

theorem projectedMembers_cons {typeName : Option String} {name : String} {e : Expr}
    {rest : List (String × Expr)} {s : Scope} {projected : List (String × Value × String)}
    (h : m.projectedMembers typeName ((name, e) :: rest) s = .ok projected) :
    ∃ element v others, m.outputElement typeName name = .ok element ∧ m.operandOf e s = .ok v ∧
      m.projectedMembers typeName rest s = .ok others ∧
      projected = (element, stageMember v, name) :: others := by
  rw [projectedMembers, List.mapM_cons] at h
  obtain ⟨first, hfirst, h⟩ := bind_eq_ok.1 h
  obtain ⟨others, hothers, h⟩ := bind_eq_ok.1 h
  obtain ⟨element, helement, hfirst⟩ := bind_eq_ok.1 hfirst
  obtain ⟨v, hv, hfirst⟩ := bind_eq_ok.1 hfirst
  cases h
  cases hfirst
  exact ⟨element, v, others, helement, hv, hothers, rfl⟩

/-- No member of a new object is a flag. -/
theorem isFlag_projectedMembers {typeName : Option String} {members : List (String × Expr)}
    {s : Scope} {projected : List (String × Value × String)}
    (h : m.projectedMembers typeName members s = .ok projected) :
    ∀ q ∈ projected, q.2.1.isFlag = false := by
  induction members generalizing projected with
  | nil => cases h; simp
  | cons q rest ih =>
    obtain ⟨element, v, others, -, -, hothers, rfl⟩ := projectedMembers_cons h
    exact List.forall_mem_cons.2 ⟨isFlag_stageMember v, ih hothers⟩

/-- The stage of a new object. -/
theorem project_object {typeName : Option String} {members : List (String × Expr)}
    (hl : selector.asUnaryLambda? = some (p, body))
    (hb : body.asObject? = some (typeName, members)) (h : m.project selector = .ok stage) :
    ∃ projected, m.projectedMembers typeName members (.root p.name) = .ok projected ∧
      stage =
        { body := withoutId (Document.ofFields (projected.map fun (element, v, _) => (element, v)))
          shape := .object
            (projected.map fun (element, _, name) => (name, .computed [element])) } := by
  unfold project at h
  simp only [hl] at h
  obtain ⟨-, -, h⟩ := bind_eq_ok.1 h
  simp only [hb] at h
  obtain ⟨projected, hprojected, h⟩ := bind_eq_ok.1 h
  cases h
  exact ⟨projected, hprojected, rfl⟩

/-- The stage of a value. -/
def valueStage (operand : Value) : Stage where
  body := withoutId [(Stage.valueName, stageMember operand)]
  shape := .computed [Stage.valueName]

theorem project_value (hl : selector.asUnaryLambda? = some (p, body)) (hb : body.asObject? = none)
    (h : m.project selector = .ok stage) :
    ∃ v, m.operandOf body.strip (.root p.name) = .ok v ∧ stage = valueStage v := by
  unfold project at h
  simp only [hl] at h
  obtain ⟨-, -, h⟩ := bind_eq_ok.1 h
  simp only [hb] at h
  obtain ⟨v, hv, h⟩ := bind_eq_ok.1 h
  cases h
  exact ⟨v, hv, rfl⟩

/-- A computed value is read where it is returned. -/
theorem read_computed (element : String) (result : Document) :
    Shape.read (.computed [element]) result = .ok ((result.get? element).getD .null) := by
  rw [Shape.read, Shape.lookUp]
  split
  · rename_i h; simp [h]
  · rename_i h; simp [h]
  · rename_i v _ h; simp [h]

/-- The fields of a stage with the flag for the identifier, if it has no such member. -/
theorem withoutId_eq (fields : Document) :
    withoutId fields = fields ∧ fields.hasKey "_id" = true ∨
      withoutId fields = fields ++ [("_id", .int32 0)] ∧ "_id" ∉ fields.keys := by
  unfold withoutId
  split
  · rename_i h
    exact .inl ⟨rfl, h⟩
  · rename_i h
    have hnone : fields.get? "_id" = none := by simpa [Document.hasKey] using h
    refine .inr ⟨Document.insert_eq_append hnone _, fun hmem => ?_⟩
    obtain ⟨e, he, hid⟩ := List.mem_map.1 hmem
    have := Document.hasKey_of_mem he
    rw [hid] at this
    simp [Document.hasKey, hnone] at this

theorem mem_withoutId {fields : Document} {field : String × Value} (h : field ∈ fields) :
    field ∈ withoutId fields := by
  rcases withoutId_eq fields with ⟨hid, -⟩ | ⟨hid, -⟩
  · rwa [hid]
  · rw [hid]
    exact List.mem_append_left _ h

/-- A stage of expressions under distinct names returns the value of each under its name. -/
theorem get?_project (eng : Engine) (d : Document) {fields : Document}
    (hnames : ∀ e ∈ fields, isFieldName e.1 = true) (hnodup : fields.keys.Nodup)
    (hflags : ∀ e ∈ fields, e.2.isFlag = false) :
    ∃ result, eng.project d (withoutId fields) = some result ∧
      ∀ e ∈ fields, Document.get? result e.1 = eng.eval { root := d } e.2 := by
  have hbody : (withoutId fields).keys.Nodup ∧
      ((withoutId fields).all fun (name, _) => isFieldName name) = true := by
    have hall : (fields.all fun (name, _) => isFieldName name) = true := by
      simpa [List.all_eq_true] using hnames
    rcases withoutId_eq fields with ⟨hid, -⟩ | ⟨hid, hmem⟩
    · rw [hid]
      exact ⟨hnodup, hall⟩
    · rw [hid]
      refine ⟨?_, ?_⟩
      · simp only [Document.keys, List.map_append, List.nodup_append]
        refine ⟨hnodup, by simp, ?_⟩
        rintro k hk k' hk' rfl
        simp only [List.map_cons, List.map_nil, List.mem_singleton] at hk'
        exact hmem (hk' ▸ hk)
      · rw [List.all_append, hall]
        decide
  obtain ⟨hkeys, hall⟩ := hbody
  refine ⟨_, by rw [Engine.project, if_pos hall], fun e he => ?_⟩
  obtain ⟨k, v⟩ := e
  have hbodyGet := Document.get?_filterMap (eng.projected d) hkeys (mem_withoutId he)
  have hvalue : eng.projected d k v = eng.eval { root := d } v := by
    simp [Engine.projected, hflags _ he]
  rw [Document.get?_append, hbodyGet, hvalue]
  -- The identifier of the document stands first only if no member has its name.
  by_cases hid : k = "_id"
  · have hkey : (withoutId fields).hasKey "_id" = true :=
      hid ▸ Document.hasKey_of_mem (mem_withoutId he)
    simp [hkey, Document.get?]
  · have hnone : Document.get?
        (if (withoutId fields).hasKey "_id" then [] else (d.get? "_id").toList.map ("_id", ·)) k =
          none := by
      split
      · rfl
      · cases d.get? "_id" with
        | none => rfl
        | some x => simp [Document.get?, Ne.symm hid]
    rw [hnone]
    rfl

/-- The stage of a value returns it, or null if there is none. -/
theorem returns_valueStage {eng : Engine} {d : Document} {o v : Value} :
    (valueStage o).Returns eng d v ↔ (eng.eval { root := d } o).getD .null = v := by
  have hnames : ∀ e ∈ [(Stage.valueName, stageMember o)], isFieldName e.1 = true := by
    intro e he
    cases List.mem_singleton.1 he
    exact (by decide : isFieldName Stage.valueName = true)
  obtain ⟨result, hresult, hget⟩ := get?_project eng d hnames (by simp [Document.keys])
    (by simp [isFlag_stageMember])
  have hread : (valueStage o).shape.read result =
      .ok ((eng.eval { root := d } o).getD .null) := by
    have hvalue := hget _ (List.mem_singleton_self _)
    rw [eval_stageMember] at hvalue
    exact (read_computed _ result).trans (by rw [hvalue])
  constructor
  · rintro ⟨result', hresult', hread'⟩
    cases hresult.symm.trans hresult'
    exact Except.ok.inj (hread.symm.trans hread')
  · rintro rfl
    exact ⟨result, hresult, hread⟩

end Mapping
end DocQuery
