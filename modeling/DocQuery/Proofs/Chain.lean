/-
Chains of stored members, and what a filter and an aggregation expression read
through them.

`Schema.chain?` is the place that a chain of members from a parameter is stored
at. Both kinds of query name that place: in an aggregation expression the chain is
a reference to it (`eval_operandOf_chain`), and a filter that tests it asks about
the value that the same path leads to (`Server.atDocument_of_follow`), as long as
that is no array.
-/
import DocQuery.Aggregation.Unfolding
import DocQuery.Proofs.Aggregation.Evaluation
import DocQuery.Proofs.Filter.Plain
import DocQuery.Proofs.Filter.Server

namespace DocQuery

open DocQuery.Filter Aggregation

/-! ## Places of chains -/

/-- The stored place of a chain of members. A member of a document is stored as an element of it,
and what may be null is stored where its value is. -/
def Schema.chain? (s : Schema) : Expr → Option FieldPath
  | .param p => some (.ofParam p)
  | .member target name =>
    (s.chain? target).bind fun f =>
      if f.type.isNullable && name = "Value" then some { f with type := f.type.underlying }
      else if f.type.isNullable && name = "HasValue" then none
      else
        match s.storedMember? f.type name with
        | .ok (some stored) => some (f.step stored.element stored.type stored.representation)
        | _ => none
  | _ => none

/-- A field of what a parameter of an unknown type stands for. -/
def Expr.fieldOfParam (param name : String) : Expr := .member (.param ⟨param, .any⟩) name

/-- An expression reads a stored field by a chain of members. -/
structure Schema.Reads (s : Schema) (e : Expr) (f : FieldPath) : Prop where
  chain : s.chain? e = some f
  path : f.path ≠ []
  name : isOperator f.dotted = false

/-- A literal in the form in which a place stores it. -/
def Schema.storedForm (s : Schema) (f : FieldPath) (l : Literal) : Result Value :=
  s.encode f.type f.representation (s.coerce l.type f.type l.value)

namespace Schema

variable {s : Schema} {e target : Expr} {name : String} {f : FieldPath}

/-- A member is the value of what may be null, or an element of a document. -/
theorem chain?_member (h : s.chain? (.member target name) = some f) :
    ∃ g, s.chain? target = some g ∧
      ((g.type.isNullable = true ∧ name = "Value" ∧ f = { g with type := g.type.underlying }) ∨
        ((g.type.isNullable && name = "Value") = false ∧
          (g.type.isNullable && name = "HasValue") = false ∧
          ∃ stored, s.storedMember? g.type name = .ok (some stored) ∧
            f = g.step stored.element stored.type stored.representation)) := by
  rw [chain?] at h
  obtain ⟨g, hg, h⟩ := Option.bind_eq_some_iff.1 h
  refine ⟨g, hg, ?_⟩
  split at h
  · rename_i hvalue
    simp only [Bool.and_eq_true, decide_eq_true_eq] at hvalue
    cases h
    exact .inl ⟨hvalue.1, hvalue.2, rfl⟩
  · rename_i hvalue
    split at h
    · cases h
    · rename_i hhas
      split at h
      · rename_i stored hstored
        cases h
        exact .inr ⟨by simpa using hvalue, by simpa using hhas, stored, hstored, rfl⟩
      · cases h

/-- What holds a stored member is a document, or of an unknown type. -/
theorem underlying_of_storedMember? {t : ValueType} {stored : StoredMember}
    (h : s.storedMember? t name = .ok (some stored)) :
    (∃ typeName, t.underlying = .document typeName) ∨ t.underlying = .any := by
  unfold storedMember? at h
  split at h
  · rename_i typeName ht
    exact .inl ⟨typeName, ht⟩
  · rename_i ht
    exact .inr ht
  · cases h

theorem fieldPath?_of_chain? (h : s.chain? e = some f) : s.fieldPath? e = .ok (some f) := by
  fun_induction chain? s e generalizing f with
  | case1 p => cases h; rfl
  | case2 target name ih =>
    obtain ⟨g, hg, ⟨hnull, rfl, rfl⟩ | ⟨hvalue, -, stored, hstored, rfl⟩⟩ := chain?_member h
    · simp only [fieldPath?, ih hg]
      change s.memberOf? g "Value" = _
      simp [memberOf?, hnull]
    · simp only [fieldPath?, ih hg]
      change s.memberOf? g name = _
      simp only [memberOf?, hvalue, Bool.false_eq_true, if_false, hstored]
      rfl
  | case3 => cases h

/-- The declared type of a chain is the type of its place. -/
theorem typeOf_of_chain? (h : s.chain? e = some f) : s.typeOf e = f.type := by
  fun_induction chain? s e generalizing f with
  | case1 p => cases h; rfl
  | case2 target name ih =>
    obtain ⟨g, hg, ⟨hnull, rfl, rfl⟩ | ⟨hvalue, hhas, stored, hstored, rfl⟩⟩ := chain?_member h
    · simp [typeOf, ih hg, memberType, hnull]
    · rw [typeOf, ih hg, memberType_of_storedMember? hvalue hhas hstored]
      rfl
  | case3 => cases h

theorem isReference_of_chain? (h : s.chain? e = some f) : e.isReference = true := by
  fun_induction chain? s e generalizing f with
  | case1 p => rfl
  | case2 target name ih =>
    obtain ⟨g, hg, -⟩ := chain?_member h
    exact ih hg
  | case3 => cases h

theorem positional_of_chain? (h : s.chain? e = some f) : f.positional = false := by
  fun_induction chain? s e generalizing f with
  | case1 p => cases h; rfl
  | case2 target name ih =>
    obtain ⟨g, hg, ⟨-, -, rfl⟩ | ⟨-, -, stored, -, rfl⟩⟩ := chain?_member h
    · exact ih (f := g) hg
    · exact ih (f := g) hg
  | case3 => cases h

/-- A chain is a parameter or a member, without quotations and conversions around it. -/
theorem strip_of_chain? (h : s.chain? e = some f) : e.strip = e := by
  cases e <;> first | rfl | cases h

theorem known?_of_chain? (h : s.chain? e = some f) : e.known? = none := by
  cases e <;> first | rfl | cases h

theorem asLiteral?_of_chain? (h : s.chain? e = some f) : e.asLiteral? = none := by
  cases e <;> first | rfl | cases h

end Schema

/-! ## Chains in aggregation expressions -/

namespace Scope

/-- Only the parameter of a lambda over whole documents can be read in its body. -/
theorem resolve_root_eq_ok {param q : String} {node : Expr} {b : Binding} :
    (root param).resolve q node = .ok b ↔ q = param ∧ b = .root := by
  by_cases hq : q = param
  · subst hq
    simp [resolve, classify, root, push, Frame.of, Frame.binding?, eq_comm]
  · simp [resolve, classify, root, push, Frame.of, Frame.binding?, hq, Ne.symm hq]

end Scope

/-- A reference to a field is read along the steps of its name. -/
theorem Aggregation.eval_fieldRef {eng : Engine} {env : Env} {path : List String} (hne : path ≠ [])
    (hop : isOperator (String.intercalate "." path) = false) :
    eng.eval env (.string (fieldRef path)) =
      follow (.document env.root) (steps (String.intercalate "." path)) := by
  have hempty : path.isEmpty = false := by simpa using hne
  have hchars : (fieldRef path).toList = '$' :: (String.intercalate "." path).toList := by
    simp [fieldRef, hempty]
  have href : isOperator (fieldRef path) = true := by simp [isOperator, hchars]
  simp only [Engine.eval, href, if_true, hchars]
  unfold Env.read
  split
  · rename_i rest hrest
    simp only [List.cons.injEq, true_and] at hrest
    simp [isOperator, hrest] at hop
  · rename_i rest _ hrest
    simp only [List.cons.injEq, true_and] at hrest
    rw [← hrest, String.ofList_toList]
  · rename_i hnot
    exact absurd rfl (hnot _)

namespace Mapping

variable {m : Mapping} {e : Expr} {f : FieldPath} {p : Param} {o : Value}

/-- A chain translates to a reference to what its parameter stands for. -/
theorem operandOf_chain_of_scope {s : Scope} (h : m.schema.chain? e = some f)
    (ho : m.operandOf e s = .ok o) : ∃ b, s.resolve f.param e = .ok b ∧
      (∀ base, b = .path base → o = .string (fieldRef (base ++ f.path))) ∧
      ∀ name, b = .variable name → o = .string (variableRef name f.path) := by
  have hpos := Schema.positional_of_chain? h
  rw [operandOf_eq, operandNode] at ho
  obtain ⟨r, hr, ho⟩ := bind_eq_ok.1 ho
  unfold reference? at hr
  simp only [Schema.isReference_of_chain? h, Schema.fieldPath?_of_chain? h, Bool.not_true,
    Bool.false_eq_true, if_false] at hr
  change (if f.positional then _ else _) = _ at hr
  rw [hpos] at hr
  obtain ⟨b, hb, hr⟩ := bind_eq_ok.1 hr
  refine ⟨b, hb, ?_, ?_⟩ <;>
  · rintro _ rfl
    cases hr
    cases ho
    rfl

/-- A chain translates to the reference to its place. -/
theorem operandOf_chain (h : m.schema.chain? e = some f)
    (ho : m.operandOf e (.root p.name) = .ok o) :
    f.param = p.name ∧ o = .string (fieldRef f.path) := by
  obtain ⟨b, hb, hpath, -⟩ := operandOf_chain_of_scope h ho
  obtain ⟨hparam, rfl⟩ := Scope.resolve_root_eq_ok.1 hb
  exact ⟨hparam, hpath [] rfl⟩

/-- What a selector over whole documents reads is a reference, unless it is a position. -/
theorem reference?_of_fieldPath? (href : e.isReference = true)
    (hf : m.schema.fieldPath? e = .ok (some f)) (hpos : f.positional = false)
    (hp : f.param = p.name) :
    m.reference? e (.root p.name) = .ok (some (.string (fieldRef f.path))) := by
  unfold reference?
  simp only [href, hf, Bool.not_true, Bool.false_eq_true, if_false]
  change (if f.positional then _ else _) = _
  rw [hpos]
  change (Scope.root p.name).resolve f.param e >>= _ = _
  rw [Scope.resolve_root_eq_ok.2 ⟨hp, rfl⟩]
  rfl

theorem reference?_of_chain (h : m.schema.chain? e = some f) (hp : f.param = p.name) :
    m.reference? e (.root p.name) = .ok (some (.string (fieldRef f.path))) :=
  reference?_of_fieldPath? (Schema.isReference_of_chain? h) (Schema.fieldPath?_of_chain? h)
    (Schema.positional_of_chain? h) hp

theorem operandOf_of_chain (h : m.schema.chain? e = some f) (hp : f.param = p.name) :
    m.operandOf e (.root p.name) = .ok (.string (fieldRef f.path)) := by
  rw [operandOf_eq, operandNode, reference?_of_chain h hp]
  rfl

/-- A field has the value that its path leads to. -/
theorem eval_operandOf_chain {eng : Engine} {d : Document} (h : m.schema.Reads e f)
    (ho : m.operandOf e (.root p.name) = .ok o) :
    eng.eval { root := d } o = follow (.document d) (steps f.dotted) := by
  obtain ⟨-, rfl⟩ := operandOf_chain h.chain ho
  exact eval_fieldRef h.path h.name

end Mapping

/-! ## Chains in filters -/

namespace Server

variable (srv : Server)

theorem atValue_of_follow {v : Value} {path : List String}
    (h : ∀ items, follow v path ≠ some (.array items)) (op : String) (x : Value) :
    srv.atValue v path op x = srv.passes op x (follow v path) := by
  induction path generalizing v with
  | nil =>
    cases v with
    | array items => exact absurd rfl (h items)
    | _ => rfl
  | cons key path ih =>
    cases v with
    | array items => exact absurd rfl (h _)
    | document d =>
      rw [follow_document] at h ⊢
      change srv.atDocument d (key :: path) op x = _
      rw [atDocument_cons]
      cases hd : Document.get? d key with
      | none => rfl
      | some v => exact ih fun items => by simpa [hd] using h items
    | _ => rfl

/-- A filter tests the value that the path leads to, if it is no array. -/
theorem atDocument_of_follow {d : Document} {path : List String} (hne : path ≠ [])
    (h : ∀ items, follow (.document d) path ≠ some (.array items)) (op : String) (x : Value) :
    srv.atDocument d path op x = srv.passes op x (follow (.document d) path) := by
  obtain ⟨key, path, rfl⟩ := List.exists_cons_of_ne_nil hne
  exact srv.atValue_of_follow h op x

end Server

namespace Mapping

variable {m : Mapping} {e : Expr} {f : FieldPath} {p : Param}

/-- A chain reads the place below what its parameter stands for. -/
theorem target?_of_resolve {s : Scope} {base : List String} (h : m.schema.chain? e = some f)
    (hresolve : s.resolve f.param e = .ok (.path base)) :
    m.target? e s = .ok (some ⟨base ++ f.path, f.type, f.representation⟩) := by
  unfold target?
  rw [Schema.fieldPath?_of_chain? h]
  simp only [bind, Except.bind, hresolve]
  rfl

/-- What is read is a stored place below what its parameter stands for. -/
theorem target_eq_ok_iff {s : Scope} {t : Target} :
    m.target e s = .ok t ↔ ∃ f base, m.schema.fieldPath? e = .ok (some f) ∧
      s.resolve f.param e = .ok (.path base) ∧ t = ⟨base ++ f.path, f.type, f.representation⟩ := by
  unfold target targetOr target?
  constructor
  · intro h
    obtain ⟨o, ho, h⟩ := bind_eq_ok.1 h
    cases o with
    | none => cases h
    | some t' =>
      cases h
      obtain ⟨o', ho', h⟩ := bind_eq_ok.1 ho
      cases o' with
      | none => cases h
      | some f =>
        obtain ⟨b, hb, h⟩ := bind_eq_ok.1 h
        cases b with
        | path base =>
          cases h
          exact ⟨f, base, ho', hb, rfl⟩
        | _ => cases h
  · rintro ⟨f, base, hf, hb, rfl⟩
    rw [hf]
    simp only [bind, Except.bind, hb]
    rfl

/-- What a predicate over whole documents reads has the name of its path. -/
theorem target_root_eq_ok {param : String} {t : Target} :
    m.target e (.root param) = .ok t ↔ ∃ f, m.schema.fieldPath? e = .ok (some f) ∧
      f.param = param ∧ t = ⟨f.path, f.type, f.representation⟩ := by
  rw [target_eq_ok_iff]
  refine exists_congr fun f => ?_
  constructor
  · rintro ⟨base, hf, hb, rfl⟩
    obtain ⟨hp, hroot⟩ := Scope.resolve_root_eq_ok.1 hb
    cases hroot
    exact ⟨hf, hp, rfl⟩
  · rintro ⟨hf, hp, rfl⟩
    exact ⟨[], hf, Scope.resolve_root_eq_ok.2 ⟨hp, rfl⟩, rfl⟩

theorem target?_chain (h : m.schema.chain? e = some f) (hp : f.param = p.name) :
    m.target? e (.root p.name) = .ok (some ⟨f.path, f.type, f.representation⟩) :=
  target?_of_resolve h (Scope.resolve_root_eq_ok.2 ⟨hp, rfl⟩)

end Mapping
end DocQuery
