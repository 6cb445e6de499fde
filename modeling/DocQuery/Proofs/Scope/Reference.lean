/-
Reading stored fields raises no illegal scope reference where every parameter is
bound by the innermost frame.

The field path of an expression starts from a parameter that stands where the
expression does (`post_fieldPath?`), so a scope with the same parameters gives it
a meaning (`legal_target?`, `legal_reference?`). What is read from the mapping
alone fails for other reasons only.

An argument that is a lambda is not read as a value: it is refused, whatever its
body reads. So what is asked of an expression that is read is asked of it unless
it is a lambda (`Expr.Readable`).
-/
import DocQuery.Aggregation.Operand
import DocQuery.Filter.Target
import DocQuery.Proofs.Scope.Position

namespace DocQuery

/-- The cause is not an illegal scope reference. -/
def Error.Legal (e : Error) : Prop := e.kind ≠ .illegalScopeReference

/-- The outcome is not an illegal scope reference. -/
abbrev Legal {α : Type} (r : Result α) : Prop := Post (fun _ => True) Error.Legal r

theorem Error.legal_unsupported (node : Expr) : (Error.unsupported node).Legal := by
  simp [Error.Legal, Error.kind]

section Legal
variable {α β : Type}

theorem legal_pure (a : α) : Legal (pure a) := trivial

theorem legal_unsupported (node : Expr) : Legal (.error (.unsupported node) : Result α) :=
  Error.legal_unsupported node

theorem Legal.bind {x : Result α} {f : α → Result β} (hx : Legal x) (hf : ∀ a, Legal (f a)) :
    Legal (x >>= f) :=
  Post.bind hx fun a _ => hf a

theorem Legal.map {x : Result α} (hx : Legal x) (f : α → β) : Legal (f <$> x) :=
  Post.map hx fun _ _ => trivial

theorem legal_mapM {xs : List α} {f : α → Result β} (h : ∀ x ∈ xs, Legal (f x)) :
    Legal (xs.mapM f) := by
  induction xs with
  | nil => trivial
  | cons x rest ih =>
    rw [List.mapM_cons]
    refine Legal.bind (h x (by simp)) fun _ => ?_
    exact Legal.bind (ih fun y hy => h y (by simp [hy])) fun _ => trivial

end Legal

/-! ## The mapping -/

namespace Schema

variable (schema : Schema)

theorem legal_storedMember? (owner : ValueType) (name : String) :
    Legal (schema.storedMember? owner name) := by
  unfold storedMember?
  split
  · split
    · trivial
    · split
      · simp [Error.Legal, Error.kind]
      · trivial
  · trivial
  · trivial

theorem legal_discriminator (nominal actual : String) :
    Legal (schema.discriminator nominal actual) := by
  unfold discriminator
  split
  · trivial
  · split
    · trivial
    · simp [Error.Legal, Error.kind]

theorem legal_represent (r : Representation) (x : Value) : Legal (represent r x) := by
  unfold represent
  split
  all_goals first | trivial | (split <;> simp [Error.Legal, Error.kind])

theorem legal_encodeEnum (name : String) (r : Representation) (x : Value) :
    Legal (schema.encodeEnum name r x) := by
  refine Legal.bind ?_ fun n => ?_
  · unfold enumNumber
    split
    · trivial
    · trivial
    · split <;> simp [Error.Legal, Error.kind]
    · simp [Error.Legal, Error.kind]
  · split <;> trivial

mutual
theorem legal_encode (t : ValueType) (r : Representation) : ∀ x : Value, Legal (schema.encode t r x)
  | .null => trivial
  | .array items => by
    simp only [encode]
    split
    · exact Legal.bind (legal_encodeItems _ r items) fun _ => trivial
    · exact schema.legal_encodeEnum _ r _
    · trivial
  | .document fields => by
    simp only [encode]
    split
    · exact schema.legal_encodeEnum _ r _
    · exact Legal.bind (legal_encodeMembers _ fields) fun _ => trivial
    · exact Legal.bind (legal_encodeEntries _ r fields) fun _ => trivial
    · trivial
  | .bool _ | .int32 _ | .int64 _ | .double _ | .string _ | .objectId _ | .dateTime _ | .regex _ _
  | .decimal _ | .binary _ | .timestamp _ _ | .symbol _ | .javaScript _ | .minKey | .maxKey
  | .undefined => by
    simp only [encode]
    split
    · exact schema.legal_encodeEnum _ r _
    · trivial
    · trivial
    · exact legal_represent r _
theorem legal_encodeItems (t : ValueType) (r : Representation) :
    ∀ xs : List Value, Legal (schema.encodeItems t r xs)
  | [] => trivial
  | x :: rest =>
    Legal.bind (legal_encode t r x) fun _ =>
      Legal.bind (legal_encodeItems t r rest) fun _ => trivial
theorem legal_encodeMembers (typeName : String) :
    ∀ fields : List (String × Value), Legal (schema.encodeMembers typeName fields)
  | [] => trivial
  | (name, x) :: rest => by
    have hrest := legal_encodeMembers typeName rest
    simp only [encodeMembers, pure_bind]
    split
    · exact Legal.bind (legal_encode _ _ x) fun _ => Legal.bind hrest fun _ => trivial
    · exact Legal.bind hrest fun _ => trivial
theorem legal_encodeEntries (t : ValueType) (r : Representation) :
    ∀ fields : List (String × Value), Legal (schema.encodeEntries t r fields)
  | [] => trivial
  | (_, x) :: rest =>
    Legal.bind (legal_encode t r x) fun _ =>
      Legal.bind (legal_encodeEntries t r rest) fun _ => trivial
end

end Schema

/-! ## Expressions that are read -/

namespace Expr

variable {fs : Frames} {e : Expr}

/-- Every parameter of the expression is bound by the innermost frame where it occurs, unless the
expression is a lambda. -/
def Readable (fs : Frames) (e : Expr) : Prop := e.asLambda? = none → Owns fs e

theorem Owns.readable (h : Owns fs e) : Readable fs e := fun _ => h

theorem Owns.same {e₁ : Expr} (h : Owns fs e) (hpart : (.same, e₁) ∈ e.parts) : Owns fs e₁ :=
  h.part hpart

theorem Readable.strip (h : Readable fs e) : Readable fs e.strip := by
  fun_induction Expr.strip e with
  | case1 inner ih => exact ih fun hl => (h hl).same (by simp [parts])
  | case2 operand type ih => exact ih ((h rfl).same (by simp [parts])).readable
  | case3 e => exact h

/-- The expression behind quotations and conversions, if it is no lambda. -/
theorem Readable.owns_strip {e' : Expr} (h : Readable fs e) (he : e.strip = e')
    (hl : e'.asLambda? = none) : Owns fs e' :=
  he ▸ h.strip (he ▸ hl)

/-- Expressions of the same parts. -/
theorem Owns.of_parts_eq {e' : Expr} (h : Owns fs e) (hparts : e'.parts = e.parts)
    (hparam : ∀ p, e' ≠ .param p) : Owns fs e' := by
  intro fs' p hw
  cases hw with
  | refl => exact absurd rfl (hparam p)
  | part hpart hw => exact h fs' p (.part (hparts ▸ hpart) hw)

theorem asLambda?_of_asUnaryLambda? {body : Expr} {p : Param}
    (h : e.asUnaryLambda? = some (p, body)) : e.asLambda? = some ([p], body) := by
  unfold asUnaryLambda? at h
  split at h
  · rename_i hl
    cases h
    exact hl
  · cases h

section Call
variable {target arg body : Expr} {method : String} {args : List Expr} {params : List Param}

theorem Owns.callTarget (h : Owns fs (.call target method args)) : Readable fs target :=
  (h.same (by simp [parts])).readable

theorem Owns.callArg (h : Owns fs (.call target method args)) (ha : arg ∈ args) :
    Readable fs arg := by
  intro hl
  refine h.same ?_
  simp only [parts, List.mem_cons, List.mem_map]
  exact .inr ⟨arg, ha, by simp [argument, hl]⟩

/-- The body of a lambda over stored items. -/
theorem Owns.opened (h : Owns fs (.call target method args)) (ha : arg ∈ args)
    (hl : arg.asLambda? = some (params, body)) (hk : target.known? = none) :
    Owns ((Entry.opens params).frames fs) body := by
  refine h.part ?_
  simp only [parts, List.mem_cons, List.mem_map]
  exact .inr ⟨arg, ha, by simp [argument, hl, isKnown, hk]⟩

/-- The body of a lambda over items known beforehand. -/
theorem Owns.joined (h : Owns fs (.call target method args)) (ha : arg ∈ args)
    (hl : arg.asLambda? = some (params, body)) {l : Literal} (hk : target.known? = some l) :
    Owns ((Entry.joins params).frames fs) body := by
  refine h.part ?_
  simp only [parts, List.mem_cons, List.mem_map]
  exact .inr ⟨arg, ha, by simp [argument, hl, isKnown, hk]⟩

/-- The selection that a reduction of selected values is of. -/
theorem Owns.select (h : Owns fs (.call target method args)) (ha : arg ∈ args) :
    Owns fs (.call target "Select" [arg]) := by
  intro fs' p hw
  cases hw with
  | part hpart hw =>
    refine h fs' p (.part ?_ hw)
    simp only [parts, List.map_cons, List.map_nil, List.mem_cons, List.not_mem_nil, or_false,
      List.mem_map] at hpart ⊢
    rcases hpart with hpart | hpart
    · exact .inl hpart
    · exact .inr ⟨arg, ha, hpart.symm⟩

end Call

theorem Owns.receiverForm {call : Expr} (h : Owns fs e) (hc : e.receiverForm? = some call) :
    Owns fs call := by
  unfold receiverForm? at hc
  split at hc
  · split at hc
    · rename_i hsource
      cases hc
      exact h.of_parts_eq (by simp [parts, hsource]) nofun
    · cases hc
  · cases hc

/-- An argument of a call on a class that is no call of a sequence method. -/
theorem Owns.staticArg {owner method : String} {args : List Expr} {arg : Expr}
    (h : Owns fs (.staticCall owner method args))
    (hc : (Expr.staticCall owner method args).receiverForm? = none) (ha : arg ∈ args) :
    Readable fs arg := by
  cases args with
  | nil => cases ha
  | cons source rest =>
    have hsource : takesSource owner method = false := by simpa [receiverForm?] using hc
    refine (h.same ?_).readable
    simp only [parts, hsource, List.mem_cons, List.mem_map]
    rcases List.mem_cons.1 ha with rfl | ha
    · exact .inl rfl
    · exact .inr ⟨arg, ha, rfl⟩

end Expr

/-! ## Field paths -/

namespace Schema

variable {schema : Schema} {fs : Frames}

theorem fieldPath?_of_known {e : Expr} {l : Literal} (h : e.known? = some l) :
    schema.fieldPath? e = .ok none := by
  cases e with
  | quote inner => exact fieldPath?_of_known (e := inner) h
  | convert operand type => exact fieldPath?_of_known (e := operand) h
  | literal | negate | object | collection => simp [fieldPath?]
  | _ => simp [Expr.known?] at h

theorem bodyPath?_eq {e body : Expr} {params : List Param} (h : e.asLambda? = some (params, body)) :
    schema.bodyPath? e = schema.fieldPath? body := by
  fun_induction Expr.asLambda? e with
  | case1 ps b => cases h; rfl
  | case2 inner ih => exact ih h
  | case3 e => cases h

/-- A field path, if there is one, starts from a parameter that stands where the expression does. -/
def StartsFrom (fs : Frames) (e : Expr) (o : Option FieldPath) : Prop :=
  ∀ f ∈ o, ∃ p, Expr.Within fs e fs (.param p) ∧ p.name = f.param

theorem startsFrom_none (fs : Frames) (e : Expr) : StartsFrom fs e none := by
  simp [StartsFrom]

/-- A path with the start of the path of a part. -/
theorem StartsFrom.of_part {e e₁ : Expr} {f : FieldPath} {o : Option FieldPath}
    (h : StartsFrom fs e₁ (some f)) (hpart : (.same, e₁) ∈ e.parts)
    (ho : ∀ g ∈ o, g.param = f.param) : StartsFrom fs e o := by
  intro g hg
  obtain ⟨p, hw, hp⟩ := h f rfl
  exact ⟨p, .of_same hpart hw, hp.trans (ho g hg).symm⟩

theorem param_item? {f : FieldPath} {o : Option Literal} :
    ∀ g ∈ o.bind f.item?, g.param = f.param := by
  intro g hg
  obtain ⟨l, -, hg⟩ := Option.bind_eq_some_iff.1 hg
  unfold FieldPath.item? at hg
  split at hg
  · simp only [Option.bind_eq_bind, Option.bind_eq_some_iff] at hg
    obtain ⟨n, -, hg⟩ := hg
    cases hg
    rfl
  · simp only [Option.bind_eq_bind, Option.bind_eq_some_iff] at hg
    obtain ⟨key, -, hg⟩ := hg
    cases hg
    rfl
  · cases hg

theorem param_through (f g : FieldPath) : (f.through g).param = f.param := by
  unfold FieldPath.through
  split <;> rfl

theorem post_memberOf? (f : FieldPath) (name : String) :
    Post (fun o => ∀ g ∈ o, g.param = f.param) Error.Legal (schema.memberOf? f name) := by
  unfold memberOf?
  split
  · simp
  · refine Post.bind (schema.legal_storedMember? f.type name) fun o _ => ?_
    cases o <;> simp [FieldPath.step]

/-- The path of a part, and a step from it. -/
theorem post_of_part {e e₁ : Expr} {x : Result (Option FieldPath)}
    {step : FieldPath → Result (Option FieldPath)} (hx : Post (StartsFrom fs e₁) Error.Legal x)
    (hpart : (.same, e₁) ∈ e.parts)
    (hstep : ∀ f, StartsFrom fs e₁ (some f) →
      Post (fun o => ∀ g ∈ o, g.param = f.param) Error.Legal (step f)) :
    Post (StartsFrom fs e) Error.Legal (do
      match ← x with
      | some f => step f
      | none => return none) := by
  refine Post.bind hx fun o ho => ?_
  cases o with
  | none => exact startsFrom_none fs e
  | some f => exact (hstep f ho).imp fun _ hg => ho.of_part hpart hg

/-- The path that a selection reads from each item starts from the item. -/
theorem post_selection {arg body : Expr} {p : Param} {f : FieldPath}
    (hx : Post (StartsFrom ((Entry.opens [p]).frames fs) body) Error.Legal (schema.fieldPath? body))
    (ho : Expr.Owns ((Entry.opens [p]).frames fs) body)
    (ha : arg.asLambda? = some ([p], body)) :
    Post (fun o => ∀ g ∈ o, g.param = f.param) Error.Legal (do
      if f.type.isArray then
        match ← schema.bodyPath? arg with
        | none => return none
        | some inner =>
          if inner.param = p.name then return some (f.through inner)
          else throw (.foreignParam body inner.param)
      else return none) := by
  split
  · rw [bodyPath?_eq ha]
    refine Post.bind hx fun o hstart => ?_
    cases o with
    | none => simp
    | some inner =>
      obtain ⟨q, hw, hq⟩ := hstart inner rfl
      have hown : inner.param = p.name := by simpa [Entry.frames, hq] using ho _ q hw
      simp [hown, param_through]
  · simp

/-- A field path starts from a parameter in the innermost frame, and so do the paths that it reads
from the items of arrays. -/
theorem post_fieldPath? : ∀ (e : Expr) {fs : Frames}, e.Readable fs →
    Post (StartsFrom fs e) Error.Legal (schema.fieldPath? e)
  | .quote inner, fs, h => by
    have hinner : inner.Readable fs := fun hl => (h hl).same (by simp [Expr.parts])
    refine (post_fieldPath? inner hinner).imp fun o ho f hf => ?_
    obtain ⟨p, hw, hp⟩ := ho f hf
    exact ⟨p, .of_same (by simp [Expr.parts]) hw, hp⟩
  | .convert operand type, fs, h => by
    have hpart : (.same, operand) ∈ (Expr.convert operand type).parts := by simp [Expr.parts]
    refine (post_fieldPath? operand ((h rfl).same hpart).readable).imp fun o ho f hf => ?_
    obtain ⟨p, hw, hp⟩ := ho f hf
    exact ⟨p, .of_same hpart hw, hp⟩
  | .param p, fs, _ => by
    rintro f ⟨⟩
    exact ⟨p, .refl, rfl⟩
  | .member target name, fs, h => by
    have hpart : (.same, target) ∈ (Expr.member target name).parts := by simp [Expr.parts]
    have htarget := post_fieldPath? target ((h rfl).same hpart).readable
    exact post_of_part htarget hpart fun f _ => post_memberOf? f name
  | .index target position, fs, h => by
    have hpart : (.same, target) ∈ (Expr.index target position).parts := by simp [Expr.parts]
    have htarget := post_fieldPath? target ((h rfl).same hpart).readable
    exact post_of_part htarget hpart fun f _ => param_item?
  | .call target method [arg], fs, h => by
    have hpart : (.same, target) ∈ (Expr.call target method [arg]).parts := by simp [Expr.parts]
    have htarget := post_fieldPath? target ((h rfl).same hpart).readable
    unfold fieldPath?
    split
    · exact post_of_part htarget hpart fun f _ => param_item?
    · refine post_of_part htarget hpart fun f _ => ?_
      cases arg.asLiteral?.bind Literal.asString? <;> simp
    · split
      · exact startsFrom_none fs _
      · rename_i p body hlambda
        have ha := Expr.asLambda?_of_asUnaryLambda? hlambda
        cases hk : target.known? with
        | some l =>
          rw [fieldPath?_of_known hk]
          exact startsFrom_none fs _
        | none =>
          have hbody := (h rfl).opened (by simp) ha hk
          have hsize := Expr.size_lt_of_asUnaryLambda? hlambda
          have hinner := post_fieldPath? body hbody.readable
          refine Post.bind htarget fun o ho => ?_
          cases o with
          | none => exact startsFrom_none fs _
          | some f => exact (post_selection hinner hbody ha).imp fun _ hg => ho.of_part hpart hg
    · exact startsFrom_none fs _
  | .call _ _ [], fs, _ | .call _ _ (_ :: _ :: _), fs, _ | .literal _, fs, _
  | .staticCall _ _ _, fs, _ | .not _, fs, _ | .negate _, fs, _ | .binary _ _ _, fs, _
  | .conditional _ _ _, fs, _ | .object _ _, fs, _ | .collection _ _ _, fs, _ | .lambda _ _, fs, _
  | .typeTest _ _ _, fs, _ | .inject _, fs, _ => by
    simpa [fieldPath?] using startsFrom_none fs _
termination_by e => e.size
decreasing_by all_goals (simp only [Expr.size, Expr.sizes]; omega)

end Schema

namespace Mapping

variable {m : Mapping} {s : Scope} {fs : Frames} {e : Expr}

theorem fieldPath?_of_asLambda? {schema : Schema} {lambda : List Param × Expr}
    (h : e.asLambda? = some lambda) : schema.fieldPath? e = .ok none := by
  fun_induction Expr.asLambda? e with
  | case1 ps b => simp [Schema.fieldPath?]
  | case2 inner ih => exact ih h
  | case3 e => cases h

/-- The field path of an expression that is read starts from a parameter that has a meaning. -/
theorem post_resolved (hs : s.Models fs) (h : e.Readable fs) :
    Post (fun o => ∀ f ∈ o, ∃ b, s.resolve f.param e = .ok b) Error.Legal
      (m.schema.fieldPath? e) := by
  cases hl : e.asLambda? with
  | some lambda =>
    rw [fieldPath?_of_asLambda? hl]
    simp
  | none =>
    refine (Schema.post_fieldPath? e h).imp fun o ho f hf => ?_
    obtain ⟨p, hw, hp⟩ := ho f hf
    exact hs.resolve (hp ▸ h hl _ p hw) e

theorem legal_target? (hs : s.Models fs) (h : e.Readable fs) : Legal (m.target? e s) := by
  refine Post.bind (post_resolved hs h) fun o ho => ?_
  cases o with
  | none => trivial
  | some f =>
    obtain ⟨b, hb⟩ := ho f rfl
    simp only [hb]
    cases b with
    | path base => trivial
    | _ => exact legal_unsupported e

theorem legal_targetOr (hs : s.Models fs) (node : Expr) (h : e.Readable fs) :
    Legal (m.targetOr node e s) := by
  refine Legal.bind (legal_target? hs h) fun o => ?_
  cases o with
  | none => exact legal_unsupported node
  | some t => trivial

theorem legal_target (hs : s.Models fs) (h : e.Readable fs) : Legal (m.target e s) :=
  legal_targetOr hs e h

theorem legal_encodeFor (target : Target) (l : Literal) : Legal (m.encodeFor target l) :=
  m.schema.legal_encode _ _ _

theorem legal_encodeItemsFor (node : Expr) (target : Target) (l : Literal) :
    Legal (m.encodeItemsFor node target l) := by
  unfold encodeItemsFor
  split
  · exact legal_mapM fun _ _ => legal_encodeFor target _
  · exact legal_unsupported node

theorem legal_knownOr (node e : Expr) : Legal (knownOr node e) := by
  unfold knownOr
  split
  · trivial
  · exact legal_unsupported node

theorem legal_reference? (hs : s.Models fs) (h : e.Readable fs) : Legal (m.reference? e s) := by
  unfold reference?
  split
  · trivial
  · refine Post.bind (post_resolved hs h) fun o ho => ?_
    cases o with
    | none => trivial
    | some f =>
      obtain ⟨b, hb⟩ := ho f rfl
      simp only [hb]
      split
      · trivial
      · cases b with
        | group | known => exact legal_unsupported e
        | _ => trivial

theorem legal_outputElement (typeName : Option String) (name : String) :
    Legal (m.outputElement typeName name) := by
  unfold outputElement
  split
  · trivial
  · split
    · exact Legal.bind (m.schema.legal_storedMember? _ _) fun _ => trivial
    · trivial

theorem legal_comparedConstant (l : Literal) (h : e.Readable fs) :
    Legal (m.comparedConstant l e) := by
  refine Post.bind (Schema.post_fieldPath? e h) fun o _ => ?_
  cases o with
  | none => trivial
  | some f => exact (m.schema.legal_encode _ _ _).map _

/-- What is made of expressions smaller than `n` raises no illegal scope reference. -/
def SubLegal {α : Type} (sub : Expr → Scope → Result α) (n : Nat) : Prop :=
  ∀ e s fs, e.size < n → e.Readable fs → s.Models fs → Legal (sub e s)

end Mapping
end DocQuery
