/-
Where the parts of an expression stand, and which parameters are foreign there.

The frames around a part are those of the lambdas that it is in. A lambda opens
a frame, except one that is passed to a call on a receiver known beforehand,
which adds its parameters to the innermost frame. A parameter is foreign where
the innermost frame does not bind it but one around that does.

`Scope.check` fails exactly on the expressions in which a parameter occurs
foreign, and names one that does (`post_check`).
-/
import DocQuery.Expr.Size
import DocQuery.Proofs.Result
import DocQuery.Scope

namespace DocQuery

/-- Names of the parameters that the frames around a part bind. -/
structure Frames where
  inner : List String
  outer : List (List String) := []

/-- The innermost frame does not bind a name, but one around it does. -/
def Frames.Foreign (fs : Frames) (name : String) : Prop :=
  name ∉ fs.inner ∧ ∃ f ∈ fs.outer, name ∈ f

/-- Some frame binds a name. -/
def Frames.Bound (fs : Frames) (name : String) : Prop := name ∈ fs.inner ∨ ∃ f ∈ fs.outer, name ∈ f

/-- What happens to the frames on the way to a part. -/
inductive Entry where
  | same
  /-- A lambda opens a frame. -/
  | opens (params : List Param)
  /-- A lambda adds its parameters to the innermost frame. -/
  | joins (params : List Param)

def Entry.frames : Entry → Frames → Frames
  | same, fs => fs
  | opens params, fs => ⟨params.map Param.name, fs.inner :: fs.outer⟩
  | joins params, fs => { fs with inner := params.map Param.name ++ fs.inner }

namespace Expr

/-- An argument of a call, of a lambda its body. -/
def argument (receiverKnown : Bool) (arg : Expr) : Entry × Expr :=
  match arg.asLambda? with
  | some (params, body) => (if receiverKnown then .joins params else .opens params, body)
  | none => (.same, arg)

/-- The parts that an expression is made of. -/
def parts : Expr → List (Entry × Expr)
  | .literal _ | .param _ | .inject _ => []
  | .member target _ => [(.same, target)]
  | .call target _ args => (.same, target) :: args.map (argument target.isKnown)
  | .staticCall owner method (source :: args) =>
    (.same, source) :: args.map fun arg =>
      if takesSource owner method then argument source.isKnown arg else (.same, arg)
  | .staticCall _ _ [] => []
  | .index target position => [(.same, target), (.same, position)]
  | .not e | .negate e | .convert e _ | .quote e | .typeTest e _ _ => [(.same, e)]
  | .binary _ left right => [(.same, left), (.same, right)]
  | .conditional test ifTrue ifFalse => [(.same, test), (.same, ifTrue), (.same, ifFalse)]
  | .object _ members => members.map fun (_, e) => (.same, e)
  | .collection _ source items => (source.toList ++ items).map fun e => (.same, e)
  | .lambda params body => [(.opens params, body)]

theorem size_argument_le (known : Bool) (arg : Expr) : (argument known arg).2.size ≤ arg.size := by
  unfold argument
  split
  · rename_i hl
    exact Nat.le_of_lt (size_lt_of_asLambda? hl)
  · exact Nat.le_refl _

theorem size_lt_of_mem_parts {e : Expr} {part : Entry × Expr} (h : part ∈ e.parts) :
    part.2.size < e.size := by
  cases e with
  | call target method args =>
    simp only [parts, List.mem_cons, List.mem_map] at h
    simp only [size]
    rcases h with rfl | ⟨arg, harg, rfl⟩
    · simp only; omega
    · have := size_le_sizes harg
      have := size_argument_le target.isKnown arg
      omega
  | staticCall owner method args =>
    cases args with
    | nil => cases h
    | cons source args =>
      simp only [parts, List.mem_cons, List.mem_map] at h
      simp only [size, sizes]
      rcases h with rfl | ⟨arg, harg, rfl⟩
      · simp only; omega
      · have := size_le_sizes harg
        have := size_argument_le source.isKnown arg
        split
        · omega
        · simp only; omega
  | object typeName members =>
    simp only [parts, List.mem_map] at h
    obtain ⟨⟨name, e⟩, hmem, rfl⟩ := h
    have := size_le_memberSizes hmem
    simp only [size] at this ⊢
    omega
  | collection kind source items =>
    simp only [parts, List.mem_map, List.mem_append, Option.mem_toList] at h
    obtain ⟨e, hmem, rfl⟩ := h
    cases source with
    | none =>
      have := size_le_sizes (by simpa using hmem)
      simp only [size]; omega
    | some source =>
      simp only [size]
      rcases hmem with hmem | hmem
      · cases hmem; omega
      · have := size_le_sizes hmem; omega
  | _ => grind [parts, size]

/-- With the frames `fs` around an expression, a part of it, or a part of a part, stands in
`fs'`. -/
inductive Within : Frames → Expr → Frames → Expr → Prop
  | refl : Within fs e fs e
  | part : (entry, e₁) ∈ e.parts → Within (entry.frames fs) e₁ fs' e' → Within fs e fs' e'

/-- A parameter with the given name occurs where it is foreign. -/
def OccursForeign (fs : Frames) (e : Expr) (name : String) : Prop :=
  ∃ fs' p, Within fs e fs' (.param p) ∧ p.name = name ∧ fs'.Foreign name

/-- Every parameter is bound by some frame where it occurs. -/
def Closed (fs : Frames) (e : Expr) : Prop :=
  ∀ fs' p, Within fs e fs' (.param p) → fs'.Bound p.name

/-- Every parameter is bound by the innermost frame where it occurs. -/
def Owns (fs : Frames) (e : Expr) : Prop :=
  ∀ fs' p, Within fs e fs' (.param p) → p.name ∈ fs'.inner

variable {fs fs' : Frames} {e e' : Expr}

/-- A part that stands in the same frames. -/
theorem Within.of_same {e₁ : Expr} (hpart : (.same, e₁) ∈ e.parts) (h : Within fs e₁ fs' e') :
    Within fs e fs' e' :=
  .part hpart h

theorem Within.trans {fs'' : Frames} {e'' : Expr} (h : Within fs e fs' e')
    (h' : Within fs' e' fs'' e'') : Within fs e fs'' e'' := by
  induction h with
  | refl => exact h'
  | part hpart _ ih => exact .part hpart (ih h')

theorem OccursForeign.of_part {entry : Entry} {e₁ : Expr} {name : String}
    (hpart : (entry, e₁) ∈ e.parts) (h : OccursForeign (entry.frames fs) e₁ name) :
    OccursForeign fs e name := by
  obtain ⟨fs', p, hw, hname, hforeign⟩ := h
  exact ⟨fs', p, .part hpart hw, hname, hforeign⟩

/-- A parameter occurs foreign in a part, or is the expression itself. -/
theorem OccursForeign.cases {name : String} (h : OccursForeign fs e name) :
    (∃ p, e = .param p ∧ p.name = name ∧ fs.Foreign name) ∨
      ∃ part ∈ e.parts, OccursForeign (part.1.frames fs) part.2 name := by
  obtain ⟨fs', p, hw, hname, hforeign⟩ := h
  cases hw with
  | refl => exact .inl ⟨p, rfl, hname, hforeign⟩
  | part hpart hw => exact .inr ⟨_, hpart, fs', p, hw, hname, hforeign⟩

theorem Owns.within (h : Owns fs e) (hw : Within fs e fs' e') : Owns fs' e' :=
  fun _ p hp => h _ p (hw.trans hp)

theorem Owns.part {entry : Entry} {e₁ : Expr} (h : Owns fs e) (hpart : (entry, e₁) ∈ e.parts) :
    Owns (entry.frames fs) e₁ :=
  h.within (.part hpart .refl)

/-- An expression is closed if its parts are. -/
theorem closed_of_parts (hparam : ∀ p, e = .param p → fs.Bound p.name)
    (hparts : ∀ part ∈ e.parts, Closed (part.1.frames fs) part.2) : Closed fs e := by
  intro fs' p hw
  cases hw with
  | refl => exact hparam p rfl
  | part hpart hw => exact hparts _ hpart fs' p hw

/-- What is bound by some frame and is not foreign is bound by the innermost one. -/
theorem owns_of_closed (hc : Closed fs e) (hf : ∀ name, ¬OccursForeign fs e name) : Owns fs e := by
  intro fs' p hw
  rcases hc fs' p hw with h | h
  · exact h
  · by_cases hinner : p.name ∈ fs'.inner
    · exact hinner
    · exact absurd ⟨fs', p, hw, rfl, hinner, h⟩ (hf p.name)

/-- The root of a chain stands where the chain does. -/
theorem within_of_chainRoot? (fs : Frames) {name : String} (h : e.chainRoot? = some name) :
    ∃ p, Within fs e fs (.param p) ∧ p.name = name := by
  fun_induction chainRoot? e with
  | case1 p => cases h; exact ⟨p, .refl, rfl⟩
  | case2 target _ ih =>
    obtain ⟨p, hw, hname⟩ := ih h
    exact ⟨p, .of_same (by simp [parts]) hw, hname⟩
  | case3 target _ ih =>
    obtain ⟨p, hw, hname⟩ := ih h
    exact ⟨p, .of_same (by simp [parts]) hw, hname⟩
  | case4 operand _ ih =>
    obtain ⟨p, hw, hname⟩ := ih h
    exact ⟨p, .of_same (by simp [parts]) hw, hname⟩
  | case5 inner ih =>
    obtain ⟨p, hw, hname⟩ := ih h
    exact ⟨p, .of_same (by simp [parts]) hw, hname⟩
  | case6 => cases h

end Expr

/-! ## Scopes -/

/-- The scope has the parameters that the frames bind. -/
def Scope.Models (s : Scope) (fs : Frames) : Prop :=
  ∃ f rest, s.frames = f :: rest ∧ (∀ name, (f.binding? name).isSome = true ↔ name ∈ fs.inner) ∧
    ∀ name, (∃ g ∈ rest, (g.binding? name).isSome = true) ↔ ∃ g ∈ fs.outer, name ∈ g

theorem Frame.isSome_binding? {f : Frame} {name : String} :
    (f.binding? name).isSome = true ↔ name ∈ f.bindings.map Prod.fst := by
  simp [Frame.binding?]

namespace Scope

variable {s : Scope} {fs : Frames}

theorem Models.push (h : s.Models fs) {f : Frame} {names : List String}
    (hf : ∀ name, (f.binding? name).isSome = true ↔ name ∈ names) :
    (s.push f).Models ⟨names, fs.inner :: fs.outer⟩ := by
  obtain ⟨g, rest, hframes, hinner, houter⟩ := h
  refine ⟨f, g :: rest, by simp [Scope.push, hframes], hf, fun name => ?_⟩
  simp only [List.mem_cons, exists_eq_or_imp, hinner, houter]

theorem Models.bindInner (h : s.Models fs) (name : String) (b : Binding) :
    (s.bindInner name b).Models { fs with inner := name :: fs.inner } := by
  obtain ⟨f, rest, hframes, hinner, houter⟩ := h
  refine ⟨f.bind name b, rest, by simp [Scope.bindInner, hframes], fun q => ?_, houter⟩
  rw [Frame.isSome_binding?, Frame.bind, List.map_cons, List.mem_cons, List.mem_cons,
    ← Frame.isSome_binding?, hinner]

theorem Models.enter (h : s.Models fs) (params : List Param) :
    (s.enter params).Models ((Entry.opens params).frames fs) :=
  h.push fun name => by simp [Frame.isSome_binding?]

theorem Models.join (h : s.Models fs) (params : List Param) :
    (s.join params).Models ((Entry.joins params).frames fs) := by
  induction params generalizing s fs with
  | nil => exact h
  | cons p rest ih =>
    obtain ⟨f, outer, hframes, hinner, houter⟩ := ih (h.bindInner p.name .known)
    refine ⟨f, outer, hframes, fun name => ?_, houter⟩
    rw [hinner]
    simp only [Entry.frames, List.map_cons, List.cons_append, List.mem_cons, List.mem_append]
    exact or_left_comm

theorem models_root (param : String) : (Scope.root param).Models ⟨[param], []⟩ :=
  ⟨.of param .root, [], rfl, fun name => by simp [Frame.isSome_binding?, Frame.of], by simp⟩

theorem Models.isForeign_iff (h : s.Models fs) {name : String} :
    s.isForeign name = true ↔ fs.Foreign name := by
  obtain ⟨f, rest, hframes, hinner, houter⟩ := h
  simp only [Frames.Foreign, ← hinner, ← houter, ← List.any_eq_true, isForeign, classify, hframes]
  cases f.binding? name with
  | some b => simp
  | none => cases rest.any fun g => (g.binding? name).isSome <;> simp

/-- A parameter of the innermost frame. -/
theorem Models.resolve (h : s.Models fs) {name : String} (hname : name ∈ fs.inner) (node : Expr) :
    ∃ b, s.resolve name node = .ok b := by
  obtain ⟨f, rest, hframes, hinner, -⟩ := h
  obtain ⟨b, hb⟩ := Option.isSome_iff_exists.1 ((hinner name).2 hname)
  exact ⟨b, by simp [Scope.resolve, classify, hframes, hb]⟩

end Scope

/-! ## The check -/

/-- The scope of a part. -/
def Entry.scope : Entry → Scope → Scope
  | same, s => s
  | opens params, s => s.enter params
  | joins params, s => s.join params

theorem Scope.Models.entry {s : Scope} {fs : Frames} (h : s.Models fs) (entry : Entry) :
    (entry.scope s).Models (entry.frames fs) := by
  cases entry with
  | same => exact h
  | opens params => exact h.enter params
  | joins params => exact h.join params

namespace Scope

variable {s : Scope} {fs : Frames}

theorem checkBody_eq {arg body : Expr} {params : List Param}
    (h : arg.asLambda? = some (params, body)) : s.checkBody arg = s.check body := by
  fun_induction Expr.asLambda? arg with
  | case1 ps b => cases h; rfl
  | case2 inner ih => exact ih h
  | case3 e => cases h

/-- Checks parts one after the other, each in its scope. -/
def checkParts (s : Scope) : List (Entry × Expr) → Result Unit
  | [] => .ok ()
  | part :: rest => do
    (part.1.scope s).check part.2
    s.checkParts rest

theorem checkArgs_eq (known : Bool) (args : List Expr) :
    s.checkArgs known args = s.checkParts (args.map (Expr.argument known)) := by
  induction args with
  | nil => rfl
  | cons arg rest ih =>
    simp only [checkArgs, List.map_cons, checkParts, ih, Expr.argument]
    cases h : arg.asLambda? with
    | none => rfl
    | some lambda =>
      simp only [checkBody_eq h]
      cases known <;> rfl

theorem checkAll_eq (es : List Expr) :
    s.checkAll es = s.checkParts (es.map fun e => (.same, e)) := by
  induction es with
  | nil => rfl
  | cons e rest ih => simp only [checkAll, List.map_cons, checkParts, ih, Entry.scope]

theorem checkMembers_eq (members : List (String × Expr)) :
    s.checkMembers members = s.checkParts (members.map fun (_, e) => (.same, e)) := by
  induction members with
  | nil => rfl
  | cons m rest ih => simp only [checkMembers, List.map_cons, checkParts, ih, Entry.scope]

/-- The check of an expression looks at the chain that it is, if it is one, and at its parts. -/
theorem check_eq (s : Scope) (e : Expr) :
    s.check e = (s.checkChain e >>= fun _ => s.checkParts e.parts) := by
  have hlast (x : Result Unit) : (x >>= fun _ => Except.ok ()) = x := by cases x <;> rfl
  cases e with
  | call target method args => simp only [check, Expr.parts, checkParts, checkArgs_eq]; rfl
  | staticCall owner method args =>
    cases args with
    | nil => rfl
    | cons source args =>
      simp only [check, Expr.parts, checkParts, checkArgs_eq, checkAll_eq]
      cases Expr.takesSource owner method <;> rfl
  | object typeName members => simp only [check, Expr.parts, checkMembers_eq]; rfl
  | collection kind source items =>
    cases source <;> simp only [check, Expr.parts, checkAll_eq] <;> rfl
  | param _ | member _ _ | index _ _ | convert _ _ | quote _ =>
    simp only [check, Expr.parts, checkParts, hlast, Entry.scope]
  | _ => simp only [check, Expr.parts, checkParts, hlast, Entry.scope]; rfl

theorem post_checkChain (h : s.Models fs) (e : Expr) :
    Post (fun _ => ∀ p, e = .param p → ¬fs.Foreign p.name)
      (fun err => ∃ node name, err = .foreignParam node name ∧ Expr.OccursForeign fs e name)
      (s.checkChain e) := by
  unfold checkChain
  split
  · rename_i name hroot
    split
    · rename_i hforeign
      obtain ⟨p, hw, hname⟩ := Expr.within_of_chainRoot? fs hroot
      exact ⟨e, name, rfl, fs, p, hw, hname, h.isForeign_iff.1 hforeign⟩
    · rename_i hforeign
      rintro p rfl
      cases hroot
      rwa [h.isForeign_iff] at hforeign
  · rename_i hroot
    rintro p rfl
    cases hroot

/-- **The check is exact.** It accepts an expression in which no parameter occurs foreign, and of
any other it names one that does. -/
theorem post_check (e : Expr) {s : Scope} {fs : Frames} (h : s.Models fs) :
    Post (fun _ => ∀ name, ¬Expr.OccursForeign fs e name)
      (fun err => ∃ node name, err = .foreignParam node name ∧ Expr.OccursForeign fs e name)
      (s.check e) := by
  have hparts (ps : List (Entry × Expr)) (hps : ∀ part ∈ ps, part ∈ e.parts) :
      Post (fun _ => ∀ part ∈ ps, ∀ name, ¬Expr.OccursForeign (part.1.frames fs) part.2 name)
        (fun err => ∃ node name, err = .foreignParam node name ∧ Expr.OccursForeign fs e name)
        (s.checkParts ps) := by
    induction ps with
    | nil => simp [checkParts]
    | cons part rest ih =>
      have hpart := hps part (by simp)
      have hsize := Expr.size_lt_of_mem_parts hpart
      refine Post.bind (P := fun _ => ∀ name, ¬Expr.OccursForeign (part.1.frames fs) part.2 name)
        ?_ fun _ hclean => ?_
      · refine (post_check part.2 (h.entry part.1)).mono (fun _ hclean => hclean) ?_
        rintro err ⟨node, name, rfl, hoccurs⟩
        exact ⟨node, name, rfl, hoccurs.of_part hpart⟩
      · refine (ih fun p hp => hps p (by simp [hp])).imp fun _ hrest => ?_
        simp only [List.mem_cons, forall_eq_or_imp]
        exact ⟨hclean, hrest⟩
  rw [check_eq]
  refine Post.bind (post_checkChain h e) fun _ hparam => ?_
  refine (hparts e.parts fun _ hp => hp).imp fun _ hclean name hoccurs => ?_
  rcases hoccurs.cases with ⟨p, rfl, rfl, hforeign⟩ | ⟨part, hpart, hoccurs⟩
  · exact hparam p rfl hforeign
  · exact hclean part hpart name hoccurs
termination_by e.size

end Scope
end DocQuery
