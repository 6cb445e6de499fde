/-
Plain expressions: no name in them that a filter may use for a field starts like
an operator, and no value in them is a pattern or a document of operators, which
a filter would not test for equality.

From a plain expression over a plain mapping come plain names (`plain_target?`)
and plain values (`isPlain_known?`, `plain_encodeFor`).
-/
import DocQuery.Filter.Unfolding
import DocQuery.Proofs.Filter.Meaning
import DocQuery.Proofs.Result

namespace DocQuery

open DocQuery.Filter

/-- A mapping under which stored fields have plain names and plain values are stored as plain
values. -/
structure Mapping.IsPlain (m : Mapping) : Prop where
  elements : ∀ d ∈ m.schema.documents, ∀ e ∈ d.members, isOperator e.element = false
  marks : ∀ d ∈ m.schema.documents, ∀ e ∈ d.discriminatorElement, isOperator e = false
  mark : isOperator m.options.discriminatorElement = false
  converters : ∀ c ∈ m.schema.converters, ∀ x y, isPlain x = true → c.convert x = some y →
    isPlain y = true

namespace Expr

/-- Whether an expression, if it is a known text, may be the name of a field. -/
def isPlainKey (e : Expr) : Bool :=
  match e.known?.bind Literal.asString? with
  | some key => !isOperator key
  | none => true

/-- Whether a method takes the key of a dictionary. -/
def takesKey (s : Schema) (target : Expr) (method : String) : Bool :=
  method = "ElementAt" || method = "ContainsKey"
    || (method = "Contains" && (s.typeOf target).isDictionary)

mutual
/-- Whether an expression is plain. Filters that it takes over as they are have to be valid. -/
def isPlain (s : Schema) : Expr → Bool
  | .literal l => Filter.isPlain l.value
  | .param _ => true
  | .member target name => !isOperator name && isPlain s target
  | .call target method args =>
    isPlain s target && arePlain s args && (!takesKey s target method || args.all isPlainKey)
  | .staticCall owner method (source :: args) =>
    isPlain s source && arePlain s args
      && (!(takesSource owner method && takesKey s source method) || args.all isPlainKey)
  | .staticCall _ _ [] => true
  | .index target position => isPlain s target && isPlain s position && position.isPlainKey
  | .not operand => isPlain s operand
  | .negate operand => isPlain s operand
  | .convert operand _ => isPlain s operand
  | .quote inner => isPlain s inner
  | .binary _ left right => isPlain s left && isPlain s right
  | .conditional test ifTrue ifFalse => isPlain s test && isPlain s ifTrue && isPlain s ifFalse
  | .object _ members => membersPlain s members
  | .collection _ (some source) items => isPlain s source && arePlain s items
  | .collection _ none items => arePlain s items
  | .lambda _ body => isPlain s body
  | .typeTest operand _ _ => isPlain s operand
  | .inject filter => isValid filter
def arePlain (s : Schema) : List Expr → Bool
  | [] => true
  | e :: rest => isPlain s e && arePlain s rest
def membersPlain (s : Schema) : List (String × Expr) → Bool
  | [] => true
  | (name, e) :: rest => !isOperator name && isPlain s e && membersPlain s rest
end

variable {s : Schema}

theorem isPlain_of_mem {es : List Expr} (h : arePlain s es = true) {e : Expr} (he : e ∈ es) :
    e.isPlain s = true := by
  induction es with
  | nil => cases he
  | cons x rest ih =>
    simp only [arePlain, Bool.and_eq_true] at h
    rcases List.mem_cons.1 he with rfl | he
    · exact h.1
    · exact ih h.2 he

theorem isPlain_strip {e : Expr} (h : e.isPlain s = true) : e.strip.isPlain s = true := by
  fun_induction strip e with
  | case1 inner ih => exact ih h
  | case2 operand type ih => exact ih h
  | case3 e => exact h

theorem isPlain_of_asLambda? {e body : Expr} {params : List Param} (h : e.isPlain s = true)
    (hl : e.asLambda? = some (params, body)) : body.isPlain s = true := by
  fun_induction asLambda? e with
  | case1 ps b => cases hl; exact h
  | case2 inner ih => exact ih h hl
  | case3 e => cases hl

theorem isPlain_of_asUnaryLambda? {e body : Expr} {p : Param} (h : e.isPlain s = true)
    (hl : e.asUnaryLambda? = some (p, body)) : body.isPlain s = true := by
  unfold asUnaryLambda? at hl
  split at hl
  · rename_i q b hq
    cases hl
    exact isPlain_of_asLambda? h hq
  · cases hl

theorem isPlain_of_staticCall {owner method : String} {args : List Expr}
    (h : (Expr.staticCall owner method args).isPlain s = true) {a : Expr} (ha : a ∈ args) :
    a.isPlain s = true := by
  cases args with
  | nil => cases ha
  | cons source rest =>
    simp only [isPlain, Bool.and_eq_true] at h
    rcases List.mem_cons.1 ha with rfl | ha
    · exact h.1.1
    · exact isPlain_of_mem h.1.2 ha

/-- The receiver form of a plain call on a class is plain. -/
theorem isPlain_of_receiverForm? {e call : Expr} (h : e.isPlain s = true)
    (hc : e.receiverForm? = some call) : call.isPlain s = true := by
  unfold receiverForm? at hc
  split at hc
  · split at hc
    · rename_i hsource
      cases hc
      simpa [isPlain, hsource] using h
    · cases hc
  · cases hc

end Expr

/-! ## Known values -/

/-- Whether a document is one of operators depends on the names only. -/
theorem isOperators_iff {d : Document} :
    isOperators d = true ↔ d.keys ≠ [] ∧ ∀ k ∈ d.keys, isOperator k = true := by
  cases d with
  | nil => simp [isOperators, Document.keys]
  | cons e rest => simp [isOperators, Document.keys]

theorem isOperators_congr {d d' : Document} (h : ∀ k, k ∈ d.keys ↔ k ∈ d'.keys) :
    isOperators d = isOperators d' := by
  have hnil : d.keys = [] ↔ d'.keys = [] := by
    simp only [List.eq_nil_iff_forall_not_mem, h]
  rw [Bool.eq_iff_iff, isOperators_iff, isOperators_iff, ne_eq, ne_eq, hnil]
  simp only [h]

namespace Expr

variable {s : Schema}

theorem keys_of_knownMembers? {members : List (String × Expr)} {fields : List (String × Value)}
    (h : membersPlain s members = true) (hf : knownMembers? members = some fields) :
    ∀ k ∈ Document.keys fields, isOperator k = false := by
  induction members generalizing fields with
  | nil =>
    cases hf
    simp [Document.keys]
  | cons e rest ih =>
    obtain ⟨name, e⟩ := e
    simp only [membersPlain, Bool.and_eq_true, Bool.not_eq_true'] at h
    simp only [knownMembers?, Option.bind_eq_bind, Option.bind_eq_some_iff] at hf
    obtain ⟨l, -, ls, hls, hfields⟩ := hf
    cases hfields
    intro k hk
    simp only [Document.keys, List.map_cons, List.mem_cons] at hk
    rcases hk with rfl | hk
    · exact h.1.1
    · exact ih h.2 hls k hk

/-- A plain expression that is known has a plain value. -/
theorem isPlain_known? {e : Expr} {l : Literal} (h : e.isPlain s = true) (hl : e.known? = some l) :
    Filter.isPlain l.value = true := by
  cases e with
  | literal l' => cases hl; exact h
  | quote inner => exact isPlain_known? (e := inner) h hl
  | convert operand type => exact isPlain_known? (e := operand) h hl
  | negate operand =>
    simp only [known?, Option.bind_eq_some_iff] at hl
    obtain ⟨l', -, hl⟩ := hl
    unfold Literal.negate? at hl
    split at hl <;> cases hl <;> rfl
  | object typeName members =>
    cases typeName with
    | none => simp [known?] at hl
    | some name =>
      simp only [known?, Option.map_eq_some_iff] at hl
      obtain ⟨fields, hf, rfl⟩ := hl
      have hkeys := keys_of_knownMembers? h hf
      rw [Filter.isPlain, Bool.not_eq_true', ← Bool.not_eq_true, isOperators_iff]
      rintro ⟨hne, hall⟩
      obtain ⟨k, hk⟩ := List.exists_mem_of_ne_nil _ hne
      have hplain := hkeys k (Document.mem_keys_ofFields.1 hk)
      rw [hall k hk] at hplain
      cases hplain
  | collection kind source items =>
    cases source with
    | some source =>
      simp only [isPlain, Bool.and_eq_true] at h
      exact isPlain_known? (e := source) h.1 hl
    | none =>
      simp only [known?, Option.map_eq_some_iff] at hl
      obtain ⟨ls, -, rfl⟩ := hl
      rfl
  | _ => simp [known?] at hl

end Expr

/-! ## Stored values -/

namespace Schema

theorem isPlain_convert {m : Mapping} (hm : m.IsPlain) (source target : ValueType) {x : Value}
    (h : isPlain x = true) : isPlain (m.schema.convert source target x) = true := by
  unfold convert
  cases hc : m.schema.converter? source target with
  | none => exact h
  | some c =>
    cases hy : c.convert x with
    | none => simpa [hy] using h
    | some y =>
      have hmem : c ∈ m.schema.converters := List.mem_of_find?_eq_some hc
      simpa [hy] using hm.converters c hmem x y h hy

theorem isPlain_coerce {m : Mapping} (hm : m.IsPlain) (source target : ValueType) {x : Value}
    (h : isPlain x = true) : isPlain (m.schema.coerce source target x) = true := by
  induction source with
  | nullable inner ih => exact ih
  | any => exact h
  | array item _ =>
    simp only [coerce]
    split
    · exact h
    · split
      · exact h
      · split
        · exact h
        · rfl
        · exact isPlain_convert hm _ _ h
  | _ =>
    simp only [coerce]
    split
    · exact h
    · split
      · exact h
      · split <;> first | exact h | exact isPlain_convert hm _ _ h

theorem isPlain_represent {r : Representation} {x : Value} (h : isPlain x = true) :
    Post (fun y => isPlain y = true) (fun _ => True) (represent r x) := by
  unfold represent
  split
  all_goals first | exact h | exact rfl | (split <;> trivial)

theorem isPlain_encodeEnum (s : Schema) (name : String) (r : Representation) (x : Value) :
    Post (fun y => isPlain y = true) (fun _ => True) (s.encodeEnum name r x) := by
  unfold encodeEnum
  refine Post.bind (Post.of_total (s.enumNumber name x)) fun n _ => ?_
  split
  · rfl
  · rfl
  · cases hn : int32? n.toInt <;> simp [isPlain]

theorem isOperator_element {m : Mapping} (hm : m.IsPlain) {typeName name : String} {e : Member}
    (h : m.schema.member? typeName name = some e) : isOperator e.element = false := by
  unfold member? at h
  obtain ⟨owner, -, ho⟩ := List.exists_of_findSome?_eq_some h
  obtain ⟨d, hd, he⟩ := Option.bind_eq_some_iff.1 ho
  exact hm.elements d (List.mem_of_find?_eq_some hd) e (List.mem_of_find?_eq_some he)

/-- Members are stored under plain names, or keep theirs. -/
theorem encodeMembers_cons {m : Mapping} (hm : m.IsPlain) {typeName k : String} {x : Value}
    {rest stored : Document} (h : m.schema.encodeMembers typeName ((k, x) :: rest) = .ok stored) :
    ∃ k' y rest', m.schema.encodeMembers typeName rest = .ok rest' ∧ stored = (k', y) :: rest' ∧
      (isOperator k' = true → k' = k) := by
  cases he : m.schema.member? typeName k with
  | none =>
    simp only [encodeMembers, he, pure_bind, bind_eq_ok] at h
    obtain ⟨rest', hrest, h⟩ := h
    cases h
    exact ⟨k, x, rest', hrest, rfl, fun _ => rfl⟩
  | some e =>
    simp only [encodeMembers, he, pure_bind, bind_eq_ok] at h
    obtain ⟨y, -, rest', hrest, h⟩ := h
    cases h
    refine ⟨e.element, y, rest', hrest, rfl, fun hop => ?_⟩
    rw [isOperator_element hm he] at hop
    cases hop

theorem isOperators_of_encodeMembers {m : Mapping} (hm : m.IsPlain) {typeName : String}
    {fields stored : Document} (h : m.schema.encodeMembers typeName fields = .ok stored)
    (hs : isOperators stored = true) : isOperators fields = true := by
  rw [isOperators_iff] at hs ⊢
  constructor
  · rintro hnil
    have hfields : fields = [] := by simpa [Document.keys] using hnil
    subst hfields
    cases h
    exact hs.1 rfl
  · replace hs := hs.2
    induction fields generalizing stored with
    | nil => simp [Document.keys]
    | cons e rest ih =>
      obtain ⟨k, x⟩ := e
      obtain ⟨k', y, rest', hrest, rfl, hk⟩ := encodeMembers_cons hm h
      simp only [Document.keys, List.map_cons, List.mem_cons, forall_eq_or_imp] at hs ⊢
      exact ⟨hk hs.1 ▸ hs.1, ih hrest hs.2⟩

theorem keys_of_encodeEntries {s : Schema} {t : ValueType} {r : Representation}
    {fields stored : Document} (h : s.encodeEntries t r fields = .ok stored) :
    stored.keys = fields.keys := by
  induction fields generalizing stored with
  | nil => cases h; rfl
  | cons e rest ih =>
    obtain ⟨k, x⟩ := e
    simp only [encodeEntries, bind_eq_ok] at h
    obtain ⟨y, -, rest', hrest, h⟩ := h
    cases h
    simpa [Document.keys] using ih hrest

/-- A plain value is stored as a plain one. -/
theorem isPlain_encode {m : Mapping} (hm : m.IsPlain) {t : ValueType} {r : Representation}
    {x : Value} (h : isPlain x = true) :
    Post (fun y => isPlain y = true) (fun _ => True) (m.schema.encode t r x) := by
  cases x with
  | null => rfl
  | array items =>
    simp only [encode]
    split
    · exact Post.bind (Post.of_total (m.schema.encodeItems _ r items)) fun _ _ => rfl
    · exact isPlain_encodeEnum ..
    · rfl
  | document fields =>
    simp only [encode]
    split
    · exact isPlain_encodeEnum ..
    · rename_i name _
      cases hs : m.schema.encodeMembers name fields with
      | error e => trivial
      | ok stored =>
        change isPlain (.document (Document.ofFields stored)) = true
        rw [isPlain, isOperators_congr fun k => Document.mem_keys_ofFields, Bool.not_eq_true',
          ← Bool.not_eq_true]
        rw [isPlain, Bool.not_eq_true', ← Bool.not_eq_true] at h
        exact fun hops => h (isOperators_of_encodeMembers hm hs hops)
    · rename_i value _ _
      cases hs : m.schema.encodeEntries value r fields with
      | error e => trivial
      | ok stored =>
        have hkeys : isOperators stored = isOperators fields :=
          isOperators_congr fun k => by rw [keys_of_encodeEntries hs]
        change isPlain (.document (Document.ofFields stored)) = true
        rw [isPlain, isOperators_congr fun k => Document.mem_keys_ofFields, hkeys]
        exact h
    · exact h
  | _ =>
    simp only [encode]
    split
    · exact isPlain_encodeEnum ..
    · exact h
    · exact h
    · exact isPlain_represent h

end Schema

/-! ## Names of fields -/

theorem isOperator_append {a b : String} (ha : isOperator a = false) (hb : isOperator b = false) :
    isOperator (a ++ b) = false := by
  simp only [isOperator, String.toList_append, decide_eq_false_iff_not] at ha hb ⊢
  cases h : a.toList with
  | nil => simpa using hb
  | cons c rest => simpa [h] using ha

theorem isOperator_repr (n : Nat) : isOperator n.repr = false := by
  simp only [isOperator, Nat.toList_repr, decide_eq_false_iff_not]
  intro h
  have hdigit := Nat.isDigit_of_mem_toDigits (b := 10) (by decide) (by decide) (List.mem_of_head? h)
  exact absurd hdigit (by decide)

theorem isOperator_toString (n : Int) : isOperator (toString n) = false := by
  cases n with
  | ofNat n => exact isOperator_repr n
  | negSucc n =>
    change isOperator ("-" ++ _) = false
    simp [isOperator]

/-- A path of plain names. -/
def PlainPath (path : List String) : Prop := ∀ k ∈ path, isOperator k = false

theorem PlainPath.singleton {k : String} (h : isOperator k = false) : PlainPath [k] := by
  simpa [PlainPath] using h

theorem PlainPath.append {p q : List String} (hp : PlainPath p) (hq : PlainPath q) :
    PlainPath (p ++ q) := by
  intro k hk
  rcases List.mem_append.1 hk with hk | hk
  · exact hp k hk
  · exact hq k hk

theorem PlainPath.isOperator {p : List String} (hp : PlainPath p) :
    isOperator (String.intercalate "." p) = false := by
  induction p with
  | nil => rfl
  | cons k rest ih =>
    cases rest with
    | nil => simpa using hp k (by simp)
    | cons k' rest =>
      rw [String.intercalate_cons_cons]
      have hrest := ih fun j hj => hp j (by simp [hj])
      exact isOperator_append (isOperator_append (hp k (by simp)) rfl) hrest

namespace Expr

theorem known?_of_asLiteral? {e : Expr} {l : Literal} (h : e.asLiteral? = some l) :
    e.known? = some l := by
  unfold asLiteral? at h
  split at h
  · rename_i l' hs
    cases h
    fun_induction strip e with
    | case1 inner ih => exact ih hs
    | case2 operand type ih => exact ih hs
    | case3 e => subst hs; rfl
  · cases h

theorem isOperator_of_isPlainKey {e : Expr} {l : Literal} {key : String}
    (h : e.isPlainKey = true) (hl : e.known? = some l) (hk : l.asString? = some key) :
    isOperator key = false := by
  simpa [isPlainKey, hl, hk] using h

end Expr

namespace Schema

variable {m : Mapping}

theorem plain_storedMember? (hm : m.IsPlain) (owner : ValueType) {name : String}
    (hn : isOperator name = false) :
    Post (fun o => ∀ e ∈ o, isOperator e.element = false) (fun _ => True)
      (m.schema.storedMember? owner name) := by
  unfold storedMember?
  split
  · split
    · rename_i e he
      simpa using isOperator_element hm he
    · split
      · trivial
      · simpa using hn
  · simpa using hn
  · simp

theorem plainPath_item? {f g : FieldPath} {position : Expr} (hf : PlainPath f.path)
    (hp : position.isPlainKey = true) (hg : position.asLiteral?.bind f.item? = some g) :
    PlainPath g.path := by
  obtain ⟨l, hl, hg⟩ := Option.bind_eq_some_iff.1 hg
  unfold FieldPath.item? at hg
  split at hg
  · simp only [Option.bind_eq_bind, Option.bind_eq_some_iff] at hg
    obtain ⟨n, -, hg⟩ := hg
    cases hg
    exact hf.append (.singleton (isOperator_toString n))
  · simp only [Option.bind_eq_bind, Option.bind_eq_some_iff] at hg
    obtain ⟨key, hkey, hg⟩ := hg
    cases hg
    have hk := Expr.isOperator_of_isPlainKey hp (Expr.known?_of_asLiteral? hl) hkey
    exact hf.append (.singleton hk)
  · cases hg

theorem plainPath_through {f g : FieldPath} (hf : PlainPath f.path) (hg : PlainPath g.path) :
    PlainPath (f.through g).path := by
  unfold FieldPath.through
  split
  · exact hf
  · exact hf.append hg

theorem plain_memberOf? (hm : m.IsPlain) {f : FieldPath} {name : String} (hf : PlainPath f.path)
    (hn : isOperator name = false) :
    Post (fun o => ∀ g ∈ o, PlainPath g.path) (fun _ => True) (m.schema.memberOf? f name) := by
  unfold memberOf?
  split
  · simpa using hf
  · refine Post.bind (plain_storedMember? hm f.type hn) fun o ho => ?_
    cases o with
    | none => simp
    | some e =>
      have hstep : PlainPath (f.step e.element e.type e.representation).path :=
        hf.append (.singleton (ho e rfl))
      simpa using hstep

mutual
/-- The place that a plain expression reads has a path of plain names. -/
theorem plain_fieldPath? (hm : m.IsPlain) : ∀ e : Expr, e.isPlain m.schema = true →
    Post (fun o => ∀ f ∈ o, PlainPath f.path) (fun _ => True) (m.schema.fieldPath? e)
  | .quote inner, h => plain_fieldPath? hm inner h
  | .convert operand _, h => plain_fieldPath? hm operand h
  | .param p, _ => by simp [fieldPath?, FieldPath.ofParam, PlainPath]
  | .member target name, h => by
    simp only [Expr.isPlain, Bool.and_eq_true, Bool.not_eq_true'] at h
    refine Post.bind (plain_fieldPath? hm target h.2) fun o ho => ?_
    cases o with
    | none => simp
    | some f => exact plain_memberOf? hm (ho f rfl) h.1
  | .index target position, h => by
    simp only [Expr.isPlain, Bool.and_eq_true] at h
    refine Post.bind (plain_fieldPath? hm target h.1.1) fun o ho => ?_
    cases o with
    | none => simp
    | some f => exact fun g hg => plainPath_item? (ho f rfl) h.2 hg
  | .call target method [arg], h => by
    simp only [Expr.isPlain, Expr.arePlain, Bool.and_eq_true] at h
    obtain ⟨⟨ht, ha, -⟩, hkey⟩ := h
    have htarget := plain_fieldPath? hm target ht
    have hbody := plain_bodyPath? hm arg ha
    unfold fieldPath?
    split
    · refine Post.bind htarget fun o ho => ?_
      cases o with
      | none => simp
      | some f =>
        exact fun g hg => plainPath_item? (ho f rfl) (by simpa [Expr.takesKey] using hkey) hg
    · refine Post.bind htarget fun o ho => ?_
      cases o with
      | none => simp
      | some f =>
        cases arg.asLiteral?.bind Literal.asString? with
        | none => simp
        | some name => simpa using ho f rfl
    · split
      · simp
      · refine Post.bind htarget fun o ho => ?_
        cases o with
        | none => simp
        | some f =>
          dsimp only
          split
          · refine Post.bind hbody fun o' ho' => ?_
            cases o' with
            | none => simp
            | some g =>
              dsimp only
              split
              · simpa using plainPath_through (ho f rfl) (ho' g rfl)
              · trivial
          · simp
    · simp
  | .call _ _ [], _ => by simp [fieldPath?]
  | .call _ _ (_ :: _ :: _), _ => by simp [fieldPath?]
  | .literal _, _ => by simp [fieldPath?]
  | .staticCall .., _ => by simp [fieldPath?]
  | .not _, _ => by simp [fieldPath?]
  | .negate _, _ => by simp [fieldPath?]
  | .binary .., _ => by simp [fieldPath?]
  | .conditional .., _ => by simp [fieldPath?]
  | .object .., _ => by simp [fieldPath?]
  | .collection .., _ => by simp [fieldPath?]
  | .lambda .., _ => by simp [fieldPath?]
  | .typeTest .., _ => by simp [fieldPath?]
  | .inject _, _ => by simp [fieldPath?]
theorem plain_bodyPath? (hm : m.IsPlain) : ∀ e : Expr, e.isPlain m.schema = true →
    Post (fun o => ∀ f ∈ o, PlainPath f.path) (fun _ => True) (m.schema.bodyPath? e)
  | .lambda _ body, h => plain_fieldPath? hm body h
  | .quote inner, h => plain_bodyPath? hm inner h
  | .literal _, _ | .param _, _ | .member .., _ | .call .., _ | .staticCall .., _ | .index .., _
  | .not _, _ | .negate _, _ | .convert .., _ | .binary .., _ | .conditional .., _ | .object .., _
  | .collection .., _ | .typeTest .., _ | .inject _, _ => by simp [bodyPath?]
end

end Schema

/-- A scope whose parameters stand for places with paths of plain names. -/
def Scope.IsPlain (s : Scope) : Prop :=
  ∀ f ∈ s.frames, ∀ b ∈ f.bindings, ∀ base, b.2 = .path base → PlainPath base

namespace Scope

theorem IsPlain.push {s : Scope} {f : Frame} (hs : s.IsPlain)
    (hf : ∀ b ∈ f.bindings, ∀ base, b.2 = .path base → PlainPath base) : (s.push f).IsPlain := by
  intro g hg
  rcases List.mem_cons.1 hg with rfl | hg
  · exact hf
  · exact hs g hg

theorem isPlain_root (param : String) : (root param).IsPlain := by
  simp [IsPlain, root, push, Frame.of, Binding.root, PlainPath]

theorem IsPlain.bindInner {s : Scope} (hs : s.IsPlain) (param : String) :
    (s.bindInner param .known).IsPlain := by
  unfold Scope.bindInner
  split
  · simp [IsPlain, Frame.of]
  · rename_i f outer hframes
    simp only [IsPlain, hframes, List.mem_cons, forall_eq_or_imp] at hs
    simp only [IsPlain, Frame.bind, List.mem_cons, forall_eq_or_imp]
    exact ⟨⟨fun _ h => (by cases h), hs.1⟩, hs.2⟩

/-- A parameter of the innermost frame that stands for a place. -/
theorem IsPlain.resolve {s : Scope} (hs : s.IsPlain) (param : String) (node : Expr) :
    Post (fun b => ∀ base, b = .path base → PlainPath base) (fun _ => True)
      (s.resolve param node) := by
  unfold Scope.resolve
  split
  · rename_i b hb
    unfold classify at hb
    split at hb
    · cases hb
    · rename_i inner outer hframes
      split at hb
      · rename_i b' hb'
        cases hb
        obtain ⟨⟨name, b''⟩, hfind, rfl⟩ := Option.map_eq_some_iff.1 hb'
        exact hs inner (by simp [hframes]) _ (List.mem_of_find?_eq_some hfind)
      · split at hb <;> cases hb
  · trivial
  · trivial

end Scope

namespace Mapping

variable {m : Mapping} {s : Scope}

theorem plain_target? (hm : m.IsPlain) (hs : s.IsPlain) {e : Expr}
    (he : e.isPlain m.schema = true) :
    Post (fun o => ∀ t ∈ o, PlainPath t.path) (fun _ => True) (m.target? e s) := by
  refine Post.bind (Schema.plain_fieldPath? hm e he) fun o ho => ?_
  cases o with
  | none => simp
  | some f =>
    refine Post.bind (hs.resolve f.param e) fun b hb => ?_
    cases b with
    | path base => simpa using (hb base rfl).append (ho f rfl)
    | _ => trivial

theorem plain_targetOr (hm : m.IsPlain) (hs : s.IsPlain) (node : Expr) {e : Expr}
    (he : e.isPlain m.schema = true) :
    Post (fun t => PlainPath t.path) (fun _ => True) (m.targetOr node e s) := by
  refine Post.bind (plain_target? hm hs he) fun o ho => ?_
  cases o with
  | none => trivial
  | some t => exact ho t rfl

theorem plain_target (hm : m.IsPlain) (hs : s.IsPlain) {e : Expr} (he : e.isPlain m.schema = true) :
    Post (fun t => PlainPath t.path) (fun _ => True) (m.target e s) :=
  plain_targetOr hm hs e he

theorem plain_encodeFor (hm : m.IsPlain) (target : Target) {l : Literal}
    (hl : isPlain l.value = true) :
    Post (fun x => isPlain x = true) (fun _ => True) (m.encodeFor target l) :=
  Schema.isPlain_encode hm (Schema.isPlain_coerce hm _ _ hl)

theorem plain_knownOr {schema : Schema} (node : Expr) {e : Expr} (he : e.isPlain schema = true) :
    Post (fun l => isPlain l.value = true ∧ e.known? = some l) (fun _ => True)
      (knownOr node e) := by
  unfold knownOr
  split
  · rename_i l hl
    exact ⟨Expr.isPlain_known? he hl, hl⟩
  · trivial

end Mapping

namespace Target

variable {t : Target}

theorem isOperator_name (h : PlainPath t.path) : isOperator t.name = false := h.isOperator

theorem isOperator_child (h : PlainPath t.path) {element : String}
    (he : isOperator element = false) : isOperator (t.child element) = false := by
  unfold child
  split
  · exact he
  · exact isOperator_append (isOperator_append (isOperator_name h) rfl) he

end Target

theorem Mapping.isOperator_discriminatorElement {m : Mapping} (hm : m.IsPlain) (typeName : String) :
    isOperator (m.discriminatorElement typeName) = false := by
  unfold Mapping.discriminatorElement Schema.discriminatorElement
  cases h : (m.schema.lineage typeName).findSome? fun name =>
      (m.schema.document? name).bind DocumentType.discriminatorElement with
  | none => exact hm.mark
  | some e =>
    obtain ⟨name, -, hd⟩ := List.exists_of_findSome?_eq_some h
    obtain ⟨d, hd, he⟩ := Option.bind_eq_some_iff.1 hd
    exact hm.marks d (List.mem_of_find?_eq_some hd) e he

end DocQuery
