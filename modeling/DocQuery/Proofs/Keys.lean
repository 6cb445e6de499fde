/-
Tests of all parts of an expression, and names that no key in a value has.

`Expr.every` tests each node of an expression. `Value.avoids` says of a value that
no document in it has a key of some kind. If the literals of an expression, the
members of its objects, the stored elements and the converters avoid such keys,
the known values of the expression avoid them (`avoids_known?`), and so does what
is stored for them (`avoids_encode`).
-/
import DocQuery.Expr.Literal
import DocQuery.Expr.Size
import DocQuery.Proofs.Document
import DocQuery.Proofs.Result
import DocQuery.Schema.Encoding

namespace DocQuery

/-! ## Nodes of an expression -/

namespace Expr

mutual
/-- Whether every node of an expression passes a test. -/
def every (q : Expr → Bool) : Expr → Bool
  | .literal l => q (.literal l)
  | .param p => q (.param p)
  | .member target name => q (.member target name) && every q target
  | .call target method args => q (.call target method args) && every q target && everyOf q args
  | .staticCall owner method args => q (.staticCall owner method args) && everyOf q args
  | .index target position => q (.index target position) && every q target && every q position
  | .not operand => q (.not operand) && every q operand
  | .negate operand => q (.negate operand) && every q operand
  | .convert operand type => q (.convert operand type) && every q operand
  | .quote inner => q (.quote inner) && every q inner
  | .binary op left right => q (.binary op left right) && every q left && every q right
  | .conditional test ifTrue ifFalse =>
    q (.conditional test ifTrue ifFalse) && every q test && every q ifTrue && every q ifFalse
  | .object typeName members => q (.object typeName members) && everyMember q members
  | .collection kind (some source) items =>
    q (.collection kind (some source) items) && every q source && everyOf q items
  | .collection kind none items => q (.collection kind none items) && everyOf q items
  | .lambda params body => q (.lambda params body) && every q body
  | .typeTest operand typeName exact => q (.typeTest operand typeName exact) && every q operand
  | .inject filter => q (.inject filter)
def everyOf (q : Expr → Bool) : List Expr → Bool
  | [] => true
  | e :: rest => every q e && everyOf q rest
def everyMember (q : Expr → Bool) : List (String × Expr) → Bool
  | [] => true
  | (_, e) :: rest => every q e && everyMember q rest
end

variable {q : Expr → Bool} {e : Expr}

theorem every_self (h : e.every q = true) : q e = true := by
  cases e with
  | collection kind source items =>
    cases source <;> simp only [every, Bool.and_eq_true] at h
    · exact h.1
    · exact h.1.1
  | _ => simp_all [every]

theorem every_of_mem {es : List Expr} (h : everyOf q es = true) (he : e ∈ es) :
    e.every q = true := by
  induction es with
  | nil => cases he
  | cons x rest ih =>
    simp only [everyOf, Bool.and_eq_true] at h
    rcases List.mem_cons.1 he with rfl | he
    · exact h.1
    · exact ih h.2 he

theorem every_of_mem_members {members : List (String × Expr)} {p : String × Expr}
    (h : everyMember q members = true) (hp : p ∈ members) : p.2.every q = true := by
  induction members with
  | nil => cases hp
  | cons x rest ih =>
    simp only [everyMember, Bool.and_eq_true] at h
    rcases List.mem_cons.1 hp with rfl | hp
    · exact h.1
    · exact ih h.2 hp

theorem every_strip (h : e.every q = true) : e.strip.every q = true := by
  fun_induction strip e with
  | case1 inner ih =>
    simp only [every, Bool.and_eq_true] at h
    exact ih h.2
  | case2 operand type ih =>
    simp only [every, Bool.and_eq_true] at h
    exact ih h.2
  | case3 e => exact h

theorem every_of_asLambda? {body : Expr} {params : List Param} (h : e.every q = true)
    (hl : e.asLambda? = some (params, body)) : body.every q = true := by
  fun_induction asLambda? e with
  | case1 ps b =>
    cases hl
    simp only [every, Bool.and_eq_true] at h
    exact h.2
  | case2 inner ih =>
    simp only [every, Bool.and_eq_true] at h
    exact ih h.2 hl
  | case3 e => cases hl

theorem every_of_asUnaryLambda? {body : Expr} {p : Param} (h : e.every q = true)
    (hl : e.asUnaryLambda? = some (p, body)) : body.every q = true := by
  unfold asUnaryLambda? at hl
  split at hl
  · rename_i r b hr
    cases hl
    exact every_of_asLambda? h hr
  · cases hl

/-- The receiver form of a call has no node that the call on the class has not, but for itself. -/
theorem every_of_receiverForm? {call : Expr} (h : e.every q = true)
    (hc : e.receiverForm? = some call) (hq : q call = true) : call.every q = true := by
  unfold receiverForm? at hc
  split at hc
  · split at hc
    · cases hc
      simp only [every, everyOf, Bool.and_eq_true] at h ⊢
      exact ⟨⟨hq, h.2.1⟩, h.2.2⟩
    · cases hc
  · cases hc

mutual
/-- A test that every node passes. -/
theorem every_of_forall {q : Expr → Bool} (hq : ∀ e, q e = true) : ∀ e : Expr, e.every q = true
  | .literal _ | .param _ | .inject _ => hq _
  | .member target _ | .not target | .negate target | .convert target _ | .quote target
  | .lambda _ target | .typeTest target _ _ => by simp only [every, hq, every_of_forall hq target,
      Bool.and_self]
  | .index left right | .binary _ left right => by
    simp only [every, hq, every_of_forall hq left, every_of_forall hq right, Bool.and_self]
  | .conditional test ifTrue ifFalse => by
    simp only [every, hq, every_of_forall hq test, every_of_forall hq ifTrue,
      every_of_forall hq ifFalse, Bool.and_self]
  | .call target _ args | .collection _ (some target) args => by
    simp only [every, hq, every_of_forall hq target, everyOf_of_forall hq args, Bool.and_self]
  | .staticCall _ _ args | .collection _ none args => by
    simp only [every, hq, everyOf_of_forall hq args, Bool.and_self]
  | .object _ members => by
    simp only [every, hq, everyMember_of_forall hq members, Bool.and_self]
theorem everyOf_of_forall {q : Expr → Bool} (hq : ∀ e, q e = true) :
    ∀ es : List Expr, everyOf q es = true
  | [] => rfl
  | e :: rest => by
    simp only [everyOf, every_of_forall hq e, everyOf_of_forall hq rest, Bool.and_self]
theorem everyMember_of_forall {q : Expr → Bool} (hq : ∀ e, q e = true) :
    ∀ members : List (String × Expr), everyMember q members = true
  | [] => rfl
  | (_, e) :: rest => by
    simp only [everyMember, every_of_forall hq e, everyMember_of_forall hq rest, Bool.and_self]
end

end Expr

/-! ## Keys in a value -/

namespace Value

mutual
/-- Whether no document in a value has a key of a kind. -/
def avoids (bad : String → Bool) : Value → Bool
  | .array items => itemsAvoid bad items
  | .document fields => fieldsAvoid bad fields
  | _ => true
def itemsAvoid (bad : String → Bool) : List Value → Bool
  | [] => true
  | v :: rest => avoids bad v && itemsAvoid bad rest
def fieldsAvoid (bad : String → Bool) : List (String × Value) → Bool
  | [] => true
  | (k, v) :: rest => !bad k && avoids bad v && fieldsAvoid bad rest
end

variable {bad : String → Bool}

theorem itemsAvoid_iff {items : List Value} :
    itemsAvoid bad items = true ↔ ∀ v ∈ items, v.avoids bad = true := by
  induction items with
  | nil => simp [itemsAvoid]
  | cons v rest ih => simp [itemsAvoid, ih]

theorem fieldsAvoid_iff {fields : List (String × Value)} :
    fieldsAvoid bad fields = true ↔ ∀ e ∈ fields, bad e.1 = false ∧ e.2.avoids bad = true := by
  induction fields with
  | nil => simp [fieldsAvoid]
  | cons e rest ih =>
    obtain ⟨k, v⟩ := e
    simp [fieldsAvoid, ih]

theorem fieldsAvoid_ofFields {fields : List (String × Value)}
    (h : fieldsAvoid bad fields = true) : fieldsAvoid bad (Document.ofFields fields) = true := by
  rw [fieldsAvoid_iff] at h ⊢
  intro e he
  exact h e (Document.mem_of_mem_ofFields he)

end Value

/-- Whether a node brings no key of a kind into a value. -/
def Expr.nodeAvoids (bad : String → Bool) : Expr → Bool
  | .literal l => l.value.avoids bad
  | .object _ members => members.all fun (name, _) => !bad name
  | _ => true

/-- Stored elements have no name of a kind, and converters bring none into a value. -/
structure Schema.Avoids (s : Schema) (bad : String → Bool) : Prop where
  elements : ∀ d ∈ s.documents, ∀ e ∈ d.members, bad e.element = false
  converters : ∀ c ∈ s.converters, ∀ x y, x.avoids bad = true → c.convert x = some y →
    y.avoids bad = true

namespace Expr

variable {bad : String → Bool} {q : Expr → Bool}

mutual
/-- The known value of an expression has keys from its literals and its objects only. -/
theorem avoids_known? (hq : ∀ e, q e = true → e.nodeAvoids bad = true) :
    ∀ {e : Expr} {l : Literal}, e.every q = true → e.known? = some l → l.value.avoids bad = true
  | .literal l, _, h, hl => by
    cases hl
    exact hq _ h
  | .quote inner, _, h, hl => by
    simp only [every, Bool.and_eq_true] at h
    exact avoids_known? hq h.2 (by simpa only [known?] using hl)
  | .convert operand _, _, h, hl => by
    simp only [every, Bool.and_eq_true] at h
    exact avoids_known? hq h.2 (by simpa only [known?] using hl)
  | .negate operand, l, h, hl => by
    simp only [known?, Option.bind_eq_some_iff] at hl
    obtain ⟨l', -, hl⟩ := hl
    unfold Literal.negate? at hl
    split at hl <;> cases hl <;> rfl
  | .object (some name) members, l, h, hl => by
    simp only [every, Bool.and_eq_true] at h
    simp only [known?, Option.map_eq_some_iff] at hl
    obtain ⟨fields, hf, rfl⟩ := hl
    have hnames : (members.all fun (name, _) => !bad name) = true := hq _ h.1
    exact Value.fieldsAvoid_ofFields (avoids_knownMembers? hq h.2 hnames hf)
  | .collection _ (some source) items, _, h, hl => by
    simp only [every, Bool.and_eq_true] at h
    exact avoids_known? hq h.1.2 (by simpa only [known?] using hl)
  | .collection _ none items, l, h, hl => by
    simp only [every, Bool.and_eq_true] at h
    simp only [known?, Option.map_eq_some_iff] at hl
    obtain ⟨ls, hls, rfl⟩ := hl
    exact avoids_knownItems? hq h.2 hls
  | .object none _, _, _, hl | .param _, _, _, hl | .member _ _, _, _, hl | .call _ _ _, _, _, hl
  | .staticCall _ _ _, _, _, hl | .index _ _, _, _, hl | .not _, _, _, hl
  | .binary _ _ _, _, _, hl | .conditional _ _ _, _, _, hl | .lambda _ _, _, _, hl
  | .typeTest _ _ _, _, _, hl | .inject _, _, _, hl => by simp [known?] at hl
theorem avoids_knownItems? (hq : ∀ e, q e = true → e.nodeAvoids bad = true) :
    ∀ {es : List Expr} {ls : List Literal}, everyOf q es = true → knownItems? es = some ls →
      Value.itemsAvoid bad (ls.map Literal.value) = true
  | [], _, _, hl => by
    cases hl
    rfl
  | e :: rest, ls, h, hl => by
    simp only [everyOf, Bool.and_eq_true] at h
    simp only [knownItems?, Option.bind_eq_bind, Option.bind_eq_some_iff] at hl
    obtain ⟨l, hl, ls', hls, heq⟩ := hl
    cases heq
    simp only [List.map_cons, Value.itemsAvoid, Bool.and_eq_true]
    exact ⟨avoids_known? hq h.1 hl, avoids_knownItems? hq h.2 hls⟩
theorem avoids_knownMembers? (hq : ∀ e, q e = true → e.nodeAvoids bad = true) :
    ∀ {members : List (String × Expr)} {fields : List (String × Value)},
      everyMember q members = true → (members.all fun (name, _) => !bad name) = true →
      knownMembers? members = some fields → Value.fieldsAvoid bad fields = true
  | [], _, _, _, hf => by
    cases hf
    rfl
  | (name, e) :: rest, fields, h, hnames, hf => by
    simp only [everyMember, Bool.and_eq_true] at h
    simp only [List.all_cons, Bool.and_eq_true] at hnames
    simp only [knownMembers?, Option.bind_eq_bind, Option.bind_eq_some_iff] at hf
    obtain ⟨l, hl, ls, hls, heq⟩ := hf
    cases heq
    simp only [Value.fieldsAvoid, Bool.and_eq_true]
    exact ⟨⟨hnames.1, avoids_known? hq h.1 hl⟩, avoids_knownMembers? hq h.2 hnames.2 hls⟩
end

end Expr

/-! ## Stored values -/

namespace Schema

variable {s : Schema} {bad : String → Bool}

theorem avoids_element (hs : s.Avoids bad) {typeName name : String} {e : Member}
    (h : s.member? typeName name = some e) : bad e.element = false := by
  unfold member? at h
  obtain ⟨owner, -, ho⟩ := List.exists_of_findSome?_eq_some h
  obtain ⟨d, hd, he⟩ := Option.bind_eq_some_iff.1 ho
  exact hs.elements d (List.mem_of_find?_eq_some hd) e (List.mem_of_find?_eq_some he)

theorem avoids_convert (hs : s.Avoids bad) (source target : ValueType) {x : Value}
    (h : x.avoids bad = true) : (s.convert source target x).avoids bad = true := by
  unfold convert
  cases hc : s.converter? source target with
  | none => exact h
  | some c =>
    cases hy : c.convert x with
    | none => simpa [hy] using h
    | some y =>
      have hmem : c ∈ s.converters := List.mem_of_find?_eq_some hc
      simpa [hy] using hs.converters c hmem x y h hy

theorem avoids_coerce (hs : s.Avoids bad) (source target : ValueType) {x : Value}
    (h : x.avoids bad = true) : (s.coerce source target x).avoids bad = true := by
  induction source generalizing target x with
  | nullable inner ih => exact ih target h
  | any => exact h
  | array item ih =>
    simp only [coerce]
    split
    · exact h
    · split
      · exact h
      · split
        · exact h
        · rw [Value.avoids, Value.itemsAvoid_iff] at h ⊢
          intro v hv
          obtain ⟨w, hw, rfl⟩ := List.mem_map.1 hv
          exact ih _ (h w hw)
        · exact avoids_convert hs _ _ h
  | _ =>
    simp only [coerce]
    split
    · exact h
    · split
      · exact h
      · split <;> first | exact h | exact avoids_convert hs _ _ h

theorem avoids_represent {r : Representation} {x : Value} (h : x.avoids bad = true) :
    Post (fun y => y.avoids bad = true) (fun _ => True) (represent r x) := by
  unfold represent
  split
  all_goals first | exact h | exact rfl | (split <;> trivial)

theorem avoids_encodeEnum (s : Schema) (name : String) (r : Representation) (x : Value) :
    Post (fun y => y.avoids bad = true) (fun _ => True) (s.encodeEnum name r x) := by
  unfold encodeEnum
  refine Post.bind (Post.of_total (s.enumNumber name x)) fun n _ => ?_
  split
  · rfl
  · rfl
  · cases hn : int32? n.toInt <;> rfl

mutual
/-- What is stored for a value has its keys and those of the stored elements. -/
theorem avoids_encode (hs : s.Avoids bad) (t : ValueType) (r : Representation) :
    ∀ x : Value, x.avoids bad = true →
      Post (fun y => y.avoids bad = true) (fun _ => True) (s.encode t r x)
  | .null, _ => rfl
  | .array items, h => by
    rw [encode]
    split
    · rename_i item _
      refine Post.bind (avoids_encodeItems hs item r items h) fun stored hstored => ?_
      exact hstored
    · exact avoids_encodeEnum ..
    · exact h
  | .document fields, h => by
    rw [encode]
    split
    · exact avoids_encodeEnum ..
    · rename_i name _
      refine Post.bind (avoids_encodeMembers hs name fields h) fun stored hstored => ?_
      exact Value.fieldsAvoid_ofFields hstored
    · rename_i value _ _
      refine Post.bind (avoids_encodeEntries hs value r fields h) fun stored hstored => ?_
      exact Value.fieldsAvoid_ofFields hstored
    · exact h
  | .bool _, h | .int32 _, h | .int64 _, h | .double _, h | .string _, h | .objectId _, h
  | .dateTime _, h | .regex _ _, h | .decimal _, h | .binary _, h | .timestamp _ _, h
  | .symbol _, h | .javaScript _, h | .minKey, h | .maxKey, h | .undefined, h => by
    simp only [encode]
    split
    · exact avoids_encodeEnum ..
    · exact h
    · exact h
    · exact avoids_represent h
theorem avoids_encodeItems (hs : s.Avoids bad) (t : ValueType) (r : Representation) :
    ∀ items : List Value, Value.itemsAvoid bad items = true →
      Post (fun stored => Value.itemsAvoid bad stored = true) (fun _ => True)
        (s.encodeItems t r items)
  | [], _ => rfl
  | v :: rest, h => by
    simp only [Value.itemsAvoid, Bool.and_eq_true] at h
    rw [encodeItems]
    refine Post.bind (avoids_encode hs t r v h.1) fun w hw => ?_
    refine Post.bind (avoids_encodeItems hs t r rest h.2) fun stored hstored => ?_
    simp only [post_pure, Value.itemsAvoid, hw, hstored, Bool.and_self]
theorem avoids_encodeMembers (hs : s.Avoids bad) (typeName : String) :
    ∀ fields : List (String × Value), Value.fieldsAvoid bad fields = true →
      Post (fun stored => Value.fieldsAvoid bad stored = true) (fun _ => True)
        (s.encodeMembers typeName fields)
  | [], _ => rfl
  | (name, v) :: rest, h => by
    simp only [Value.fieldsAvoid, Bool.and_eq_true, Bool.not_eq_true'] at h
    have hrest := avoids_encodeMembers hs typeName rest h.2
    cases he : s.member? typeName name with
    | none =>
      simp only [encodeMembers, he, pure_bind]
      refine Post.bind hrest fun stored hstored => ?_
      simp only [post_pure, Value.fieldsAvoid, h.1.1, h.1.2, hstored]
      rfl
    | some e =>
      simp only [encodeMembers, he, pure_bind]
      refine Post.bind (avoids_encode hs e.type e.representation v h.1.2) fun w hw => ?_
      refine Post.bind hrest fun stored hstored => ?_
      simp only [post_pure, Value.fieldsAvoid, avoids_element hs he, hw, hstored]
      rfl
theorem avoids_encodeEntries (hs : s.Avoids bad) (t : ValueType) (r : Representation) :
    ∀ fields : List (String × Value), Value.fieldsAvoid bad fields = true →
      Post (fun stored => Value.fieldsAvoid bad stored = true) (fun _ => True)
        (s.encodeEntries t r fields)
  | [], _ => rfl
  | (key, v) :: rest, h => by
    simp only [Value.fieldsAvoid, Bool.and_eq_true, Bool.not_eq_true'] at h
    rw [encodeEntries]
    refine Post.bind (avoids_encode hs t r v h.1.2) fun w hw => ?_
    refine Post.bind (avoids_encodeEntries hs t r rest h.2) fun stored hstored => ?_
    simp only [post_pure, Value.fieldsAvoid, h.1.1, hw, hstored]
    rfl
end

end Schema
end DocQuery
