/-
What a resolved path reads (`lookUp_eq_value_iff`).

`Mapping.valueOf?` evaluates an expression on stored values: a member is the
element that stores it, a selection maps its body over the items, and a selection
by type keeps the items of that type. The path that `Schema.fieldPath?` gives for
the expression drops no items, so reading the path (`readThrough`) gives what the
expression has if every selection by type keeps all (`readThrough_fieldPath?`).
A shape reads the path with arrays as `readThrough` does if the arrays on the way
hold nothing but documents (`lookUp_iff_readThrough`).
-/
import DocQuery.FieldPath
import DocQuery.Mapping
import DocQuery.Proofs.Result
import DocQuery.Shape
import DocQuery.Typing

namespace DocQuery

/-! ## Values of expressions -/

/-- Element of a document, null if it has none. Of null, every element is null. -/
def Value.element? (v : Value) (key : String) : Option Value :=
  match v with
  | .document fields => some ((Document.get? fields key).getD .null)
  | .null => some .null
  | _ => none

/-- What is made of each item of an array. -/
def Value.mapItems? (f : Value → Option Value) (v : Value) : Option Value :=
  match v with
  | .array items => (items.mapM f).map .array
  | .null => some .null
  | _ => none

namespace Mapping

/-- Whether an item of an array of `nominal` is marked as one of `actual`. -/
def isMarked (m : Mapping) (nominal actual : String) (item : Value) : Bool :=
  match m.schema.discriminator nominal actual with
  | .ok none => true
  | .ok (some mark) =>
    ((item.element? (m.discriminatorElement nominal)).bind Value.asString?).any
      (some · = mark.asString?)
  | .error _ => false

section Evaluation
variable (m : Mapping) (keeps : String → String → Value → Bool)

mutual
/-- Value of an expression of parameters with given values. `keeps` says which items a selection by
type keeps. Positions in arrays are left out, as is the question whether there is a value. -/
def valueOf? (vars : String → Option Value) : Expr → Option Value
  | .quote inner => valueOf? vars inner
  | .convert operand _ => valueOf? vars operand
  | .param p => vars p.name
  | .member target name => do
    let v ← valueOf? vars target
    let type := m.schema.typeOf target
    if type.isNullable && name = "Value" then some v
    else if type.isNullable && name = "HasValue" then none
    else
      match m.schema.storedMember? type name with
      | .ok (some stored) => v.element? stored.element
      | _ => none
  | .index target position => do
    let v ← valueOf? vars target
    match (m.schema.typeOf target).underlying with
    | .dictionary _ .document => (position.asLiteral?.bind Literal.asString?).bind v.element?
    | _ => none
  | .call target method [arg] => do
    let v ← valueOf? vars target
    match method with
    | "OfType" =>
      match (m.schema.typeOf target).item?.map ValueType.underlying,
          arg.asLiteral?.bind Literal.asString? with
      | some (.document nominal), some actual =>
        match v with
        | .array items => some (.array (items.filter (keeps nominal actual)))
        | .null => some .null
        | _ => none
      | _, _ => none
    | "Select" =>
      match arg.asUnaryLambda? with
      | some (p, _) =>
        v.mapItems? fun item => bodyOf? (fun q => if q = p.name then some item else vars q) arg
      | none => none
    | _ => none
  | _ => none
/-- Value of the body of a lambda. -/
def bodyOf? (vars : String → Option Value) : Expr → Option Value
  | .lambda _ body => valueOf? vars body
  | .quote inner => bodyOf? vars inner
  | _ => none
end

end Evaluation
end Mapping

/-! ## Reading a path -/

mutual
/-- What is read of an element of a document. Of null it is null, and arrays are read item by
item. -/
def readElement (key : String) (next : Value → Option Value) : Value → Option Value
  | .document fields => next ((Document.get? fields key).getD .null)
  | .array items => (readElements key next items).map .array
  | .null => some .null
  | _ => none
def readElements (key : String) (next : Value → Option Value) : List Value → Option (List Value)
  | [] => some []
  | v :: rest => do
    let first ← readElement key next v
    let others ← readElements key next rest
    return first :: others
end

/-- Value at the end of a path. What is missing or null on the way reads as null. -/
def readThrough : List String → Value → Option Value
  | [], v => some v
  | key :: path, v => readElement key (readThrough path) v

theorem readElements_eq_mapM (key : String) (next : Value → Option Value) (items : List Value) :
    readElements key next items = items.mapM (readElement key next) := by
  induction items with
  | nil => rfl
  | cons v rest ih =>
    rw [readElements, ih, List.mapM_cons]

theorem readThrough_null (path : List String) : readThrough path .null = some .null := by
  cases path <;> rfl

theorem readThrough_array (path : List String) (items : List Value) :
    readThrough path (.array items) = (items.mapM (readThrough path)).map .array := by
  cases path with
  | nil =>
    have hitems : items.mapM (readThrough []) = some items := by
      induction items with
      | nil => rfl
      | cons v rest ih =>
        rw [List.mapM_cons, ih]
        rfl
    rw [hitems]
    rfl
  | cons key path =>
    change readElement key (readThrough path) (.array items) = _
    rw [readElement, readElements_eq_mapM]
    rfl

mutual
/-- What comes after an element is read of each of its values. -/
theorem readElement_bind (key : String) (next : Value → Option Value) (path : List String) :
    ∀ v, readElement key (fun w => (next w).bind (readThrough path)) v =
      (readElement key next v).bind (readThrough path)
  | .document fields => rfl
  | .array items => by
    simp only [readElement, readElements_bind key next path items]
    cases readElements key next items with
    | none => rfl
    | some values => simp [readThrough_array]
  | .null => by simp [readElement, readThrough_null]
  | .bool _ | .int32 _ | .int64 _ | .double _ | .string _ | .objectId _ | .dateTime _ | .regex ..
  | .decimal _ | .binary .. | .timestamp .. | .symbol _ | .javaScript _ | .minKey | .maxKey
  | .undefined => rfl
theorem readElements_bind (key : String) (next : Value → Option Value) (path : List String) :
    ∀ items, readElements key (fun w => (next w).bind (readThrough path)) items =
      (readElements key next items).bind fun values => values.mapM (readThrough path)
  | [] => rfl
  | v :: rest => by
    simp only [readElements, readElement_bind key next path v, readElements_bind key next path rest]
    cases readElement key next v with
    | none => rfl
    | some first =>
      cases readElements key next rest with
      | none => cases hfirst : readThrough path first <;> simp
      | some others => simp [List.mapM_cons]
end

/-- A longer path is read step by step. -/
theorem readThrough_append (p q : List String) (v : Value) :
    readThrough (p ++ q) v = (readThrough p v).bind (readThrough q) := by
  induction p generalizing v with
  | nil => rfl
  | cons key p ih =>
    have hnext : readThrough (p ++ q) = fun w => (readThrough p w).bind (readThrough q) :=
      funext ih
    rw [List.cons_append, readThrough, hnext, readElement_bind]
    rfl

theorem readThrough_element {key : String} {v w : Value} (h : v.element? key = some w) :
    readThrough [key] v = some w := by
  cases v <;> first | exact h | cases h

/-- Two readers of single items that agree where a condition holds agree on lists. -/
theorem mapM_eq_ok_iff {f : Value → Result Value} {g : Value → Option Value}
    {holds : Value → Bool} {items : List Value}
    (h : ∀ i ∈ items, ∀ w, f i = .ok w ↔ g i = some w ∧ holds i = true) {values : List Value} :
    items.mapM f = .ok values ↔ items.mapM g = some values ∧ items.all holds = true := by
  induction items generalizing values with
  | nil =>
    simp only [List.mapM_nil, List.all_nil, and_true]
    exact ⟨fun h => by cases h; rfl, fun h => by cases h; rfl⟩
  | cons i rest ih =>
    obtain ⟨hi, hrest⟩ := List.forall_mem_cons.1 h
    simp only [List.mapM_cons, List.all_cons, Bool.and_eq_true]
    constructor
    · intro hok
      obtain ⟨w, hw, hok⟩ := bind_eq_ok.1 hok
      obtain ⟨ws, hws, hok⟩ := bind_eq_ok.1 hok
      cases hok
      obtain ⟨hg, hholds⟩ := (hi w).1 hw
      obtain ⟨hgs, hall⟩ := (ih hrest).1 hws
      exact ⟨by simp [hg, hgs], hholds, hall⟩
    · intro hmapped
      obtain ⟨hsome, hholds, hall⟩ := hmapped
      obtain ⟨w, hw, hsome⟩ := Option.bind_eq_some_iff.1 hsome
      obtain ⟨ws, hws, hsome⟩ := Option.bind_eq_some_iff.1 hsome
      cases hsome
      rw [(hi w).2 ⟨hw, hholds⟩, (ih hrest).2 ⟨hws, hall⟩]
      rfl

theorem mapM_of_imp {f g : Value → Option Value} {items values : List Value}
    (h : ∀ i ∈ items, ∀ w, f i = some w → g i = some w) (hf : items.mapM f = some values) :
    items.mapM g = some values := by
  induction items generalizing values with
  | nil => exact hf
  | cons i rest ih =>
    obtain ⟨hi, hrest⟩ := List.forall_mem_cons.1 h
    rw [List.mapM_cons] at hf ⊢
    obtain ⟨w, hw, hf⟩ := Option.bind_eq_some_iff.1 hf
    obtain ⟨ws, hws, hf⟩ := Option.bind_eq_some_iff.1 hf
    rw [hi w hw, ih hrest hws]
    exact hf

namespace Shape

/-- Whether the arrays on the way along a path hold nothing but documents. -/
def passes : List String → Document → Bool
  | [], _ => true
  | element :: rest, d =>
    rest.isEmpty ||
      match d.get? element with
      | some (.document nested) => passes rest nested
      | some (.array items) =>
        items.all fun
          | .document nested => passes rest nested
          | _ => false
      | _ => true

/-- A shape reads what is at the end of a path exactly if the arrays on the way hold nothing but
documents. -/
theorem lookUp_iff_readThrough {path : List String} {d : Document} {w : Value} :
    lookUp true path d = .ok w ↔
      readThrough path (.document d) = some w ∧ passes path d = true := by
  induction path generalizing d w with
  | nil => simp [lookUp, readThrough, passes]
  | cons element rest ih =>
    have hread : readThrough (element :: rest) (.document d) =
        readThrough rest ((d.get? element).getD .null) := rfl
    rw [hread]
    cases rest with
    | nil =>
      simp only [lookUp, passes, readThrough, List.isEmpty_nil, Bool.true_or, if_true, and_true]
      split <;> rename_i h <;> simp [h]
    | cons next rest =>
      simp only [lookUp, passes, List.isEmpty_cons, Bool.false_or, Bool.false_eq_true, if_false]
      cases hget : Document.get? d element with
      | none => simp [readThrough_null]
      | some v =>
        cases v with
        | null => simp [readThrough_null]
        | document nested => exact ih
        | array items =>
          change (items.mapM _ >>= fun values => pure (Value.array values)) = _ ↔ _
          rw [Option.getD_some, readThrough_array]
          have hitems (values : List Value) :
              items.mapM (fun
                | .document nested => lookUp true (next :: rest) nested
                | other => .error (.notDocument element other)) = .ok values ↔
                items.mapM (readThrough (next :: rest)) = some values ∧
                  items.all (fun
                    | .document nested => passes (next :: rest) nested
                    | _ => false) = true :=
            mapM_eq_ok_iff fun i _ w => by cases i <;> simp [ih]
          simp only [bind_eq_ok, Option.map_eq_some_iff]
          constructor
          · intro hlook
            obtain ⟨values, hvalues, hw⟩ := hlook
            cases hw
            obtain ⟨hread, hall⟩ := (hitems values).1 hvalues
            exact ⟨⟨values, hread, rfl⟩, hall⟩
          · intro hthrough
            obtain ⟨⟨values, hread, rfl⟩, hall⟩ := hthrough
            exact ⟨values, (hitems values).2 ⟨hread, hall⟩, rfl⟩
        | _ => simp [readThrough, readElement]

end Shape

/-! ## Types of places -/

namespace Schema

/-- Values of a type have their stored members where values of another type have them. -/
structure StoresLike (s : Schema) (type other : ValueType) : Prop where
  value : type.isNullable = true → other.isNullable = true
  member : ∀ name stored, s.storedMember? type name = .ok (some stored) →
    s.storedMember? other name = .ok (some stored) ∧ other.isNullable = type.isNullable
  entry : ∀ value, type.underlying = .dictionary value .document →
    other.underlying = .dictionary value .document

namespace StoresLike

variable {s : Schema} {a b c : ValueType}

theorem refl (s : Schema) (a : ValueType) : s.StoresLike a a :=
  ⟨id, fun _ _ h => ⟨h, rfl⟩, fun _ h => h⟩

theorem trans (h : s.StoresLike a b) (h' : s.StoresLike b c) : s.StoresLike a c := by
  refine ⟨fun ha => h'.value (h.value ha), fun name stored ha => ?_,
    fun v ha => h'.entry v (h.entry v ha)⟩
  obtain ⟨hb, hab⟩ := h.member name stored ha
  obtain ⟨hc, hbc⟩ := h'.member name stored hb
  exact ⟨hc, hbc.trans hab⟩

/-- An array has no stored members. -/
theorem array (s : Schema) (item b : ValueType) : s.StoresLike (.array item) b where
  value h := nomatch h
  member _ _ h := nomatch h
  entry _ h := nomatch h

end StoresLike

theorem underlying_underlying (t : ValueType) : t.underlying.underlying = t.underlying := by
  fun_induction ValueType.underlying t with
  | case1 inner ih => exact ih
  | case2 t h =>
    cases t <;> first | rfl | exact absurd rfl (h _)

theorem isNullable_underlying (t : ValueType) : t.underlying.isNullable = false := by
  fun_induction ValueType.underlying t with
  | case1 inner ih => exact ih
  | case2 t h =>
    cases t <;> first | rfl | exact absurd rfl (h _)

theorem StoresLike.underlying {s : Schema} {a b : ValueType} (h : s.StoresLike a b) :
    s.StoresLike a.underlying b.underlying := by
  have hstored (t : ValueType) (name : String) :
      s.storedMember? t.underlying name = s.storedMember? t name := by
    rw [storedMember?, storedMember?, underlying_underlying]
  refine ⟨fun ha => ?_, fun name stored ha => ?_, fun v ha => ?_⟩
  · rw [isNullable_underlying] at ha
    cases ha
  · rw [hstored] at ha ⊢
    exact ⟨(h.member name stored ha).1, by rw [isNullable_underlying, isNullable_underlying]⟩
  · rw [underlying_underlying] at ha ⊢
    exact h.entry v ha

mutual
/-- Each conversion is to a type that stores its members like the type of the operand. -/
def ConvertsAlike (s : Schema) : Expr → Prop
  | .quote inner => ConvertsAlike s inner
  | .convert operand type => s.StoresLike type (s.typeOf operand) ∧ ConvertsAlike s operand
  | .member target _ => ConvertsAlike s target
  | .index target _ => ConvertsAlike s target
  | .call target _ [arg] => ConvertsAlike s target ∧ BodyConvertsAlike s arg
  | _ => True
def BodyConvertsAlike (s : Schema) : Expr → Prop
  | .lambda _ body => ConvertsAlike s body
  | .quote inner => BodyConvertsAlike s inner
  | _ => True
end

end Schema

/-! ## The path of an expression -/

namespace Mapping

variable {m : Mapping}

/-- Keeps every item. -/
def keepsAll (_nominal _actual : String) (_item : Value) : Bool := true

section Steps
variable {vars : String → Option Value} {target arg : Expr} {name method : String}
  {f g : FieldPath} {u v : Value}

theorem valueOf?_member (h : m.valueOf? keepsAll vars (.member target name) = some u) :
    ∃ v, m.valueOf? keepsAll vars target = some v := by
  rw [valueOf?] at h
  obtain ⟨v, hv, -⟩ := Option.bind_eq_some_iff.1 h
  exact ⟨v, hv⟩

theorem valueOf?_index {position : Expr}
    (h : m.valueOf? keepsAll vars (.index target position) = some u) :
    ∃ v, m.valueOf? keepsAll vars target = some v := by
  rw [valueOf?] at h
  obtain ⟨v, hv, -⟩ := Option.bind_eq_some_iff.1 h
  exact ⟨v, hv⟩

theorem valueOf?_call (h : m.valueOf? keepsAll vars (.call target method [arg]) = some u) :
    (∃ v, m.valueOf? keepsAll vars target = some v) ∧ (method = "OfType" ∨ method = "Select") := by
  unfold valueOf? at h
  obtain ⟨v, hv, h⟩ := Option.bind_eq_some_iff.1 h
  refine ⟨⟨v, hv⟩, ?_⟩
  split at h
  · exact .inl rfl
  · exact .inr rfl
  · cases h

theorem readThrough_below {key : String} (h : (vars g.param).bind (readThrough g.path) = some v)
    (hu : v.element? key = some u) :
    (vars g.param).bind (readThrough (g.path ++ [key])) = some u := by
  obtain ⟨x, hx, hv⟩ := Option.bind_eq_some_iff.1 h
  rw [hx, Option.bind_some, readThrough_append, hv, Option.bind_some]
  exact readThrough_element hu

/-- A member is read below its target. -/
theorem readThrough_memberOf? (hf : m.schema.memberOf? g name = .ok (some f))
    (hread : (vars g.param).bind (readThrough g.path) = some v)
    (hlike : m.schema.StoresLike (m.schema.typeOf target) g.type)
    (hv : m.valueOf? keepsAll vars target = some v)
    (hu : m.valueOf? keepsAll vars (.member target name) = some u) :
    (vars f.param).bind (readThrough f.path) = some u ∧
      m.schema.StoresLike (m.schema.typeOf (.member target name)) f.type := by
  rw [valueOf?, hv] at hu
  simp only [Option.bind_eq_bind, Option.bind_some] at hu
  rw [Schema.typeOf]
  split at hu
  · rename_i hvalue
    simp only [Bool.and_eq_true, decide_eq_true_eq] at hvalue
    obtain ⟨hnull, rfl⟩ := hvalue
    cases hu
    simp only [Schema.memberOf?, hlike.value hnull, decide_true, Bool.and_self, if_true] at hf
    cases hf
    refine ⟨hread, ?_⟩
    simp only [Schema.memberType, hnull, decide_true, Bool.and_self, if_true]
    exact hlike.underlying
  · rename_i hvalue
    split at hu
    · cases hu
    · rename_i hhas
      split at hu
      · rename_i stored hstored
        obtain ⟨hplace, hnull⟩ := hlike.member name stored hstored
        have hvalue := Bool.eq_false_iff.2 hvalue
        have hhas := Bool.eq_false_iff.2 hhas
        simp only [Schema.memberOf?, hnull, hvalue, Bool.false_eq_true, if_false, hplace] at hf
        cases hf
        refine ⟨readThrough_below hread hu, ?_⟩
        rw [Schema.memberType_of_storedMember? hvalue hhas hstored]
        exact .refl _ _
      · cases hu

/-- An entry of a dictionary is read below the dictionary. -/
theorem readThrough_item? {position : Expr} (hf : position.asLiteral?.bind g.item? = some f)
    (hread : (vars g.param).bind (readThrough g.path) = some v)
    (hlike : m.schema.StoresLike (m.schema.typeOf target) g.type)
    (hv : m.valueOf? keepsAll vars target = some v)
    (hu : m.valueOf? keepsAll vars (.index target position) = some u) :
    (vars f.param).bind (readThrough f.path) = some u ∧
      m.schema.StoresLike (m.schema.typeOf (.index target position)) f.type := by
  rw [valueOf?, hv] at hu
  simp only [Option.bind_eq_bind, Option.bind_some] at hu
  rw [Schema.typeOf]
  split at hu
  · rename_i value htype
    obtain ⟨key, hkey, hu⟩ := Option.bind_eq_some_iff.1 hu
    obtain ⟨l, hl, hkey⟩ := Option.bind_eq_some_iff.1 hkey
    rw [hl, Option.bind_some, FieldPath.item?, hlike.entry value htype] at hf
    simp only [hkey] at hf
    cases hf
    rw [htype]
    exact ⟨readThrough_below hread hu, .refl _ _⟩
  · cases hu

/-- Items that are all kept are read where they are. -/
theorem readThrough_ofType (hf : ((arg.asLiteral?.bind Literal.asString?).map fun name =>
      { g with type := .array (.document name) }) = some f)
    (hread : (vars g.param).bind (readThrough g.path) = some v)
    (hv : m.valueOf? keepsAll vars target = some v)
    (hu : m.valueOf? keepsAll vars (.call target "OfType" [arg]) = some u) :
    (vars f.param).bind (readThrough f.path) = some u := by
  obtain ⟨actual, -, rfl⟩ := Option.map_eq_some_iff.1 hf
  rw [valueOf?, hv] at hu
  simp only [Option.bind_eq_bind, Option.bind_some] at hu
  suffices hsame : u = v by
    subst hsame
    exact hread
  split at hu
  · split at hu
    · cases hu
      have hall (items : List Value) (nominal actual : String) :
          items.filter (keepsAll nominal actual) = items :=
        List.filter_eq_self.2 fun _ _ => rfl
      rw [hall]
    · cases hu
      rfl
    · cases hu
  · cases hu

/-- What a selection makes of each item is read below the array. -/
theorem readThrough_select {p : Param} {inner : FieldPath}
    (hread : (vars g.param).bind (readThrough g.path) = some v)
    (hbody : ∀ item w,
      m.bodyOf? keepsAll (fun q => if q = p.name then some item else vars q) arg = some w →
      readThrough inner.path item = some w)
    (hu : (v.mapItems? fun item =>
      m.bodyOf? keepsAll (fun q => if q = p.name then some item else vars q) arg) = some u) :
    (vars (g.through inner).param).bind (readThrough (g.through inner).path) = some u := by
  have hbelow : readThrough inner.path v = some u := by
    unfold Value.mapItems? at hu
    split at hu
    · obtain ⟨values, hvalues, rfl⟩ := Option.map_eq_some_iff.1 hu
      rw [readThrough_array, mapM_of_imp (fun item _ w hw => hbody item w hw) hvalues]
      rfl
    · cases hu
      exact readThrough_null _
    · cases hu
  obtain ⟨x, hx, hv⟩ := Option.bind_eq_some_iff.1 hread
  unfold FieldPath.through
  split
  · rename_i hempty
    rw [List.isEmpty_iff.1 hempty] at hbelow
    cases hbelow
    exact hread
  · rw [hx, Option.bind_some, readThrough_append, hv]
    exact hbelow

end Steps

mutual
/-- At the path of an expression is its value, if selections by type keep all. -/
theorem readThrough_fieldPath? (vars : String → Option Value) :
    ∀ (e : Expr) {f : FieldPath} {u : Value}, m.schema.fieldPath? e = .ok (some f) →
      m.valueOf? keepsAll vars e = some u → m.schema.ConvertsAlike e →
      (vars f.param).bind (readThrough f.path) = some u ∧
        m.schema.StoresLike (m.schema.typeOf e) f.type
  | .quote inner, f, u, hf, hu, hc => by
    rw [Schema.fieldPath?] at hf
    rw [valueOf?] at hu
    rw [Schema.ConvertsAlike] at hc
    rw [Schema.typeOf]
    exact readThrough_fieldPath? vars inner hf hu hc
  | .convert operand type, f, u, hf, hu, hc => by
    rw [Schema.fieldPath?] at hf
    rw [valueOf?] at hu
    rw [Schema.ConvertsAlike] at hc
    rw [Schema.typeOf]
    obtain ⟨hread, hlike⟩ := readThrough_fieldPath? vars operand hf hu hc.2
    exact ⟨hread, hc.1.trans hlike⟩
  | .param p, f, u, hf, hu, _ => by
    rw [Schema.fieldPath?] at hf
    rw [valueOf?] at hu
    cases hf
    refine ⟨?_, .refl _ _⟩
    change (vars p.name).bind (readThrough []) = _
    rw [hu]
    rfl
  | .member target name, f, u, hf, hu, hc => by
    rw [Schema.fieldPath?] at hf
    rw [Schema.ConvertsAlike] at hc
    obtain ⟨v, hv⟩ := valueOf?_member hu
    obtain ⟨g, hg, hf⟩ := bind_eq_ok.1 hf
    cases g with
    | none => cases hf
    | some g =>
      obtain ⟨hread, hlike⟩ := readThrough_fieldPath? vars target hg hv hc
      exact readThrough_memberOf? hf hread hlike hv hu
  | .index target position, f, u, hf, hu, hc => by
    rw [Schema.fieldPath?] at hf
    rw [Schema.ConvertsAlike] at hc
    obtain ⟨v, hv⟩ := valueOf?_index hu
    obtain ⟨g, hg, hf⟩ := bind_eq_ok.1 hf
    cases g with
    | none => cases hf
    | some g =>
      obtain ⟨hread, hlike⟩ := readThrough_fieldPath? vars target hg hv hc
      exact readThrough_item? (Except.ok.inj hf) hread hlike hv hu
  | .call target method [arg], f, u, hf, hu, hc => by
    rw [Schema.ConvertsAlike] at hc
    obtain ⟨⟨v, hv⟩, rfl | rfl⟩ := valueOf?_call hu
    · rw [Schema.fieldPath?] at hf
      obtain ⟨g, hg, hf⟩ := bind_eq_ok.1 hf
      cases g with
      | none => cases hf
      | some g =>
        obtain ⟨hread, -⟩ := readThrough_fieldPath? vars target hg hv hc.1
        have hf := Except.ok.inj hf
        refine ⟨readThrough_ofType hf hread hv hu, ?_⟩
        obtain ⟨actual, hactual, -⟩ := Option.map_eq_some_iff.1 hf
        have htype : Expr.typeArgument? [arg] = some actual := hactual
        rw [Schema.typeOf]
        change m.schema.StoresLike (match Expr.typeArgument? [arg] with
          | some name => .array (.document name)
          | none => m.schema.typeOf target) _
        rw [htype]
        exact .array ..
    · rw [Schema.fieldPath?] at hf
      rw [valueOf?, hv] at hu
      simp only [Option.bind_eq_bind, Option.bind_some] at hu
      cases hp : arg.asUnaryLambda? with
      | none =>
        rw [hp] at hu
        cases hu
      | some lambda =>
        obtain ⟨p, body⟩ := lambda
        rw [hp] at hf hu
        obtain ⟨g, hg, hf⟩ := bind_eq_ok.1 hf
        cases g with
        | none => cases hf
        | some g =>
          obtain ⟨hread, -⟩ := readThrough_fieldPath? vars target hg hv hc.1
          change (if g.type.isArray then _ else _) = _ at hf
          split at hf
          · obtain ⟨inner, hinner, hf⟩ := bind_eq_ok.1 hf
            cases inner with
            | none => cases hf
            | some inner =>
              change (if inner.param = p.name then _ else _) = _ at hf
              split at hf
              · rename_i hparam
                cases hf
                refine ⟨readThrough_select hread (fun item w hw => ?_) hu, .array ..⟩
                have hbody := readThrough_body arg _ hinner hw hc.2
                rwa [if_pos hparam] at hbody
              · cases hf
          · cases hf
  | .call _ _ [], _, _, hf, _, _ | .call _ _ (_ :: _ :: _), _, _, hf, _, _
  | .literal _, _, _, hf, _, _ | .staticCall .., _, _, hf, _, _ | .not _, _, _, hf, _, _
  | .negate _, _, _, hf, _, _ | .binary .., _, _, hf, _, _ | .conditional .., _, _, hf, _, _
  | .object .., _, _, hf, _, _ | .collection .., _, _, hf, _, _ | .lambda .., _, _, hf, _, _
  | .typeTest .., _, _, hf, _, _ | .inject _, _, _, hf, _, _ => by
    simp [Schema.fieldPath?] at hf
theorem readThrough_body : ∀ (arg : Expr) (vars : String → Option Value) {f : FieldPath}
    {u : Value},
    m.schema.bodyPath? arg = .ok (some f) → m.bodyOf? keepsAll vars arg = some u →
    m.schema.BodyConvertsAlike arg → (vars f.param).bind (readThrough f.path) = some u
  | .lambda params body, vars, f, u, hf, hu, hc => by
    rw [Schema.bodyPath?] at hf
    rw [bodyOf?] at hu
    rw [Schema.BodyConvertsAlike] at hc
    exact (readThrough_fieldPath? vars body hf hu hc).1
  | .quote inner, vars, f, u, hf, hu, hc => by
    rw [Schema.bodyPath?] at hf
    rw [bodyOf?] at hu
    rw [Schema.BodyConvertsAlike] at hc
    exact readThrough_body inner vars hf hu hc
  | .convert .., _, _, _, hf, _, _ | .member .., _, _, _, hf, _, _ | .index .., _, _, _, hf, _, _
  | .param _, _, _, _, hf, _, _ | .call .., _, _, _, hf, _, _
  | .literal _, _, _, _, hf, _, _ | .staticCall .., _, _, _, hf, _, _ | .not _, _, _, _, hf, _, _
  | .negate _, _, _, _, hf, _, _ | .binary .., _, _, _, hf, _, _
  | .conditional .., _, _, _, hf, _, _ | .object .., _, _, _, hf, _, _
  | .collection .., _, _, _, hf, _, _ | .typeTest .., _, _, _, hf, _, _
  | .inject _, _, _, _, hf, _, _ => by
    simp [Schema.bodyPath?] at hf
end

/-- **The path that an expression resolves to reads the value of the expression, unless a selection
by type drops an item or an array on the way holds something else than documents.** Let every
conversion keep its members where they are, and let `u` be the value that the expression has on a
document if all items are kept. Then what is read at the path, item by item in arrays, is the value
of the expression exactly if that value is `u` and the arrays on the way hold nothing but
documents. -/
theorem lookUp_eq_value_iff {vars : String → Option Value} {e : Expr} {f : FieldPath}
    {d : Document} {u : Value} (hf : m.schema.fieldPath? e = .ok (some f))
    (hc : m.schema.ConvertsAlike e) (hd : vars f.param = some (.document d))
    (hu : m.valueOf? keepsAll vars e = some u) :
    (∃ v, m.valueOf? m.isMarked vars e = some v ∧ Shape.lookUp true f.path d = .ok v) ↔
      m.valueOf? m.isMarked vars e = some u ∧ Shape.passes f.path d = true := by
  obtain ⟨hread, -⟩ := readThrough_fieldPath? vars e hf hu hc
  rw [hd, Option.bind_some] at hread
  constructor
  · intro hagree
    obtain ⟨v, hv, hlook⟩ := hagree
    obtain ⟨hv', hpasses⟩ := Shape.lookUp_iff_readThrough.1 hlook
    cases hread.symm.trans hv'
    exact ⟨hv, hpasses⟩
  · intro hkept
    obtain ⟨hv, hpasses⟩ := hkept
    exact ⟨u, hv, Shape.lookUp_iff_readThrough.2 ⟨hread, hpasses⟩⟩

/-- Documents with children, some of which are of a derived type. -/
def childrenMapping : Mapping :=
  { schema := { documents := [
      { name := "Root"
        members := [⟨"Children", "children", .array (.document "Child"), .natural⟩] },
      { name := "Child", members := [⟨"Name", "name", .string, .natural⟩] },
      { name := "Pupil", base := some "Child", discriminator := some "pupil" }] } }

/-- `x.Children.OfType<Pupil>()`. -/
def pupils : Expr :=
  .call (.member (.param ⟨"x", .document "Root"⟩) "Children") "OfType"
    [.literal ⟨.string "Pupil", .string⟩]

/-- `x.Children.OfType<Pupil>().Select(c => c.Name)`. -/
def pupilNames : Expr :=
  .call pupils "Select"
    [.lambda [⟨"c", .document "Pupil"⟩] (.member (.param ⟨"c", .document "Pupil"⟩) "Name")]

def pupil (name : String) : Value := .document [("_t", .string "pupil"), ("name", .string name)]

/-- Every parameter stands for one document. -/
def allAre (d : Document) : String → Option Value := fun _ => some (.document d)

theorem lookUp_eq_value_pupilNames :
    ∃ f v, childrenMapping.schema.fieldPath? pupilNames = .ok (some f) ∧
      childrenMapping.valueOf? childrenMapping.isMarked
        (allAre [("children", .array [pupil "a", pupil "b"])]) pupilNames = some v ∧
      Shape.lookUp true f.path [("children", .array [pupil "a", pupil "b"])] = .ok v := by
  obtain ⟨f, hf⟩ : ∃ f, childrenMapping.schema.fieldPath? pupilNames = .ok (some f) := ⟨_, rfl⟩
  have hd : allAre [("children", .array [pupil "a", pupil "b"])] f.param =
      some (.document [("children", .array [pupil "a", pupil "b"])]) := rfl
  have hpasses : Shape.passes f.path [("children", .array [pupil "a", pupil "b"])] = true := by
    cases hf
    rfl
  obtain ⟨v, hv, hlook⟩ := (lookUp_eq_value_iff (m := childrenMapping)
    (u := .array [.string "a", .string "b"]) hf ⟨⟨trivial, trivial⟩, trivial⟩ hd rfl).2
    ⟨rfl, hpasses⟩
  exact ⟨f, v, hf, hv, hlook⟩

/-- Of a pupil and another child, the path reads both. -/
theorem lookUp_pupils :
    ∃ f, childrenMapping.schema.fieldPath? pupils = .ok (some f) ∧
      childrenMapping.valueOf? childrenMapping.isMarked
        (allAre [("children", .array [pupil "a", .document [("name", .string "b")]])]) pupils =
          some (.array [pupil "a"]) ∧
      Shape.lookUp true f.path
        [("children", .array [pupil "a", .document [("name", .string "b")]])] =
          .ok (.array [pupil "a", .document [("name", .string "b")]]) :=
  ⟨_, rfl, rfl, rfl⟩

end Mapping
end DocQuery
