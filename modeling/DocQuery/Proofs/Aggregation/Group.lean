/-
What is read of the results of a group stage (`read_group`).

A group comes back with the value of its key under `_id` and with those of its
accumulators under their names. The key is computed with the names under which its
members are stored, and its members are then read by the names that the program
has for them. What the program finds at members of the key (`Mapping.keyValue?`) is
what is read there (`Value.at?`) if each of them is stored under its own name
(`Mapping.KeepsNames`).
-/
import DocQuery.Proofs.Aggregation.Parts
import DocQuery.Proofs.Aggregation.Stage
import DocQuery.Proofs.Resolution

namespace DocQuery

open DocQuery.Filter (isOperator)
open Aggregation

/-! ## Elements of a value -/

/-- Value at the end of elements of documents. Below null, all is null. -/
def Value.at? : List String → Value → Option Value
  | [], v => some v
  | name :: rest, v => (v.element? name).bind (at? rest)

@[simp] theorem Value.at?_null (path : List String) : Value.at? path .null = some .null := by
  induction path with
  | nil => rfl
  | cons name rest ih => exact ih

namespace Shape

/-- Without arrays, a path is read element by element. -/
theorem lookUp_eq_ok_iff {path : List String} {d : Document} {w : Value} :
    lookUp false path d = .ok w ↔ Value.at? path (.document d) = some w := by
  induction path generalizing d with
  | nil => simp [lookUp, Value.at?]
  | cons name rest ih =>
    rw [lookUp, Value.at?, Value.element?, Option.bind_some]
    split
    · rename_i hnone
      simp [hnone]
    · rename_i hnull
      simp [hnull]
    · rename_i v hne hv
      simp only [hv, Option.getD_some]
      cases rest with
      | nil => simp [Value.at?]
      | cons next rest =>
        simp only [List.isEmpty_cons, Bool.false_eq_true, if_false]
        cases v with
        | document nested => exact ih
        | null => exact absurd rfl hne
        | _ => simp [Value.at?, Value.element?]

/-- A member of a key is read unless the key is null. -/
theorem lookUpKey_of_at? {path : List String} {row : Document} {k w : Value}
    (hk : row.get? "_id" = some k) (hnull : path ≠ [] → k ≠ .null)
    (h : Value.at? path k = some w) : lookUpKey path row = .ok w := by
  rw [lookUpKey, hk]
  by_cases hpath : path = []
  · subst hpath
    cases h
    cases k <;> rfl
  · obtain ⟨name, rest, rfl⟩ := List.exists_cons_of_ne_nil hpath
    cases k with
    | document members => exact lookUp_eq_ok_iff.2 h
    | null => exact absurd rfl (hnull hpath)
    | _ => cases h

end Shape

/-! ## Members of stored values -/

namespace Schema

/-- What a value of a type has at members: each is the element that stores it. -/
def valueAt? (s : Schema) : List String → ValueType → Value → Option Value
  | [], _, v => some v
  | name :: rest, t, v =>
    if t.isNullable && name = "Value" then s.valueAt? rest t.underlying v
    else if t.isNullable && name = "HasValue" then none
    else
      match s.storedMember? t name with
      | .ok (some stored) => (v.element? stored.element).bind (s.valueAt? rest stored.type)
      | _ => none

/-- Whether members of a type are stored under their own names, one below the other. -/
def KeepsNames (s : Schema) : List String → ValueType → Prop
  | [], _ => True
  | name :: rest, t =>
    ¬ (t.isNullable ∧ (name = "Value" ∨ name = "HasValue")) ∧
      ∃ stored, s.storedMember? t name = .ok (some stored) ∧ stored.element = name ∧
        s.KeepsNames rest stored.type

theorem valueAt?_eq_at? {s : Schema} {path : List String} {t : ValueType} {v : Value}
    (h : s.KeepsNames path t) : s.valueAt? path t v = Value.at? path v := by
  induction path generalizing t v with
  | nil => rfl
  | cons name rest ih =>
    obtain ⟨hnullable, stored, hstored, hname, hrest⟩ := h
    have hvalue : (t.isNullable && decide (name = "Value")) = false := by grind
    have hhasValue : (t.isNullable && decide (name = "HasValue")) = false := by grind
    rw [valueAt?, Value.at?, hvalue, hhasValue, hstored, ← hname]
    simp only [Bool.false_eq_true, if_false]
    congr 1
    funext x
    exact ih hrest

end Schema

namespace Aggregation

variable {eng : Engine} {env : Env}

/-- The value of a document of fields has the value of each under its name. -/
theorem get?_eval_document (eng : Engine) (env : Env) {fields : Document} {k : String} {v : Value}
    (hnames : ∀ k ∈ fields.keys, isOperator k = false) (hnodup : fields.keys.Nodup)
    (h : (k, v) ∈ fields) :
    ∃ values, eng.eval env (.document fields) = some (.document values) ∧
      Document.get? values k = eng.eval env v :=
  ⟨_, eval_document hnames, Document.get?_filterMap (fun _ v => eng.eval env v) hnodup h⟩

end Aggregation

/-! ## Members of a key -/

namespace Mapping

section Key
variable (m : Mapping) (eng : Engine) (d : Document) (s : Scope)

/-- Value that is computed for an expression, if there is one. -/
def computed? (e : Expr) : Option Value := (m.operandOf e s).toOption.bind (eng.eval { root := d })

/-- What the value of an expression has at members. Those of a new object are the values that it is
made of. -/
def keyValue? : List String → Expr → Option Value
  | [], e => some ((m.computed? eng d s e).getD .null)
  | name :: rest, e =>
    match e.strip with
    | .object _ members =>
      (members.find? fun q => q.1 = name).bind fun q => keyValue? rest q.2
    | _ =>
      m.schema.valueAt? (name :: rest) (m.schema.typeOf e) ((m.computed? eng d s e).getD .null)

/-- Whether members of the value of an expression are stored under their own names, one below the
other. No other member of a new object has the name of such a member, and none is an operator. -/
def KeepsNames : List String → Expr → Prop
  | [], _ => True
  | name :: rest, e =>
    match e.strip with
    | .object typeName members =>
      (∀ q ∈ members, ∀ element, m.outputElement typeName q.1 = .ok element →
        isOperator element = false) ∧
      m.outputElement typeName name = .ok name ∧
      ∃ first, (name, first) ∈ members ∧
        (∀ q ∈ members, m.outputElement typeName q.1 = .ok name → q = (name, first)) ∧
        KeepsNames rest first
    | _ => m.schema.KeepsNames (name :: rest) (m.schema.typeOf e)

end Key

variable {m : Mapping} {eng : Engine} {d : Document} {s : Scope}

theorem computed?_of_operandOf {e : Expr} {o : Value} (h : m.operandOf e s = .ok o) :
    m.computed? eng d s e = eng.eval { root := d } o := by
  rw [computed?, h]
  rfl

/-- The value of a new object has under a name the value of its only member of that name. -/
theorem computed?_object (eng : Engine) (d : Document) {typeName : Option String}
    {members : List (String × Expr)} {name : String} {first e : Expr} {o : Value}
    (he : e.strip = .object typeName members) (ho : m.operandOf e s = .ok o)
    (hnames : ∀ q ∈ members, ∀ element, m.outputElement typeName q.1 = .ok element →
      isOperator element = false)
    (hname : m.outputElement typeName name = .ok name) (hfirst : (name, first) ∈ members)
    (honly : ∀ q ∈ members, m.outputElement typeName q.1 = .ok name → q = (name, first)) :
    ∃ v, m.operandOf first s = .ok v ∧ ∃ values, m.computed? eng d s e = some (.document values) ∧
      Document.get? values name = m.computed? eng d s first := by
  have hobject := operandOf_strip.2 ho
  rw [he, operandOf_of_not_reference rfl] at hobject
  obtain ⟨fields, hfields, hobject⟩ := bind_eq_ok.1 hobject
  cases hobject
  obtain ⟨element, v, helement, hv, hmem⟩ := exists_field_of_mem hfields hfirst
  cases hname.symm.trans helement
  have hfield : (name, stageMember v) ∈ Document.ofFields fields := by
    have hkey : name ∈ (Document.ofFields fields).keys :=
      Document.mem_keys_ofFields.2 (List.mem_map_of_mem hmem)
    obtain ⟨field, hfield, rfl⟩ := List.mem_map.1 hkey
    obtain ⟨q, hq, helement, v', hv', heq⟩ :=
      exists_member_of_mem hfields (Document.mem_of_mem_ofFields hfield)
    cases honly q hq helement
    cases hv.symm.trans hv'
    rwa [← heq]
  have hkeys : ∀ k ∈ (Document.ofFields fields).keys, isOperator k = false := by
    intro k hk
    obtain ⟨q, hq, hk⟩ := exists_of_mem_keys hfields (Document.mem_keys_ofFields.1 hk)
    exact hnames q hq k hk
  obtain ⟨values, hvalues, hget⟩ :=
    get?_eval_document eng { root := d } hkeys (Document.nodup_keys_ofFields fields) hfield
  refine ⟨v, hv, values, ?_, ?_⟩
  · rw [computed?_of_operandOf ho, hvalues]
  · rw [hget, eval_stageMember, computed?_of_operandOf hv]

/-- Members that are stored under their own names are found there. -/
theorem keyValue?_eq_at? {path : List String} {e : Expr} {o : Value} (ho : m.operandOf e s = .ok o)
    (h : m.KeepsNames path e) :
    m.keyValue? eng d s path e = Value.at? path ((m.computed? eng d s e).getD .null) := by
  induction path generalizing e o with
  | nil => rfl
  | cons name rest ih =>
    unfold KeepsNames at h
    unfold keyValue?
    split at h
    · rename_i typeName members hstrip
      obtain ⟨hnames, hname, first, hfirst, honly, hrest⟩ := h
      obtain ⟨v, hv, values, hvalues, hget⟩ :=
        computed?_object eng d hstrip ho hnames hname hfirst honly
      have hfind : members.find? (fun q => q.1 = name) = some (name, first) := by
        cases hfind : members.find? fun q => q.1 = name with
        | none => exact absurd (decide_eq_true rfl) (List.find?_eq_none.1 hfind _ hfirst)
        | some q =>
          have hq : q.1 = name := by simpa using List.find?_some hfind
          rw [honly q (List.mem_of_find?_eq_some hfind) (hq ▸ hname)]
      simp only [hfind, Option.bind_some, hvalues, Option.getD_some]
      rw [ih hv hrest, Value.at?, Value.element?, Option.bind_some, hget]
    · exact Schema.valueAt?_eq_at? h

/-! ## Results of a group -/

/-- Results of a group, with the names under which they come back. -/
def groupResults (body : Expr) : List (String × Expr) :=
  match body.asObject? with
  | some (_, members) => members
  | none => [(Stage.valueName, body.strip)]

/-- Where a result of a group is found. -/
def resultShape (group : Param) (q : String × Expr) : Shape :=
  match q.2.keyPath? group.name with
  | some path => .key path
  | none => .computed [q.1]

/-- The stage of a result keeps the key and the names of the stage before, and has the name of the
result if that is an accumulator. -/
theorem groupMember_eq_ok {group : Param} {stage stage' : Document} {q : String × Expr}
    {shape : Shape} (h : m.groupMember group stage q.1 q.2 = .ok (shape, stage')) :
    shape = resultShape group q ∧ stage'.get? "_id" = stage.get? "_id" ∧
      (∀ name ∈ stage.keys, name ∈ stage'.keys) ∧
      (q.2.keyPath? group.name = none → q.1 ∈ stage'.keys) := by
  unfold groupMember at h
  unfold resultShape
  cases hpath : q.2.keyPath? group.name with
  | some path =>
    simp only [hpath] at h
    cases h
    exact ⟨rfl, rfl, fun _ hname => hname, nofun⟩
  | none =>
    simp only [hpath] at h
    split at h
    · cases h
    · rename_i hid
      obtain ⟨v, -, h⟩ := bind_eq_ok.1 h
      cases h
      refine ⟨rfl, Document.get?_insert_of_ne hid .., fun name hname => ?_, fun _ => ?_⟩
      · exact Document.mem_keys_insert.2 (.inr hname)
      · exact Document.mem_keys_insert.2 (.inl rfl)

theorem groupMembers_eq_ok {group : Param} {stage stage' : Document}
    {members : List (String × Expr)} {shapes : List (String × Shape)}
    (h : m.groupMembers group stage members = .ok (shapes, stage')) :
    shapes = members.map (fun q => (q.1, resultShape group q)) ∧
      stage'.get? "_id" = stage.get? "_id" ∧ (∀ name ∈ stage.keys, name ∈ stage'.keys) ∧
      ∀ q ∈ members, q.2.keyPath? group.name = none → q.1 ∈ stage'.keys := by
  induction members generalizing stage shapes with
  | nil =>
    cases h
    exact ⟨rfl, rfl, fun _ hname => hname, nofun⟩
  | cons q rest ih =>
    obtain ⟨⟨shape, next⟩, hfirst, h⟩ := bind_eq_ok.1 h
    obtain ⟨⟨others, last⟩, hrest, h⟩ := bind_eq_ok.1 h
    cases h
    obtain ⟨rfl, hnext, hkeep, hname⟩ := groupMember_eq_ok hfirst
    obtain ⟨rfl, hlast, hkeeps, hnames⟩ := ih hrest
    refine ⟨rfl, hlast.trans hnext, fun name hmem => hkeeps name (hkeep name hmem), ?_⟩
    intro q' hq' hpath
    rcases List.mem_cons.1 hq' with rfl | hq'
    · exact hkeeps _ (hname hpath)
    · exact hnames q' hq' hpath

/-- The stage of a group computes the key and the accumulators, and its shape finds each result. -/
theorem group_eq_ok {key selector keyBody body : Expr} {keyParam group : Param} {stage : Stage}
    (hkey : key.asUnaryLambda? = some (keyParam, keyBody))
    (hselector : selector.asUnaryLambda? = some (group, body))
    (h : m.group key selector = .ok stage) :
    (∃ o, m.operandOf keyBody (.root keyParam.name) = .ok o ∧
        stage.body.get? "_id" = some (stageMember o)) ∧
      (∀ q ∈ groupResults body, q.2.keyPath? group.name = none → q.1 ∈ stage.body.keys) ∧
      stage.shape =
        match body.asObject? with
        | some (_, members) => .object (members.map fun q => (q.1, resultShape group q))
        | none => resultShape group (Stage.valueName, body.strip) := by
  unfold Mapping.group at h
  unfold groupResults
  simp only [hkey, hselector] at h
  obtain ⟨-, -, h⟩ := bind_eq_ok.1 h
  obtain ⟨-, -, h⟩ := bind_eq_ok.1 h
  obtain ⟨o, ho, h⟩ := bind_eq_ok.1 h
  cases hb : body.asObject? with
  | some object =>
    simp only [hb] at h
    obtain ⟨⟨shapes, last⟩, hmembers, h⟩ := bind_eq_ok.1 h
    cases h
    obtain ⟨rfl, hid, -, hnames⟩ := groupMembers_eq_ok hmembers
    exact ⟨⟨o, ho, hid⟩, hnames, rfl⟩
  | none =>
    simp only [hb] at h
    obtain ⟨⟨shape, last⟩, hmember, h⟩ := bind_eq_ok.1 h
    cases h
    obtain ⟨rfl, hid, -, hname⟩ :=
      groupMember_eq_ok (q := (Stage.valueName, body.strip)) hmember
    refine ⟨⟨o, ho, hid⟩, fun q hq hpath => ?_, rfl⟩
    cases List.mem_singleton.1 hq
    exact hname hpath

theorem readMembers_of_read {members : List (String × Expr)} {shape : String × Expr → Shape}
    {value : String × Expr → Value} {row : Document}
    (h : ∀ q ∈ members, (shape q).read row = .ok (value q)) :
    Shape.readMembers (members.map fun q => (q.1, shape q)) row =
      .ok (members.map fun q => (q.1, value q)) := by
  induction members with
  | nil => rfl
  | cons q rest ih =>
    simp only [List.map_cons, Shape.readMembers, h q (.head _), ih fun q hq => h q (.tail _ hq)]
    rfl

section Results
variable (m : Mapping) (eng : Engine) (d : Document) (keyParam group : Param) (keyBody : Expr)

/-- What a result of a group is, with the key that it has for a document: a member of the key, or
what the row has under the result's name. -/
def resultValue (row : Document) (q : String × Expr) : Value :=
  match q.2.keyPath? group.name with
  | some path => (m.keyValue? eng d (.root keyParam.name) path keyBody).getD .null
  | none => (row.get? q.1).getD .null

/-- What the results of a group are. -/
def groupValue (row : Document) (body : Expr) : Value :=
  match body.asObject? with
  | some (_, members) =>
    .document (members.map fun q => (q.1, m.resultValue eng d keyParam group keyBody row q))
  | none => m.resultValue eng d keyParam group keyBody row (Stage.valueName, body.strip)

end Results

/-- A result of a group is read if it is no member of the key, or one that keeps its name. -/
theorem read_resultShape {keyParam group : Param} {keyBody : Expr} {row : Document} {o : Value}
    {q : String × Expr} (ho : m.operandOf keyBody (.root keyParam.name) = .ok o)
    (hid : row.get? "_id" = some ((eng.eval { root := d } o).getD .null))
    (hmember : ∀ path, q.2.keyPath? group.name = some path → path ≠ [] →
      (eng.eval { root := d } o).getD .null ≠ .null ∧ m.KeepsNames path keyBody ∧
        (m.keyValue? eng d (.root keyParam.name) path keyBody).isSome) :
    (resultShape group q).read row = .ok (m.resultValue eng d keyParam group keyBody row q) := by
  unfold resultShape resultValue
  cases hpath : q.2.keyPath? group.name with
  | none => exact read_computed q.1 row
  | some path =>
    have hkeeps : m.KeepsNames path keyBody := by
      cases path with
      | nil => trivial
      | cons name rest => exact (hmember _ hpath (by simp)).2.1
    have hvalue : m.keyValue? eng d (.root keyParam.name) path keyBody =
        Value.at? path ((eng.eval { root := d } o).getD .null) := by
      rw [keyValue?_eq_at? ho hkeeps, computed?_of_operandOf ho]
    have hsome : (m.keyValue? eng d (.root keyParam.name) path keyBody).isSome = true := by
      cases path with
      | nil => rfl
      | cons name rest => exact (hmember _ hpath (by simp)).2.2
    obtain ⟨w, hw⟩ := Option.isSome_iff_exists.1 hsome
    simp only [Shape.read, hw, Option.getD_some]
    exact Shape.lookUpKey_of_at? hid (fun hne => (hmember _ hpath hne).1) (hvalue ▸ hw)

/-- **A group is read back as its results if the members of the key that they take keep their
names.** Let a key and a selector of results with distinct names be accepted, and let a row have
under `_id` the value of the key of a document. Let each result that is a member of the key be one
that the key has, below a key that is not null, and let every member on the way to it be stored
under its own name. Then the stage computes each accumulator under the name of its result, and
reading the row succeeds and gives what the key has at the members and what the row has under the
names of the accumulators. -/
theorem read_group {key selector keyBody body : Expr} {keyParam group : Param} {stage : Stage}
    {row : Document} {k : Value} (hkey : key.asUnaryLambda? = some (keyParam, keyBody))
    (hselector : selector.asUnaryLambda? = some (group, body))
    (h : m.group key selector = .ok stage)
    (hdistinct : ((groupResults body).map Prod.fst).Nodup)
    (hk : ((stage.body.get? "_id").bind (eng.eval { root := d })).getD .null = k)
    (hid : row.get? "_id" = some k)
    (hmembers : ∀ q ∈ groupResults body, ∀ path, q.2.keyPath? group.name = some path →
      path ≠ [] → k ≠ .null ∧ m.KeepsNames path keyBody ∧
        (m.keyValue? eng d (.root keyParam.name) path keyBody).isSome) :
    (∀ q ∈ groupResults body, q.2.keyPath? group.name = none → q.1 ∈ stage.body.keys) ∧
      stage.shape.read row = .ok (m.groupValue eng d keyParam group keyBody row body) := by
  obtain ⟨⟨o, ho, hstage⟩, hnames, hshape⟩ := group_eq_ok hkey hselector h
  refine ⟨hnames, ?_⟩
  rw [hstage, Option.bind_some, eval_stageMember] at hk
  subst hk
  have hread : ∀ q ∈ groupResults body, (resultShape group q).read row =
      .ok (m.resultValue eng d keyParam group keyBody row q) := by
    intro q hq
    exact read_resultShape ho hid (hmembers q hq)
  rw [hshape]
  unfold groupValue
  unfold groupResults at hread hdistinct
  cases hb : body.asObject? with
  | some object =>
    simp only [hb] at hread hdistinct ⊢
    rw [Shape.read, readMembers_of_read hread]
    have hnodup : (Document.keys (object.2.map fun q =>
        (q.1, m.resultValue eng d keyParam group keyBody row q))).Nodup := by
      rw [Document.keys, List.map_map]
      exact hdistinct
    simp only [bind, Except.bind, Document.ofFields_of_nodup hnodup]
    rfl
  | none =>
    simp only [hb] at hread ⊢
    exact hread _ (.head _)

/-- Orders of customers, whose names are stored under another one. -/
def ordersMapping : Mapping :=
  { schema := { documents := [
      { name := "Order", members := [⟨"Customer", "c", .document "Customer", .natural⟩] },
      { name := "Customer",
        members := [⟨"Name", "name", .string, .natural⟩, ⟨"City", "City", .string, .natural⟩] }] } }

/-- `x => new { C = x.Customer }`. -/
def byCustomer : Expr :=
  .lambda [⟨"x", .document "Order"⟩]
    (.object none [("C", .member (.param ⟨"x", .document "Order"⟩) "Customer")])

/-- `g => new { Of = g.Key.C.City, N = g.Count() }`, with a member of the customer. -/
def ordersOf (name : String) : Expr :=
  .lambda [⟨"g", .any⟩] (.object none
    [("Of", .member (.member (.member (.param ⟨"g", .any⟩) "Key") "C") name),
     ("N", .call (.param ⟨"g", .any⟩) "Count" [])])

def customer : Value := .document [("name", .string "a"), ("City", .string "b")]

/-- Two orders of a customer. -/
def customerRow : Document := [("_id", .document [("C", customer)]), ("N", .int32 2)]

/-- The city of a customer is read from the key. -/
theorem read_group_city :
    ∃ stage, ordersMapping.group byCustomer (ordersOf "City") = .ok stage ∧
      stage.shape.read customerRow = .ok (.document [("Of", .string "b"), ("N", .int32 2)]) := by
  obtain ⟨stage, hstage⟩ :
    ∃ stage, ordersMapping.group byCustomer (ordersOf "City") = .ok stage := ⟨_, rfl⟩
  have hk : ((stage.body.get? "_id").bind (idle.eval { root := [("c", customer)] })).getD .null =
      .document [("C", customer)] := by
    cases hstage
    rfl
  refine ⟨stage, hstage, (read_group rfl rfl hstage (by decide) hk rfl ?_).2⟩
  intro q hq path hpath _
  rcases List.mem_cons.1 hq with rfl | hq
  · cases hpath
    refine ⟨by simp, ⟨?_, rfl, _, .head _, ?_, ?_⟩, rfl⟩
    · intro q hq element helement
      rw [List.mem_singleton.1 hq] at helement
      cases helement
      rfl
    · intro q hq _
      exact List.mem_singleton.1 hq
    · exact ⟨by simp [Schema.typeOf, ValueType.isNullable], _, rfl, rfl, trivial⟩
  · rw [List.mem_singleton.1 hq] at hpath
    cases hpath

/-- The name of a customer is not found under the member's own name. -/
theorem read_group_name :
    ∃ stage, ordersMapping.group byCustomer (ordersOf "Name") = .ok stage ∧
      (∀ eng : Engine, (stage.body.get? "_id").bind (eng.eval { root := [("c", customer)] }) =
        customerRow.get? "_id") ∧
      (∀ eng : Engine, ordersMapping.keyValue? eng [("c", customer)] (.root "x") ["C", "Name"]
        (.object none [("C", .member (.param ⟨"x", .document "Order"⟩) "Customer")]) =
          some (.string "a")) ∧
      stage.shape.read customerRow = .ok (.document [("Of", .null), ("N", .int32 2)]) :=
  ⟨_, rfl, fun _ => rfl, fun _ => rfl, rfl⟩

end Mapping
end DocQuery
