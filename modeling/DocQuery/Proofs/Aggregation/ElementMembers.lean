/-
Members of the elements of a stored array.

A member of the first or last element is read by a path through the array, and so is
the selection of a member of each. A path passes over the elements that lack the
member (`follow_elements`), so what is returned is the member of the nearest element
that has one, and a selection may be shorter than the array. Computed from the elements
themselves, the member of an element is its own, or null. `project_elementMembers` says
when the two are the same.
-/
import DocQuery.Proofs.Aggregation.Arrays
import DocQuery.Proofs.Filter.Collapse
import DocQuery.Proofs.Scope.Stored
import DocQuery.Proofs.StoredLiteral
import Mathlib.Data.List.Basic

namespace DocQuery

open DocQuery.Filter Aggregation

/-! ## Paths through arrays -/

/-- What a path leads to from an element of an array, if that is a document. -/
def fromElement? (path : List String) : Value → Option Value
  | .document d => follow (.document d) path
  | _ => none

theorem followItems_eq_filterMap (items : List Value) (key : String) (path : List String) :
    followItems items key path = items.filterMap (fromElement? (key :: path)) := by
  induction items with
  | nil => rfl
  | cons v rest ih =>
    cases v with
    | document d =>
      rw [followItems, ih, ← follow, List.filterMap_cons, fromElement?]
      cases follow (.document d) (key :: path) <;> rfl
    | _ => exact ih

/-- What leads to no array can be followed further. -/
theorem follow_append {v : Value} {path : List String}
    (h : ∀ items, follow v path ≠ some (.array items)) (rest : List String) :
    follow v (path ++ rest) = (follow v path).bind fun w => follow w rest := by
  induction path generalizing v with
  | nil => simp
  | cons key path ih =>
    cases v with
    | array items => exact absurd rfl (h _)
    | document d =>
      rw [List.cons_append]
      rw [follow_document] at h ⊢
      rw [follow_document]
      cases hd : Document.get? d key with
      | none => rfl
      | some v => exact ih fun items => by simpa [hd] using h items
    | _ => rfl

/-- A path through an array collects what is found below the elements that have it. -/
theorem follow_elements {v : Value} {path rest : List String} (hrest : rest ≠ [])
    {elements : List Document}
    (h : follow v path = some (.array (elements.map .document))) :
    follow v (path ++ rest) =
      some (.array (elements.filterMap fun x => follow (.document x) rest)) := by
  induction path generalizing v with
  | nil =>
    obtain ⟨key, rest, rfl⟩ := List.exists_cons_of_ne_nil hrest
    obtain rfl : v = .array (elements.map .document) := by simpa using h
    rw [List.nil_append, follow, followItems_eq_filterMap, List.filterMap_map]
    rfl
  | cons key path ih =>
    cases v with
    | array items =>
      rw [follow, followItems_eq_filterMap, Option.some.injEq, Value.array.injEq] at h
      -- Whatever the path leads to from an element is a document, so it can be followed.
      have hfound : ∀ v ∈ items, fromElement? (key :: path ++ rest) v =
          (fromElement? (key :: path) v).bind fun w => follow w rest := by
        intro v hv
        cases v with
        | document d =>
          refine follow_append (fun found hd => ?_) rest
          have hmem : Value.array found ∈ items.filterMap (fromElement? (key :: path)) :=
            List.mem_filterMap.2 ⟨_, hv, hd⟩
          rw [h] at hmem
          simp at hmem
        | _ => rfl
      rw [List.cons_append, follow, followItems_eq_filterMap, ← List.cons_append,
        List.filterMap_congr hfound, ← List.filterMap_filterMap, h, List.filterMap_map]
      rfl
    | document d =>
      rw [List.cons_append, follow_document]
      rw [follow_document] at h
      obtain ⟨w, hw, h⟩ := Option.bind_eq_some_iff.1 h
      rw [hw]
      exact ih h
    | _ => cases h

namespace Aggregation

variable {eng : Engine} {env : Env} {path : List String}

theorem isOperator_below {name : String} (h : isOperator name = false) (element : String) :
    isOperator (name ++ "." ++ element) = false := by
  cases hname : name.toList with
  | nil => simp [isOperator, hname]
  | cons c rest => simpa [isOperator, hname] using h

theorem fieldRef_below (hne : path ≠ []) (element : String) :
    fieldRef path ++ "." ++ element = fieldRef (path ++ [element]) := by
  have hempty : path.isEmpty = false := by simpa using hne
  simp [fieldRef, hempty, intercalate_below hne, String.append_assoc]

/-- A reference to a field of a field is read along the steps of both. -/
theorem eval_fieldRef_below (hne : path ≠ [])
    (hop : isOperator (String.intercalate "." path) = false) (element : String) :
    eng.eval env (.string (fieldRef (path ++ [element]))) =
      follow (.document env.root) (steps (String.intercalate "." path) ++ steps element) := by
  have hbelow := intercalate_below hne element
  rw [eval_fieldRef (by simp) (hbelow ▸ isOperator_below hop element), hbelow, steps_below]

@[simp] theorem get?_bind (name : String) (value : Option Value) :
    (env.bind name value).vars.get? name = value := by
  cases value with
  | none => exact Document.get?_eq_none (by simp [Env.bind, Document.keys])
  | some v => simp [Env.bind, Document.get?]

/-- A field of a variable. -/
theorem eval_variableRef {name : String} (hdot : '.' ∉ name.toList) (hroot : name ≠ "ROOT")
    (element : String) (value : Option Value) :
    eng.eval (env.bind name value) (.string (variableRef name [element])) =
      value.bind fun v => follow v (steps element) := by
  have hchars : (variableRef name [element]).toList =
      '$' :: '$' :: (name ++ "." ++ element).toList := by
    simp [variableRef]
  have href : isOperator (variableRef name [element]) = true := by simp [isOperator, hchars]
  simp only [Engine.eval, href, if_true, hchars, Env.read, String.ofList_toList, steps_below,
    steps_of_not_mem hdot, List.cons_append, List.nil_append, Env.named, hroot, if_false, get?_bind]

/-- A field of a computed value. -/
theorem eval_fieldOf (heng : eng.ReadsArrays) (v : Value) (element : String) :
    eng.eval env (fieldOf v [element]) =
      (eng.eval env v).bind fun w => follow w (steps element) := by
  rw [fieldOf, heng.binds]
  exact eval_variableRef (by decide) (by decide) element _

end Aggregation

/-- The item at this end of a list. -/
def SequenceEnd.of? {α : Type} (which : SequenceEnd) (items : List α) : Option α :=
  match which with
  | .first => items.head?
  | .last => items.getLast?

theorem SequenceEnd.of?_map {α β : Type} (which : SequenceEnd) (f : α → β) (items : List α) :
    which.of? (items.map f) = (which.of? items).map f := by
  cases which <;> simp [of?]

theorem Aggregation.itemAt?_position (which : SequenceEnd) (items : List Value) :
    itemAt? items which.position = which.of? items := by
  cases which with
  | first => exact List.head?_eq_getElem?.symm
  | last =>
    rw [SequenceEnd.of?, ← List.head?_reverse, List.head?_eq_getElem?]
    rfl

/-! ## Members of elements -/

/-- A document holds an array of documents at a stored place. -/
def FieldPath.Holds (f : FieldPath) (d : Document) (elements : List Document) : Prop :=
  follow (.document d) (steps f.dotted) = some (.array (elements.map .document))

/-- The member of an element, if the element has one. -/
def Schema.StoredMember.valueIn? (stored : Schema.StoredMember) (x : Document) : Option Value :=
  follow (.document x) (steps stored.element)

/-- The lambda that takes a member of its parameter. -/
def Expr.memberSelector (item : Param) (name : String) : Expr :=
  .lambda [item] (.member (.param item) name)

theorem SequenceEnd.method_cases {method : String} {which : SequenceEnd}
    (h : ofMethod? method = some which) :
    method = "First" ∨ method = "FirstOrDefault" ∨ method = "Last" ∨ method = "LastOrDefault" := by
  unfold ofMethod? at h
  split at h <;> simp_all

namespace Schema

variable {s : Schema} {coll : Expr} {type : ValueType} {method : String} {which : SequenceEnd}

theorem typeOf_end (hitem : (s.typeOf coll).item? = some type)
    (hm : SequenceEnd.ofMethod? method = some which) : s.typeOf (.call coll method []) = type := by
  simp only [typeOf, Typing.callType, hitem, Option.getD_some]
  rcases SequenceEnd.method_cases hm with rfl | rfl | rfl | rfl <;> rfl

/-- A member of an item is stored one step below it. -/
theorem chain?_itemMember {item : Param} {typeName name : String} {stored : StoredMember}
    (htype : item.type = .document typeName)
    (hstored : s.storedMember? (.document typeName) name = .ok (some stored)) :
    s.chain? (.member (.param item) name) =
      some ((FieldPath.ofParam item).step stored.element stored.type stored.representation) := by
  simp [chain?, FieldPath.ofParam, htype, ValueType.isNullable, hstored]

/-- A selection of a member is stored one step below the array. -/
theorem fieldPath?_selection {item : Param} {typeName name : String} {stored : StoredMember}
    {f : FieldPath} (hcoll : s.chain? coll = some f) (harray : f.type.isArray = true)
    (htype : item.type = .document typeName)
    (hstored : s.storedMember? (.document typeName) name = .ok (some stored)) :
    ∃ g, s.fieldPath? (.call coll "Select" [.memberSelector item name]) = .ok (some g) ∧
      g.param = f.param ∧ g.path = f.path ++ [stored.element] ∧ g.positional = false := by
  have hbody : s.bodyPath? (.memberSelector item name) = .ok (some _) :=
    fieldPath?_of_chain? (chain?_itemMember htype hstored)
  refine ⟨f.through ((FieldPath.ofParam item).step stored.element stored.type
    stored.representation), ?_, ?_, ?_, ?_⟩
  · rw [fieldPath?]
    simp only [Expr.memberSelector, Expr.asUnaryLambda?, Expr.asLambda?] at hbody ⊢
    simp only [fieldPath?_of_chain? hcoll, hbody, bind, Except.bind, harray, if_true]
    exact if_pos rfl
  · rfl
  · rfl
  · simp [FieldPath.through, FieldPath.step, FieldPath.ofParam, positional_of_chain? hcoll]

end Schema

namespace Mapping

variable {m : Mapping} {p item : Param} {coll : Expr} {f : FieldPath} {typeName name : String}
  {stored : Schema.StoredMember} {method : String} {which : SequenceEnd}

/-- A method of a stored array, unless it is one that any value has. -/
theorem callOperand_array {sub : Expr → Scope → Result Value} {node : Expr} {args : List Expr}
    {s : Scope} (hcoll : m.schema.chain? coll = some f) (harray : f.type.isArray = true)
    (hcompare : method ≠ "CompareTo") (hequals : method ≠ "Equals") :
    m.callOperand sub node coll method args s = m.arrayCall sub node coll method args s := by
  obtain ⟨type, htype⟩ := Option.isSome_iff_exists.1 harray
  unfold callOperand
  split
  · exact absurd rfl hcompare
  · exact absurd rfl hequals
  · exact absurd rfl hequals
  · simp only [Schema.known?_of_chain? hcoll, Schema.typeOf_of_chain? hcoll,
      underlying_of_item? htype]

/-- The first or last element. -/
theorem operandOf_end (hcoll : m.schema.chain? coll = some f) (hp : f.param = p.name)
    (harray : f.type.isArray = true) (hm : SequenceEnd.ofMethod? method = some which) :
    m.operandOf (.call coll method []) (.root p.name) =
      .ok (opAll "$arrayElemAt" [.string (fieldRef f.path), .int32 which.position]) := by
  obtain ⟨hreference, hreducer, hcompare, hequals⟩ :
      (Expr.call coll method []).isReference = false ∧ Reducer.ofMethod? method = none ∧
        method ≠ "CompareTo" ∧ method ≠ "Equals" := by
    rcases SequenceEnd.method_cases hm with rfl | rfl | rfl | rfl <;>
      exact ⟨rfl, rfl, by decide, by decide⟩
  rw [operandOf_of_not_reference hreference, computedOperand,
    callOperand_array hcoll harray hcompare hequals, arrayCall, hreducer]
  simp only [operandOf_of_chain hcoll hp, arrayCallNoArg, hm]
  rfl

/-- A member of the first or last element is read at that end of a path through the array. -/
theorem operandOf_endMember (hcoll : m.schema.chain? coll = some f) (hp : f.param = p.name)
    (hitem : f.type.item? = some (.document typeName))
    (hstored : m.schema.storedMember? (.document typeName) name = .ok (some stored))
    (hm : SequenceEnd.ofMethod? method = some which) :
    m.operandOf (.member (.call coll method []) name) (.root p.name) =
      .ok (opAll "$arrayElemAt"
        [.string (fieldRef f.path ++ "." ++ stored.element), .int32 which.position]) := by
  have htype : m.schema.typeOf (.call coll method []) = .document typeName :=
    Schema.typeOf_end ((Schema.typeOf_of_chain? hcoll).symm ▸ hitem) hm
  have hend : m.endMember? (.call coll method []) stored.element (.root p.name) =
      .ok (some (opAll "$arrayElemAt"
        [.string (fieldRef f.path ++ "." ++ stored.element), .int32 which.position])) := by
    simp only [endMember?, Expr.strip, hm, reference?_of_chain hcoll hp]
    rfl
  have hreference : (Expr.member (.call coll method []) name).isReference = false := by
    rcases SequenceEnd.method_cases hm with rfl | rfl | rfl | rfl <;> rfl
  rw [operandOf_of_not_reference hreference, computedOperand, memberOperand]
  simp only [htype, ValueType.isNullable, ValueType.underlying, Bool.false_and, Bool.false_eq_true,
    if_false]
  rw [storedMember, htype, hstored]
  simp only [bind, Except.bind, hend]
  rfl

theorem project_endMember (hcoll : m.schema.chain? coll = some f) (hp : f.param = p.name)
    (hitem : f.type.item? = some (.document typeName))
    (hstored : m.schema.storedMember? (.document typeName) name = .ok (some stored))
    (hm : SequenceEnd.ofMethod? method = some which) :
    m.project (.lambda [p] (.member (.call coll method []) name)) =
      .ok (valueStage (opAll "$arrayElemAt"
        [.string (fieldRef f.path ++ "." ++ stored.element), .int32 which.position])) := by
  have hcheck : (Scope.root p.name).check (.member (.call coll method []) name) = .ok () := by
    simp only [Scope.check, Scope.checkChain, Expr.chainRoot?, check_chain hcoll]
    rfl
  rw [project_of_check hcheck rfl rfl, operandOf_endMember hcoll hp hitem hstored hm]
  rfl

/-- A selection of a member is a path through the array. -/
theorem operandOf_selection (hcoll : m.schema.chain? coll = some f) (hp : f.param = p.name)
    (harray : f.type.isArray = true) (htype : item.type = .document typeName)
    (hstored : m.schema.storedMember? (.document typeName) name = .ok (some stored)) :
    m.operandOf (.call coll "Select" [.memberSelector item name]) (.root p.name) =
      .ok (.string (fieldRef (f.path ++ [stored.element]))) := by
  obtain ⟨g, hg, hparam, hpath, hpos⟩ := Schema.fieldPath?_selection hcoll harray htype hstored
  have href : (Expr.call coll "Select" [.memberSelector item name]).isReference = true := by
    simpa [Expr.isReference] using Schema.isReference_of_chain? hcoll
  rw [operandOf_eq, operandNode, reference?_of_fieldPath? href hg hpos (hparam.trans hp), hpath]
  rfl

theorem project_selection (hcoll : m.schema.chain? coll = some f) (hp : f.param = p.name)
    (harray : f.type.isArray = true) (htype : item.type = .document typeName)
    (hstored : m.schema.storedMember? (.document typeName) name = .ok (some stored)) :
    m.project (.lambda [p] (.call coll "Select" [.memberSelector item name])) =
      .ok (valueStage (.string (fieldRef (f.path ++ [stored.element])))) := by
  obtain ⟨g, hg, -⟩ := Schema.fieldPath?_selection hcoll harray htype hstored
  have hcheck := Scope.check_of_fieldPath? hg (isForeign_root p.name g.param)
  rw [project_of_check hcheck rfl rfl, operandOf_selection hcoll hp harray htype hstored]
  rfl

/-- The member of an item that a variable stands for. -/
theorem operandOf_itemMember (s : Scope) (htype : item.type = .document typeName)
    (hstored : m.schema.storedMember? (.document typeName) name = .ok (some stored)) :
    m.operandOf (.member (.param item) name) (s.push (.of item.name (.variable item.name))) =
      .ok (.string (variableRef item.name [stored.element])) := by
  have hpath := Schema.fieldPath?_of_chain? (Schema.chain?_itemMember htype hstored)
  have hresolve : (s.push (.of item.name (.variable item.name))).resolve item.name
      (.member (.param item) name) = .ok (.variable item.name) := by
    simp [Scope.resolve, Scope.classify, Scope.push, Frame.of, Frame.binding?]
  rw [operandOf_eq, operandNode, reference?]
  simp only [Expr.isReference, hpath, Bool.not_true, Bool.false_eq_true, if_false, bind,
    Except.bind, FieldPath.step, FieldPath.ofParam, hresolve]
  rfl

/-- A selection of a member that is computed item by item. -/
theorem computedOperand_selection (hcoll : m.schema.chain? coll = some f) (hp : f.param = p.name)
    (harray : f.type.isArray = true) (htype : item.type = .document typeName)
    (hstored : m.schema.storedMember? (.document typeName) name = .ok (some stored)) :
    m.computedOperand m.operandOf (.call coll "Select" [.memberSelector item name])
        (.root p.name) =
      .ok (op "$map" (.document [("input", .string (fieldRef f.path)), ("as", .string item.name),
        ("in", .string (variableRef item.name [stored.element]))])) := by
  rw [computedOperand, callOperand_array hcoll harray (by decide) (by decide)]
  change (m.operandOf coll (.root p.name) >>= fun array =>
    mapItems m.operandOf _ array (.memberSelector item name) (.root p.name)) = _
  rw [operandOf_of_chain hcoll hp]
  change (m.operandOf (.member (.param item) name) _ >>= _) >>= _ = _
  rw [operandOf_itemMember _ htype hstored]
  rfl

/-! ## What a document holds -/

variable {eng : Engine} {d : Document} {elements : List Document}

/-- A path through a stored array collects the members that the elements have. -/
theorem eval_members (hcoll : m.schema.Reads coll f) (h : f.Holds d elements)
    (stored : Schema.StoredMember) :
    eng.eval { root := d } (.string (fieldRef (f.path ++ [stored.element]))) =
      some (.array (elements.filterMap stored.valueIn?)) := by
  rw [eval_fieldRef_below hcoll.path hcoll.name]
  exact follow_elements (steps_ne_nil _) h

/-- The path gives the member of the element nearest to that end that has one. -/
theorem eval_endMember (heng : eng.ReadsArrays) (hcoll : m.schema.Reads coll f)
    (h : f.Holds d elements) (stored : Schema.StoredMember) (which : SequenceEnd) :
    eng.eval { root := d } (opAll "$arrayElemAt"
        [.string (fieldRef f.path ++ "." ++ stored.element), .int32 which.position]) =
      which.of? (elements.filterMap stored.valueIn?) := by
  rw [fieldRef_below hcoll.path, heng.item (eval_members hcoll h stored), itemAt?_position]

/-- The member of the element itself. -/
theorem eval_fieldOf_end (heng : eng.ReadsArrays) (hcoll : m.schema.Reads coll f)
    (h : f.Holds d elements) (stored : Schema.StoredMember) (which : SequenceEnd) :
    eng.eval { root := d } (fieldOf
        (opAll "$arrayElemAt" [.string (fieldRef f.path), .int32 which.position])
        [stored.element]) =
      (which.of? elements).bind stored.valueIn? := by
  have harray : eng.eval { root := d } (.string (fieldRef f.path)) = some (.array _) :=
    (eval_fieldRef hcoll.path hcoll.name).trans h
  rw [eval_fieldOf heng, heng.item harray, itemAt?_position, SequenceEnd.of?_map, Option.bind_map]
  rfl

/-- The members of the elements one by one. -/
theorem eval_map_members (heng : eng.ReadsArrays) (hcoll : m.schema.Reads coll f)
    (h : f.Holds d elements) (stored : Schema.StoredMember) {name : String}
    (hdot : '.' ∉ name.toList) (hroot : name ≠ "ROOT") :
    eng.eval { root := d } (op "$map" (.document [("input", .string (fieldRef f.path)),
        ("as", .string name), ("in", .string (variableRef name [stored.element]))])) =
      some (.array (elements.map fun x => (stored.valueIn? x).getD .null)) := by
  have harray : eng.eval { root := d } (.string (fieldRef f.path)) = some (.array _) :=
    (eval_fieldRef hcoll.path hcoll.name).trans h
  simp only [heng.maps harray, eval_variableRef hdot hroot, List.map_map]
  rfl

/-! ## Elements that lack the member -/

theorem of?_filterMap {α β : Type} {g : α → Option β} {items : List α} {which : SequenceEnd} {v : β}
    (h : (which.of? items).bind g = some v) : which.of? (items.filterMap g) = some v := by
  obtain ⟨x, hx, hv⟩ := Option.bind_eq_some_iff.1 h
  cases which with
  | first =>
    obtain ⟨rest, rfl⟩ := List.head?_eq_some_iff.1 hx
    simp [SequenceEnd.of?, hv]
  | last =>
    obtain ⟨rest, rfl⟩ := List.getLast?_eq_some_iff.1 hx
    simp [SequenceEnd.of?, hv]

/-- Both are the same if the element has the member, or if there is nothing to return. -/
theorem getD_of?_filterMap_iff {α : Type} (g : α → Option Value) (items : List α)
    (which : SequenceEnd) :
    (which.of? (items.filterMap g)).getD .null = ((which.of? items).bind g).getD .null ↔
      ((which.of? items).bind g).isSome = true ∨
        (which.of? (items.filterMap g)).getD .null = .null := by
  cases h : (which.of? items).bind g with
  | none => simp
  | some v => simp [of?_filterMap h]

theorem filterMap_eq_map_iff {α : Type} (g : α → Option Value) (items : List α) :
    items.filterMap g = items.map (fun x => (g x).getD .null) ↔
      ∀ x ∈ items, (g x).isSome = true := by
  induction items with
  | nil => simp
  | cons x rest ih =>
    cases hx : g x with
    | some v => simp [hx, ih]
    | none =>
      -- A list that passes over an element is shorter.
      have hlen := List.length_filterMap_le g rest
      have hne : (x :: rest).filterMap g ≠ (x :: rest).map fun x => (g x).getD .null := by
        intro h
        have := congrArg List.length h
        simp [hx] at this
        omega
      simpa [hx] using hne

/-- **A member of the elements of a stored array is read from those that have it.** What is returned
for the first or last element is the member of the nearest element that has one. It is the member
of that element itself, or null, just if the element has the member or nothing but null is
returned. A selection of the member leaves out the elements that lack it, and is the member of each
element, or null, just if all of them have it. -/
theorem project_elementMembers (heng : eng.ReadsArrays) (hcoll : m.schema.Reads coll f)
    (hp : f.param = p.name) (hitem : f.type.item? = some (.document typeName))
    (hstored : m.schema.storedMember? (.document typeName) name = .ok (some stored))
    (htype : item.type = .document typeName) (hdot : '.' ∉ item.name.toList)
    (hroot : item.name ≠ "ROOT") :
    (∀ method which, SequenceEnd.ofMethod? method = some which →
      ∃ stage element,
        m.project (.lambda [p] (.member (.call coll method []) name)) = .ok stage ∧
        m.operandOf (.call coll method []) (.root p.name) = .ok element ∧
        ∀ d elements, f.Holds d elements →
          eng.eval { root := d } (fieldOf element [stored.element]) =
            (which.of? elements).bind stored.valueIn? ∧
          stage.Returns eng d ((which.of? (elements.filterMap stored.valueIn?)).getD .null) ∧
          (stage.Returns eng d (((which.of? elements).bind stored.valueIn?).getD .null) ↔
            ((which.of? elements).bind stored.valueIn?).isSome = true ∨
              (which.of? (elements.filterMap stored.valueIn?)).getD .null = .null)) ∧
    ∃ stage mapped,
      m.project (.lambda [p] (.call coll "Select" [.memberSelector item name])) = .ok stage ∧
      m.computedOperand m.operandOf (.call coll "Select" [.memberSelector item name])
        (.root p.name) = .ok mapped ∧
      ∀ d elements, f.Holds d elements →
        eng.eval { root := d } mapped =
          some (.array (elements.map fun x => (stored.valueIn? x).getD .null)) ∧
        stage.Returns eng d (.array (elements.filterMap stored.valueIn?)) ∧
        (stage.Returns eng d (.array (elements.map fun x => (stored.valueIn? x).getD .null)) ↔
          ∀ x ∈ elements, (stored.valueIn? x).isSome = true) := by
  have harray : f.type.isArray = true := by simp [ValueType.isArray, hitem]
  constructor
  · intro method which hm
    refine ⟨_, _, project_endMember hcoll.chain hp hitem hstored hm,
      operandOf_end hcoll.chain hp harray hm, fun d elements h => ⟨?_, ?_, ?_⟩⟩
    · exact eval_fieldOf_end heng hcoll h stored which
    · rw [returns_valueStage, eval_endMember heng hcoll h]
    · rw [returns_valueStage, eval_endMember heng hcoll h]
      exact getD_of?_filterMap_iff stored.valueIn? elements which
  · refine ⟨_, _, project_selection hcoll.chain hp harray htype hstored,
      computedOperand_selection hcoll.chain hp harray htype hstored,
      fun d elements h => ⟨?_, ?_, ?_⟩⟩
    · exact eval_map_members heng hcoll h stored hdot hroot
    · rw [returns_valueStage, eval_members hcoll h]
      rfl
    · rw [returns_valueStage, eval_members hcoll h, Option.getD_some, Value.array.injEq]
      exact filterMap_eq_map_iff stored.valueIn? elements

/-- The items `G` of `x`. -/
def groupsOfRoot : Expr := .member (.param ⟨"x", .document "Root"⟩) "G"

theorem reads_groupsOfRoot :
    groups.schema.Reads groupsOfRoot ⟨"x", ["G"], .array (.document "C"), .natural, false⟩ :=
  ⟨rfl, by decide, by decide⟩

/-- A document whose first item has no text. -/
def sparseGroups : Document :=
  [("G", .array [.document [], .document [("D", .string "b")]])]

theorem holds_sparseGroups :
    FieldPath.Holds ⟨"x", ["G"], .array (.document "C"), .natural, false⟩ sparseGroups
      [[], [("D", .string "b")]] := rfl

theorem storedMember?_text :
    groups.schema.storedMember? (.document "C") "D" = .ok (some ⟨"D", .string, .natural⟩) := rfl

/-- The text of the last item, and the texts of all. -/
theorem project_elementMembers_sparseGroups :
    (∃ stage, groups.project
        (.lambda [⟨"x", .document "Root"⟩] (.member (.call groupsOfRoot "Last" []) "D")) =
          .ok stage ∧
      stage.Returns idle.withArrays sparseGroups (.string "b")) ∧
    ∃ mapped, groups.computedOperand groups.operandOf
        (.call groupsOfRoot "Select" [.memberSelector ⟨"g", .document "C"⟩ "D"]) (.root "x") =
          .ok mapped ∧
      idle.withArrays.eval { root := sparseGroups } mapped =
        some (.array [.null, .string "b"]) := by
  have hitem : (⟨"g", .document "C"⟩ : Param).type = .document "C" := rfl
  obtain ⟨hends, _, mapped, -, hmapped, hselected⟩ :=
    project_elementMembers (p := ⟨"x", .document "Root"⟩) (readsArrays_withArrays idle)
      reads_groupsOfRoot rfl rfl storedMember?_text hitem (by decide) (by decide)
  obtain ⟨stage, element, hstage, -, hread⟩ := hends "Last" .last rfl
  exact ⟨⟨stage, hstage, (hread _ _ holds_sparseGroups).2.1⟩, mapped, hmapped,
    (hselected _ _ holds_sparseGroups).1⟩

/-- The text of the first item is that of the second, and there is one text for two items. -/
theorem project_firstText_sparseGroups :
    (∃ stage, groups.project
        (.lambda [⟨"x", .document "Root"⟩] (.member (.call groupsOfRoot "First" []) "D")) =
          .ok stage ∧
      stage.Returns idle.withArrays sparseGroups (.string "b") ∧
      ¬stage.Returns idle.withArrays sparseGroups .null) ∧
    ∃ stage, groups.project (.lambda [⟨"x", .document "Root"⟩]
        (.call groupsOfRoot "Select" [.memberSelector ⟨"g", .document "C"⟩ "D"])) = .ok stage ∧
      stage.Returns idle.withArrays sparseGroups (.array [.string "b"]) ∧
      ¬stage.Returns idle.withArrays sparseGroups (.array [.null, .string "b"]) := by
  have hcoll := reads_groupsOfRoot
  have hfirst : idle.withArrays.eval { root := sparseGroups } _ = some (.string "b") :=
    eval_endMember (readsArrays_withArrays idle) hcoll holds_sparseGroups
      ⟨"D", .string, .natural⟩ .first
  have hall : idle.withArrays.eval { root := sparseGroups } _ = some (.array [.string "b"]) :=
    eval_members hcoll holds_sparseGroups ⟨"D", .string, .natural⟩
  constructor
  · refine ⟨_, project_endMember hcoll.chain rfl rfl storedMember?_text rfl, ?_⟩
    rw [returns_valueStage, returns_valueStage, hfirst]
    simp
  · refine ⟨_, project_selection hcoll.chain rfl rfl rfl storedMember?_text, ?_⟩
    rw [returns_valueStage, returns_valueStage, hall]
    simp

end Mapping
end DocQuery
