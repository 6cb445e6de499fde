/-
Which parts of an expression are in its aggregation expression
(`carries_computedOperand`), in which scope they are translated, and which names
are bound around them (`places_computedOperand`).

An expression that is a stored field as it stands is a reference, and nothing of
its parts is left. Of all others, `operandParts` lists the parts that are
translated on their own, with the body in place of a lambda. A literal that is
compared is not among them, nor is one that the builder takes for a text or a
number, since these are written in forms of their own. `placements` says of each
part how it is placed.
-/
import DocQuery.Proofs.Aggregation.Binary
import DocQuery.Proofs.Aggregation.Binders

namespace DocQuery

open Aggregation

/-! ## Parts of values -/

/-- A value is another one, or a part of one of its items or fields. -/
inductive Value.IsPartOf (v : Value) : Value → Prop
  | refl : v.IsPartOf v
  | item {items : List Value} {i : Value} (hi : i ∈ items) (h : v.IsPartOf i) :
      v.IsPartOf (.array items)
  | field {fields : List (String × Value)} {key : String} {x : Value} (hx : (key, x) ∈ fields)
      (h : v.IsPartOf x) : v.IsPartOf (.document fields)

namespace Value.IsPartOf

variable {u v w : Value} {name : String}

theorem trans (h : u.IsPartOf v) (h' : v.IsPartOf w) : u.IsPartOf w := by
  induction h' with
  | refl => exact h
  | item hi _ ih => exact .item hi ih
  | field hx _ ih => exact .field hx ih

theorem stageMember : v.IsPartOf (stageMember v) := by
  cases v <;> first | exact .refl | exact .field (List.mem_singleton_self _) .refl

theorem op (h : u.IsPartOf v) : u.IsPartOf (op name v) := .field (List.mem_singleton_self _) h

theorem opAll {items : List Value} (hv : v ∈ items) : v.IsPartOf (opAll name items) :=
  op (.item hv .refl)

/-- An operator on named operands. -/
theorem opNamed {fields : List (String × Value)} {key : String} (hv : (key, v) ∈ fields) :
    v.IsPartOf (Aggregation.op name (.document fields)) :=
  op (.field hv .refl)

end Value.IsPartOf

theorem Value.Under.isPartOf {v w : Value} {bound : List (List String)} (h : v.Under bound w) :
    v.IsPartOf w := by
  induction h with
  | refl => exact .refl
  | item hi _ ih => exact .item hi ih
  | field _ hx _ ih => exact .field hx ih
  | @operand _ _ name fields x hx _ ih =>
    suffices hpart : x.IsPartOf (.document fields) from
      ih.trans (.field (List.mem_singleton_self _) hpart)
    revert hx
    unfold scopedOperands
    split
    · rintro (_ | ⟨_, _ | ⟨_, ⟨⟩⟩⟩)
      · exact .field (.head _) .refl
      · exact .field (.tail _ (.tail _ (.head _))) .refl
    · rintro (_ | ⟨_, _ | ⟨_, ⟨⟩⟩⟩)
      · exact .field (.head _) .refl
      · exact .field (.tail _ (.tail _ (.head _))) .refl
    · rintro (_ | ⟨_, _ | ⟨_, _ | ⟨_, ⟨⟩⟩⟩⟩)
      · exact .field (.head _) .refl
      · exact .field (.tail _ (.head _)) .refl
      · exact .field (.tail _ (.tail _ (.head _))) .refl
    · rename_i vars body
      intro hx
      rcases List.mem_append.1 hx with hx | hx
      · obtain ⟨var, hvar, hx⟩ := List.mem_map.1 hx
        cases hx
        exact .field (.head _) (.field hvar .refl)
      · cases List.mem_singleton.1 hx
        exact .field (.tail _ (.head _)) .refl
    · rintro ⟨⟩

/-- A value has the aggregation expression of an expression in it. -/
def Carries (sub : Expr → Scope → Result Value) (e : Expr) (o : Value) : Prop :=
  ∃ s v, sub e s = .ok v ∧ v.IsPartOf o

def CarriesAll (sub : Expr → Scope → Result Value) (es : List Expr) (o : Value) : Prop :=
  ∀ e ∈ es, Carries sub e o

/-- A fact about the value, if there is one. -/
abbrev Yields (P : Value → Prop) : Result Value → Prop := Post P fun _ => True

/-! ## Placed parts -/

/-- How the aggregation expression of a part is placed in that of the whole. -/
inductive Placing where
  | plain
  /-- Compared with each item of an array, under the variable for it. -/
  | sought
  /-- The body of a lambda, under the names that its parameters are read through. -/
  | opened (names : List String) (frame : Frame)

namespace Placing

/-- Names that are bound around the part. -/
def names : Placing → List (List String)
  | plain => []
  | sought => [[itemName]]
  | opened names _ => [names]

/-- Scope in which the part is translated. -/
def scope (s : Scope) : Placing → Scope
  | plain => s
  | sought => s
  | opened _ frame => s.push frame

end Placing

/-- Parts in the scope of the whole, under no names of their own. -/
def plainly (es : List Expr) : List (Placing × Expr) := es.map (.plain, ·)

section Places
variable {sub : Expr → Scope → Result Value} {s : Scope} {e : Expr} {part : Placing × Expr}
  {parts : List (Placing × Expr)} {o o' v : Value} {name : String}

/-- A value has the aggregation expression of a part where the part is placed. -/
def Places (sub : Expr → Scope → Result Value) (s : Scope) (part : Placing × Expr) (o : Value) :
    Prop :=
  ∃ v, sub part.2 (part.1.scope s) = .ok v ∧ v.Under part.1.names o

theorem Places.self (h : sub e s = .ok o) : Places sub s (.plain, e) o := ⟨o, h, .refl⟩

theorem Places.mono (h : Places sub s part o) (ho : o.Under [] o') : Places sub s part o' := by
  obtain ⟨v, hv, hunder⟩ := h
  have hunder := hunder.trans ho
  rw [List.append_nil] at hunder
  exact ⟨v, hv, hunder⟩

theorem Places.op (hname : bindsNames name = false) (h : sub e s = .ok v) :
    Places sub s (.plain, e) (op name v) :=
  (Places.self h).mono (.op hname .refl)

/-- An operand of an operator on a list. -/
theorem Places.opAll {items : List Value} (hname : bindsNames name = false)
    (h : sub e s = .ok v) (hv : v ∈ items) :
    Places sub s (.plain, e) (opAll name items) :=
  (Places.self h).mono (.opAll hname hv)

def PlacesAll (sub : Expr → Scope → Result Value) (s : Scope) (parts : List (Placing × Expr))
    (o : Value) : Prop :=
  ∀ part ∈ parts, Places sub s part o

theorem PlacesAll.nil : PlacesAll sub s [] o := by
  intro part hpart
  cases hpart

theorem PlacesAll.cons (h : Places sub s part o) (hs : PlacesAll sub s parts o) :
    PlacesAll sub s (part :: parts) o :=
  List.forall_mem_cons.2 ⟨h, hs⟩

theorem PlacesAll.single (h : Places sub s part o) : PlacesAll sub s [part] o := .cons h .nil

theorem PlacesAll.mono (h : PlacesAll sub s parts o) (ho : o.Under [] o') :
    PlacesAll sub s parts o' :=
  fun part hpart => (h part hpart).mono ho

end Places

/-! ## Parts of expressions -/

/-- The body of a lambda, or the expression itself. -/
def Expr.opened (e : Expr) : Expr :=
  match e.asLambda? with
  | some (_, body) => body
  | none => e

/-- The sides of a comparison, which is an operator or a call. -/
def Expr.comparedSides? : Expr → Option (Expr × Expr)
  | .binary op left right => if op.isComparison then some (left, right) else none
  | .call target "Equals" [other] => some (target, other)
  | .call target "Equals" [other, _] => some (target, other)
  | .staticCall "String" "Equals" [a, b] => some (a, b)
  | .staticCall "Object" "Equals" [a, b] => some (a, b)
  | .staticCall "String" "Equals" [a, b, _] => some (a, b)
  | _ => none

namespace Mapping

/-- Whether an expression is a stored field, or a selection from one, as it stands. -/
def isStored (m : Mapping) (e : Expr) : Bool :=
  e.isReference &&
    match m.schema.fieldPath? e with
    | .ok (some f) => !f.positional
    | _ => false

/-- Whether an expression is the first or last item of a stored array. -/
def isStoredEnd (m : Mapping) (e : Expr) : Bool :=
  match e.strip with
  | .call source method [] => (SequenceEnd.ofMethod? method).isSome && m.isStored source
  | _ => false

/-- Whether a literal argument of a date method is taken for a number. -/
def isAmount (method : String) (arg : Expr) : Bool :=
  (TimeUnit.ofMethod? method).isSome && (arg.asLiteral?.bind number?).isSome

/-- Whether a string method takes literal arguments only. -/
def takesText (method : String) : Bool :=
  (TrimSide.ofMethod? method).isSome || method = "Split"

/-- The array that a method is called on. Taking items after a skip is one slice. -/
def sourceParts (target : Expr) (method : String) (args : List Expr) : List Expr :=
  match (if method = "Take" && args.length = 1 then skipped? target else none) with
  | some (source, skip) => [source, skip]
  | none => [target]

/-- Parts of a method call on an array. -/
def arrayParts (m : Mapping) (target : Expr) (method : String) (args : List Expr) : List Expr :=
  if (Reducer.ofMethod? method).isSome &&
      args.any fun a => m.isStored (.call target "Select" [a]) then []
  else
    sourceParts target method args ++ if method = "OfType" then [] else args.map Expr.opened

/-- Parts of a method call. -/
def callParts (m : Mapping) (target : Expr) (method : String) (args : List Expr) : List Expr :=
  if method = "CompareTo" && args.length = 1 then target :: args
  else if target.isKnown then args
  else
    match (m.schema.typeOf target).underlying with
    | .string => target :: if takesText method then [] else args
    | .dateTime => target :: args.filter fun a => !isAmount method a
    | .array _ => m.arrayParts target method args
    | _ => []

/-- Parts of a call on a class. The base of a logarithm may be a number. -/
def staticParts (owner method : String) (args : List Expr) : List Expr :=
  match args with
  | [value, base] =>
    if owner = "Math" && method = "Log" && (base.asLiteral?.bind number?).isSome then [value]
    else [value, base]
  | args => args

/-- Members of a new object that no later one of the same element replaces. -/
def keptMembers (m : Mapping) (typeName : Option String) : List (String × Expr) → List Expr
  | [] => []
  | (name, e) :: rest =>
    if rest.any fun (later, _) =>
        (m.outputElement typeName later).toOption = (m.outputElement typeName name).toOption then
      m.keptMembers typeName rest
    else e :: m.keptMembers typeName rest

/-- Parts of an expression that are translated on their own. -/
def operandParts (m : Mapping) (e : Expr) : List Expr :=
  if m.isStored e then []
  else
    match e.comparedSides? with
    | some (a, b) => [a, b].filter fun side => side.asLiteral?.isNone
    | none =>
      match e with
      | .quote inner => [inner]
      | .convert operand _ => [operand]
      | .member target _ => if m.isStoredEnd target then [] else [target]
      | .index target position => [target, position]
      | .call target method args => m.callParts target method args
      | .staticCall owner method args =>
        match Expr.receiverForm? (.staticCall owner method args) with
        | some call => [call]
        | none => staticParts owner method args
      | .not operand => [operand]
      | .negate operand => [operand]
      | .binary _ left right => [left, right]
      | .conditional test ifTrue ifFalse => [test, ifTrue, ifFalse]
      | .object typeName members => m.keptMembers typeName members
      | .collection _ (some source) _ => [source]
      | .collection _ none items => items
      | _ => []

/-! ### Where parts are placed -/

/-- A lambda over the items of an array. Its parameter is a variable of its own name. -/
def overItems (arg : Expr) : Placing :=
  match arg.asLambda? with
  | some ([p], _) => .opened [p.name] (.of p.name (.variable p.name))
  | _ => .plain

/-- A lambda that is folded over the items of an array. Its parameters are the variables of the
fold. -/
def overFold (arg : Expr) : Placing :=
  match arg.asLambda? with
  | some ([accumulator, item], _) =>
    .opened ["value", "this"]
      ((Frame.of accumulator.name (.variable "value")).bind item.name (.variable "this"))
  | _ => .plain

/-- An item of a pair that a variable stands for. -/
def pairItem (pair : String) (i : Int32) : Value :=
  opAll "$arrayElemAt" [.string (variableRef pair []), .int32 i]

/-- A lambda over the pairs of two arrays. Its parameters are the items of the pair. -/
def overPairs (arg : Expr) : Placing :=
  match arg.asLambda? with
  | some ([left, right], _) =>
    let pair := left.name ++ "_" ++ right.name
    .opened [pair]
      ((Frame.of left.name (.computed (pairItem pair 0))).bind right.name
        (.computed (pairItem pair 1)))
  | _ => .plain

/-- Arguments of a method of an array. -/
def placedArguments (method : String) (args : List Expr) : List (Placing × Expr) :=
  match method, args with
  | "Contains", [arg] => [(.sought, arg.opened)]
  | "Aggregate", [step] => [(overFold step, step.opened)]
  | "Aggregate", [seed, step] => [(.plain, seed.opened), (overFold step, step.opened)]
  | "Aggregate", [seed, step, result] =>
    [(.plain, seed.opened), (overFold step, step.opened), (overItems result, result.opened)]
  | "Zip", [second, selector] => [(.plain, second.opened), (overPairs selector, selector.opened)]
  | _, args => args.map fun arg => (overItems arg, arg.opened)

/-- Parts of a method call on an array. -/
def arrayPlacements (m : Mapping) (target : Expr) (method : String) (args : List Expr) :
    List (Placing × Expr) :=
  if (Reducer.ofMethod? method).isSome &&
      args.any fun a => m.isStored (.call target "Select" [a]) then []
  else
    plainly (sourceParts target method args) ++
      if method = "OfType" then [] else placedArguments method args

/-- Parts of a method call. -/
def callPlacements (m : Mapping) (target : Expr) (method : String) (args : List Expr) :
    List (Placing × Expr) :=
  if method = "CompareTo" && args.length = 1 then plainly (target :: args)
  else if target.isKnown then plainly args
  else
    match (m.schema.typeOf target).underlying with
    | .array _ => m.arrayPlacements target method args
    | _ => plainly (m.callParts target method args)

/-- Whether a member is read as an element of its target. -/
def readsElement (m : Mapping) (target : Expr) (name : String) : Bool :=
  !((m.schema.typeOf target).isNullable && (name = "Value" || name = "HasValue")) &&
    match (m.schema.typeOf target).underlying with
    | .dateTime => false
    | .string => name ≠ "Length"
    | .array _ => !(name = "Length" || name = "Count")
    | _ => true

/-- The array whose first or last item an expression is, if it is a reference. -/
def endSource? (m : Mapping) (e : Expr) (s : Scope) : Option Expr :=
  match e.strip with
  | .call source method [] =>
    match SequenceEnd.ofMethod? method, m.reference? source s with
    | some _, .ok (some (.string _)) => some source
    | _, _ => none
  | _ => none

/-- The array that a member of its first or last item is read through. -/
def endMemberSource? (m : Mapping) (target : Expr) (name : String) (s : Scope) : Option Expr :=
  if m.readsElement target name then m.endSource? target s else none

/-- Whether an element of a new object has the name of an operator that binds names. -/
def namesBinder (m : Mapping) (typeName : Option String) (members : List (String × Expr)) : Bool :=
  members.any fun (name, _) => (m.outputElement typeName name).toOption.any bindsNames

/-- Parts of an expression that are translated on their own, and where they are placed. An object
with an element that reads as an operator is left out. -/
def placements (m : Mapping) (e : Expr) (s : Scope) : List (Placing × Expr) :=
  if m.isStored e || e.comparedSides?.isSome then plainly (m.operandParts e)
  else
    match e with
    | .member target name =>
      if (m.endMemberSource? target name s).isSome then [] else plainly [target]
    | .call target method args => m.callPlacements target method args
    | .object typeName members =>
      if m.namesBinder typeName members then [] else plainly (m.keptMembers typeName members)
    | e => plainly (m.operandParts e)

variable {m : Mapping} {sub : Expr → Scope → Result Value} {s : Scope} {o : Value}
  {e e' target arg : Expr} {method : String} {args : List Expr}

theorem isStored_of_mem_operandParts (h : e' ∈ m.operandParts e) : m.isStored e = false := by
  cases hstored : m.isStored e with
  | false => rfl
  | true =>
    unfold operandParts at h
    rw [if_pos hstored] at h
    cases h

theorem mem_operandParts_quote {inner : Expr} (h : e' ∈ m.operandParts (.quote inner)) :
    e' = inner := by
  rw [operandParts, isStored_of_mem_operandParts h] at h
  exact List.mem_singleton.1 h

theorem mem_operandParts_convert {operand : Expr} {type : ValueType}
    (h : e' ∈ m.operandParts (.convert operand type)) : e' = operand := by
  rw [operandParts, isStored_of_mem_operandParts h] at h
  exact List.mem_singleton.1 h

/-- Exactly the stored fields are references. -/
theorem isSome_reference? {r : Option Value} (h : m.reference? e s = .ok r) :
    r.isSome = m.isStored e := by
  unfold reference? at h
  unfold isStored
  cases hr : e.isReference with
  | false =>
    simp only [hr] at h
    cases h
    rfl
  | true =>
    simp only [hr, Bool.not_true, Bool.false_eq_true, if_false] at h
    obtain ⟨f, hf, h⟩ := bind_eq_ok.1 h
    rw [hf]
    cases f with
    | none => cases h; rfl
    | some f =>
      change (if f.positional then _ else _) = _ at h
      split at h
      · rename_i hp
        cases h
        simp [hp]
      · rename_i hp
        obtain ⟨b, -, h⟩ := bind_eq_ok.1 h
        cases b <;> cases h <;> simp [hp]

theorem operandOf_of_not_isStored (h : m.isStored e = false) (ho : m.operandOf e s = .ok o) :
    m.computedOperand m.operandOf e s = .ok o := by
  rw [operandOf_eq, operandNode] at ho
  obtain ⟨r, hr, ho⟩ := bind_eq_ok.1 ho
  have hnone := isSome_reference? hr
  rw [h] at hnone
  cases r with
  | none => exact ho
  | some v => cases hnone

/-! ## Comparisons -/

/-- Each side of a comparison is a constant or translated. -/
theorem mem_of_comparedPair {a b side other : Expr} {items : List Value}
    (h : m.comparedPair sub a b s = .ok items)
    (hside : (side, other) = (a, b) ∨ (side, other) = (b, a)) :
    ∃ v ∈ items, m.compared sub side other s = .ok v := by
  obtain ⟨va, ha, h⟩ := bind_eq_ok.1 h
  obtain ⟨vb, hb, h⟩ := bind_eq_ok.1 h
  cases h
  rcases hside with hside | hside
  · cases hside
    exact ⟨va, by simp, ha⟩
  · cases hside
    exact ⟨vb, by simp, hb⟩

/-- Each side of a comparison that is no literal is translated. -/
theorem mem_of_comparedPair_of_part {a b : Expr} {items : List Value}
    (h : m.comparedPair sub a b s = .ok items)
    (he : e ∈ [a, b].filter fun side => side.asLiteral?.isNone) :
    ∃ v ∈ items, sub e s = .ok v := by
  simp only [List.mem_filter, List.mem_cons, List.not_mem_nil, or_false,
    Option.isNone_iff_eq_none] at he
  obtain ⟨hside, hlit⟩ := he
  obtain ⟨other, hside⟩ : ∃ other, (e, other) = (a, b) ∨ (e, other) = (b, a) := by
    rcases hside with rfl | rfl
    · exact ⟨b, .inl rfl⟩
    · exact ⟨a, .inr rfl⟩
  obtain ⟨v, hv, hcompared⟩ := mem_of_comparedPair h hside
  rw [compared, hlit] at hcompared
  exact ⟨v, hv, hcompared⟩

/-! ## Members -/

theorem places_datePart (node : Expr) (name : String) :
    Yields (PlacesAll sub s (plainly [target])) (datePart sub node target name s) := by
  unfold datePart
  split
  · trivial
  · refine Post.bind (.self _) fun v hv => .single ?_
    split
    · exact (Places.op (by simp) hv).mono (.opAll rfl (.head _))
    · exact .op (by simp) hv

theorem endMember?_of_endSource? {element : String} {r : Option Value}
    (hend : m.endSource? target s = none) (h : m.endMember? target element s = .ok r) :
    r = none := by
  unfold endSource? at hend
  unfold endMember? at h
  split at h
  · rename_i source method hstrip
    rw [hstrip] at hend
    dsimp only at hend
    split at h
    · cases h
      rfl
    · rename_i which hwhich
      rw [hwhich] at hend
      obtain ⟨reference, href, h⟩ := bind_eq_ok.1 h
      rw [href] at hend
      split at h
      · cases hend
      · cases h
        rfl
  · cases h
    rfl

theorem places_storedMember (node : Expr) (name : String) (hend : m.endSource? target s = none) :
    Yields (PlacesAll sub s (plainly [target])) (m.storedMember sub node target name s) := by
  unfold storedMember
  refine Post.bind (.of_total _) fun stored _ => ?_
  cases stored with
  | none => trivial
  | some stored =>
    refine Post.bind (.self _) fun r hr => ?_
    cases endMember?_of_endSource? hend hr
    exact Post.bind (.self _) fun v hv => .single ((Places.self hv).mono .letValue)

theorem places_memberOperand (node : Expr) (name : String)
    (hend : m.endMemberSource? target name s = none) :
    Yields (PlacesAll sub s (plainly [target])) (m.memberOperand sub node target name s) := by
  have hop (name : String) (hname : bindsNames name = false) :
      Yields (PlacesAll sub s (plainly [target])) (op name <$> sub target s) :=
    Post.map (.self _) fun v hv => .single (.op hname hv)
  unfold endMemberSource? readsElement at hend
  unfold memberOperand
  dsimp only
  split
  · exact (Post.self _).imp fun v hv => .single (.self hv)
  · rename_i hvalue
    split
    · exact Post.bind (.self _) fun v hv => .single (.opAll rfl hv (.head _))
    · rename_i hhas
      simp only [Bool.and_eq_true, decide_eq_true_eq, not_and] at hvalue hhas
      have hplain : ((m.schema.typeOf target).isNullable &&
          (decide (name = "Value") || decide (name = "HasValue"))) = false := by
        cases hn : (m.schema.typeOf target).isNullable <;> simp_all
      rw [hplain] at hend
      split
      · exact places_datePart node name
      · split
        · exact hop _ (by simp)
        · exact places_storedMember node name (by simp_all)
      · split
        · exact hop _ rfl
        · exact places_storedMember node name (by simp_all)
      · exact places_storedMember node name (by simp_all)

theorem places_itemAt (node position : Expr) :
    Yields (PlacesAll sub s (plainly [target, position]))
      (m.itemAt sub node target position s) := by
  unfold itemAt
  split
  · refine Post.bind (.self _) fun a ha => Post.bind (.self _) fun b hb => ?_
    exact .cons (.opAll rfl ha (by simp)) (.single (.opAll rfl hb (by simp)))
  · trivial

/-! ## Strings and dates -/

theorem places_indexOfCall (node : Expr) (text : Value) :
    Yields (fun o => text.Under [] o ∧ PlacesAll sub s (plainly args) o)
      (m.indexOfCall sub node text args s) := by
  have hname : bindsNames m.options.stringUnit.indexOperator = false := by simp
  have htext {items : List Value} (h : text ∈ items) :
      text.Under [] (opAll m.options.stringUnit.indexOperator items) := .opAll hname h
  unfold indexOfCall
  dsimp only
  split
  · exact Post.bind (.self _) fun a ha => ⟨htext (by simp), .single (.opAll hname ha (by simp))⟩
  · refine Post.bind (.self _) fun a ha => Post.bind (.self _) fun b hb => ⟨htext (by simp), ?_⟩
    exact .cons (.opAll hname ha (by simp)) (.single (.opAll hname hb (by simp)))
  · refine Post.bind (.self _) fun a ha => Post.bind (.self _) fun b hb =>
      Post.bind (.self _) fun c hc => ⟨htext (by simp), ?_⟩
    have hcount : Places sub s (.plain, _) (opAll "$add" [b, c]) := .opAll rfl hc (by simp)
    exact .cons (.opAll hname ha (by simp)) (.cons (.opAll hname hb (by simp))
      (.single (hcount.mono (.opAll hname (by simp)))))
  · trivial

theorem places_substringCall (node : Expr) (text : Value) :
    Yields (fun o => text.Under [] o ∧ PlacesAll sub s (plainly args) o)
      (m.substringCall sub node text args s) := by
  have hname : bindsNames m.options.stringUnit.substringOperator = false := by simp
  have htext {items : List Value} (h : text ∈ items) :
      text.Under [] (opAll m.options.stringUnit.substringOperator items) := .opAll hname h
  unfold substringCall
  dsimp only
  split
  · exact Post.bind (.self _) fun a ha => ⟨htext (by simp), .single (.opAll hname ha (by simp))⟩
  · refine Post.bind (.self _) fun a ha => Post.bind (.self _) fun b hb => ⟨htext (by simp), ?_⟩
    exact .cons (.opAll hname ha (by simp)) (.single (.opAll hname hb (by simp)))
  · trivial

theorem places_foundCall {test : String} (htest : bindsNames test = false) (text : Value) :
    Yields (fun o => text.Under [] o ∧ PlacesAll sub s (plainly [arg]) o)
      (m.foundCall sub test text arg s) := by
  unfold foundCall
  refine Post.bind (.self _) fun a ha => ?_
  have hpart {v : Value} (hv : v ∈ [text, a]) : v.Under []
      (opAll test [opAll m.options.stringUnit.indexOperator [text, a], .int32 0]) :=
    Value.Under.trans (.opAll (by simp) hv) (.opAll htest (.head _))
  exact ⟨hpart (by simp), .single ((Places.self ha).mono (hpart (by simp)))⟩

theorem under_trimCall (node : Expr) (side : TrimSide) (text : Value) :
    Yields (text.Under [] ·) (trimCall node side text args) := by
  have htext {fields : Document} : text.Under []
      (op side.operator (.document (("input", text) :: fields))) :=
    .opNamed (by simp) rfl (.head _)
  unfold trimCall
  split
  · exact htext
  · split
    · exact htext
    · trivial
  · trivial

theorem places_stringCall (node : Expr) :
    Yields (PlacesAll sub s (plainly (target :: if takesText method then [] else args)))
      (m.stringCall sub node target method args s) := by
  unfold stringCall
  refine Post.bind (.self _) fun text htext => ?_
  have hargs {r : Result Value} {es : List Expr}
      (h : Yields (fun o => text.Under [] o ∧ PlacesAll sub s (plainly es) o) r) :
      Yields (PlacesAll sub s (plainly (target :: es))) r :=
    h.imp fun o ho => .cons ((Places.self htext).mono ho.1) ho.2
  cases hcase : LetterCase.ofMethod? method with
  | some letterCase =>
    dsimp only
    by_cases hempty : args.isEmpty = true
    · obtain rfl := List.isEmpty_iff.1 hempty
      rw [if_pos hempty, ite_self]
      exact hargs ⟨.op (by simp) .refl, .nil⟩
    · rw [if_neg hempty]
      trivial
  | none =>
    cases hside : TrimSide.ofMethod? method with
    | some side =>
      rw [takesText, hside, Option.isSome_some, Bool.true_or, if_pos rfl]
      exact hargs ((under_trimCall node side text).imp fun o ho => ⟨ho, .nil⟩)
    | none =>
      rw [takesText, hside, Option.isSome_none, Bool.false_or]
      generalize hes : (if decide (method = "Split") = true then [] else args) = es
      dsimp only
      split
      · rw [if_neg (by decide)] at hes
        exact hargs (hes ▸ places_substringCall node text)
      · rw [if_neg (by decide)] at hes
        exact hargs (hes ▸ places_indexOfCall node text)
      · rw [if_neg (by decide)] at hes
        exact hargs (hes ▸ places_foundCall rfl text)
      · rw [if_neg (by decide)] at hes
        exact hargs (hes ▸ places_foundCall rfl text)
      · rw [if_pos (by decide)] at hes
        split
        · exact hargs ⟨.opAll rfl (.head _), hes ▸ .nil⟩
        · trivial
      · trivial

/-- The text that a string method is given as a literal. -/
def boundText? (method : String) (arg : Expr) : Option String :=
  if (TrimSide.ofMethod? method).isSome then arg.asLiteral?.bind trimText?
  else if method = "Split" then arg.asLiteral?.bind separator?
  else none

/-- A text that is given as a literal is written as it is. -/
theorem isPartOf_stringCall (node : Expr) {text : String} (h : boundText? method arg = some text) :
    Yields (Value.IsPartOf (.string text)) (m.stringCall sub node target method [arg] s) := by
  unfold boundText? at h
  refine Post.bind (.of_total _) fun target _ => ?_
  cases hcase : LetterCase.ofMethod? method with
  | some letterCase => trivial
  | none =>
    cases hside : TrimSide.ofMethod? method with
    | some side =>
      simp only [hside, Option.isSome_some, if_true] at h
      simp only [trimCall, h]
      exact .opNamed (.tail _ (.head _))
    | none =>
      simp only [hside, Option.isSome_none, Bool.false_eq_true, if_false] at h
      split at h
      · rename_i hmethod
        subst hmethod
        simp only [h]
        exact .opAll (.tail _ (.head _))
      · cases h

theorem places_dateCall (node : Expr) :
    Yields (PlacesAll sub s (plainly (target :: args.filter fun a => !isAmount method a)))
      (dateCall sub node target method args s) := by
  unfold dateCall
  split
  · rename_i arg
    cases hunit : TimeUnit.ofMethod? method with
    | some unit =>
      refine Post.bind (.self _) fun date hdate => ?_
      cases hamount : arg.asLiteral?.bind number? with
      | some amount =>
        have hnone : ([arg].filter fun a => !isAmount method a) = [] := by
          simp [isAmount, hunit, hamount]
        rw [hnone]
        exact .single (.opAll rfl hdate (.head _))
      | none =>
        have hsome : ([arg].filter fun a => !isAmount method a) = [arg] := by
          simp [isAmount, hamount]
        rw [hsome]
        refine Post.bind (.self _) fun v hv => .cons (.opAll rfl hdate (.head _)) (.single ?_)
        exact Places.mono (.opAll rfl hv (.head _)) (.opAll rfl (.tail _ (.head _)))
    | none =>
      have hsome : ([arg].filter fun a => !isAmount method a) = [arg] := by
        simp [isAmount, hunit]
      rw [hsome]
      dsimp only
      split
      · refine Post.bind (.self _) fun v hv => Post.bind (.self _) fun date hdate => ?_
        exact .cons ((Places.self hdate).mono (.opNamed rfl rfl (.tail _ (.head _))))
          (.single ((Places.self hv).mono (.opNamed rfl rfl (.head _))))
      · trivial
  · trivial

/-! ## Arrays -/

variable {array : Value}

/-- What is given for an expression is never given for a lambda. -/
def RefusesLambdas (sub : Expr → Scope → Result Value) : Prop :=
  ∀ e s o, sub e s = .ok o → e.asLambda? = none

/-- An argument that is read as a value is no lambda. -/
theorem places_argument (hsub : RefusesLambdas sub) {v : Value} (h : sub arg s = .ok v) :
    Places sub s (.plain, arg.opened) v ∧ Places sub s (overItems arg, arg.opened) v := by
  rw [overItems, Expr.opened, hsub _ _ _ h]
  exact ⟨.self h, .self h⟩

/-- The body of a lambda over items, translated with its parameter for a variable. -/
theorem lambdaBody_eq_ok {node : Expr} {name : String} {body : Value}
    (h : lambdaBody sub node arg s = .ok (name, body)) :
    overItems arg = .opened [name] (.of name (.variable name)) ∧
      sub arg.opened (s.push (.of name (.variable name))) = .ok body := by
  unfold lambdaBody Expr.asUnaryLambda? at h
  split at h
  · cases h
  · rename_i param body hlambda
    split at hlambda
    · rename_i he
      cases hlambda
      obtain ⟨v, hv, h⟩ := bind_eq_ok.1 h
      cases h
      rw [overItems, Expr.opened, he]
      exact ⟨rfl, hv⟩
    · cases hlambda

/-- The body of a lambda over items, where its parameter is bound. -/
theorem places_lambdaBody {node : Expr} {name : String} {body o : Value}
    (h : lambdaBody sub node arg s = .ok (name, body)) (ho : body.Under [[name]] o) :
    Places sub s (overItems arg, arg.opened) o := by
  obtain ⟨hplacing, hbody⟩ := lambdaBody_eq_ok h
  rw [hplacing]
  exact ⟨body, hbody, ho⟩

theorem places_mapItems (node : Expr) (input : Value) :
    Yields (fun o => input.Under [] o ∧ Places sub s (overItems arg, arg.opened) o)
      (mapItems sub node input arg s) := by
  unfold mapItems
  exact Post.bind (.self _) fun r hr => ⟨.mapInput, places_lambdaBody hr .mapBody⟩

theorem places_filterItems (node : Expr) (input : Value) :
    Yields (fun o => input.Under [] o ∧ Places sub s (overItems arg, arg.opened) o)
      (filterItems sub node input arg s) := by
  unfold filterItems
  exact Post.bind (.self _) fun r hr => ⟨.filterInput, places_lambdaBody hr .filterTest⟩

theorem under_itemsOfType (node target typeArg : Expr) :
    Yields (array.Under [] ·) (m.itemsOfType node target array typeArg) := by
  unfold itemsOfType
  split
  · refine Post.bind (.of_total _) fun mark _ => ?_
    cases mark with
    | none => exact .refl
    | some mark => exact .filterInput
  · trivial

/-- The lambda that makes the result of a fold. -/
def placedResult (result : Option Expr) : List (Placing × Expr) :=
  result.toList.map fun result => (overItems result, result.opened)

theorem places_foldResult (node : Expr) (reduced : Value) {result : Option Expr} :
    Yields (fun o => reduced.Under [] o ∧ PlacesAll sub s (placedResult result) o)
      (foldResult sub node reduced result s) := by
  cases result with
  | none => exact ⟨.refl, .nil⟩
  | some result =>
    exact Post.bind (.self _) fun r hr => ⟨.letValue, .single (places_lambdaBody hr .letBody)⟩

theorem places_foldItems (hsub : RefusesLambdas sub) (node source step : Expr)
    {seed result : Option Expr} :
    Yields (fun o => array.Under [] o ∧ PlacesAll sub s
        (plainly (seed.toList.map Expr.opened) ++
          (overFold step, step.opened) :: placedResult result) o)
      (m.foldItems sub node source array seed step result s) := by
  unfold foldItems
  split
  · rename_i accumulator item body hstep
    have hseed : Yields (PlacesAll sub s (plainly (seed.toList.map Expr.opened)))
        (m.foldSeed sub source seed s) := by
      cases seed with
      | none => exact .nil
      | some seed => exact (Post.self _).imp fun v hv => .single (places_argument hsub hv).1
    refine Post.bind hseed fun initial hinitial => Post.bind (.self _) fun v hv => ?_
    refine (places_foldResult node _).imp fun o ho => ⟨Value.Under.trans .reduceInput ho.1, ?_⟩
    intro part hpart
    rcases List.mem_append.1 hpart with hpart | hpart
    · exact (hinitial part hpart).mono (Value.Under.trans .reduceInitial ho.1)
    · rcases List.mem_cons.1 hpart with rfl | hpart
      · rw [overFold, Expr.opened, hstep]
        exact ⟨v, hv, Value.Under.trans .reduceBody ho.1⟩
      · exact ho.2 part hpart
  · trivial

theorem places_zipItems (hsub : RefusesLambdas sub) (node second selector : Expr) :
    Yields (fun o => array.Under [] o ∧ PlacesAll sub s
        [(.plain, second.opened), (overPairs selector, selector.opened)] o)
      (zipItems sub node array second selector s) := by
  unfold zipItems
  split
  · rename_i left right body hselector
    refine Post.bind (.self _) fun b hb => Post.bind (.self _) fun v hv => ?_
    have hinputs {x : Value} (hx : x ∈ [array, v]) :
        x.Under [] (op "$zip" (.single "inputs" (.array [array, v]))) :=
      .op rfl (.field rfl (List.mem_singleton_self _) (.item hx .refl))
    refine ⟨(hinputs (.head _)).trans .mapInput, .cons ?_ (.single ?_)⟩
    · exact (places_argument hsub hv).1.mono ((hinputs (.tail _ (.head _))).trans .mapInput)
    · rw [overPairs, Expr.opened, hselector]
      exact ⟨b, hb, .mapBody⟩
  · trivial

theorem places_reducedValues (node : Expr)
    (hstored : (args.any fun a => m.isStored (.call target "Select" [a])) = false) :
    Yields (PlacesAll sub s
        ((.plain, target) :: args.map fun arg => (overItems arg, arg.opened)))
      (m.reducedValues sub node target args s) := by
  unfold reducedValues
  split
  · exact (Post.self _).imp fun v hv => .single (.self hv)
  · rename_i selector
    refine Post.bind (.self _) fun r hr => ?_
    have hnone := isSome_reference? hr
    simp only [List.any_cons, List.any_nil, Bool.or_false] at hstored
    rw [hstored] at hnone
    cases r with
    | some v => cases hnone
    | none =>
      refine Post.bind (.self _) fun v hv => (places_mapItems _ v).imp fun o ho => ?_
      exact .cons ((Places.self hv).mono ho.1) (.single ho.2)
  · trivial

theorem under_arrayCallNoArg (node : Expr) (method : String) :
    Yields (array.Under [] ·) (arrayCallNoArg node method array) := by
  unfold arrayCallNoArg
  split
  · exact .opAll rfl (.head _)
  · split
    · exact .op rfl .refl
    · exact .op rfl .refl
    · exact Value.Under.trans (.op rfl .refl) (.opAll rfl (.head _))
    · exact .opAll rfl (.head _)
    · exact .opAll rfl (.head _)
    · exact .op rfl .refl
    · exact .refl
    · exact .refl
    · exact .refl
    · trivial

/-- All other methods than these take a value or a lambda over the items. -/
theorem placedArguments_eq (hcontains : method ≠ "Contains") (haggregate : method ≠ "Aggregate")
    (hzip : method ≠ "Zip") :
    placedArguments method args = args.map fun arg => (overItems arg, arg.opened) := by
  unfold placedArguments
  split
  · exact absurd rfl hcontains
  · exact absurd rfl haggregate
  · exact absurd rfl haggregate
  · exact absurd rfl haggregate
  · exact absurd rfl hzip
  · rfl

theorem places_arrayCallOneArg (hsub : RefusesLambdas sub) (node target : Expr) :
    Yields (fun o => array.Under [] o ∧
        (method ≠ "OfType" → PlacesAll sub s (placedArguments method [arg]) o))
      (m.arrayCallOneArg sub node target method array arg s) := by
  have hone {r : Result Value} (hcontains : method ≠ "Contains") (haggregate : method ≠ "Aggregate")
      (hzip : method ≠ "Zip")
      (h : Yields (fun o => array.Under [] o ∧ Places sub s (overItems arg, arg.opened) o) r) :
      Yields (fun o => array.Under [] o ∧
        (method ≠ "OfType" → PlacesAll sub s (placedArguments method [arg]) o)) r := by
    rw [placedArguments_eq hcontains haggregate hzip]
    exact h.imp fun o ho => ⟨ho.1, fun _ => .single ho.2⟩
  -- The argument as a value, and as the body of a lambda over the items.
  have hvalue {f : Value → Value} (hf : ∀ v, array.Under [] (f v) ∧ v.Under [] (f v)) :
      Yields (fun o => array.Under [] o ∧ Places sub s (overItems arg, arg.opened) o)
        (sub arg s >>= fun v => pure (f v)) :=
    Post.bind (.self _) fun v hv => ⟨(hf v).1, (places_argument hsub hv).2.mono (hf v).2⟩
  have hbody {f : Value → Value} {r : Result Value} (hf : ∀ v, v.Under [] (f v))
      (h : Yields (fun o => array.Under [] o ∧ Places sub s (overItems arg, arg.opened) o) r) :
      Yields (fun o => array.Under [] o ∧ Places sub s (overItems arg, arg.opened) o)
        (r >>= fun v => pure (f v)) :=
    Post.bind h fun v hv => ⟨hv.1.trans (hf v), hv.2.mono (hf v)⟩
  have hfilter : Yields (fun o => array.Under [] o ∧ Places sub s (overItems arg, arg.opened) o)
      (filterItems sub node array arg s) := places_filterItems node array
  have hmap : Yields (fun o => array.Under [] o ∧ Places sub s (overItems arg, arg.opened) o)
      (mapItems sub node array arg s) := places_mapItems node array
  unfold arrayCallOneArg
  split
  · rename_i which _ hwhich
    refine hone ?_ ?_ ?_ (hbody (fun v => .opAll rfl (.head _)) hfilter) <;>
      (rintro rfl; cases hwhich)
  · rename_i operation hoperation _
    refine hone ?_ ?_ ?_
      (hvalue fun v => ⟨.opAll (by simp) (.head _), .opAll (by simp) (.tail _ (.head _))⟩) <;>
      (rintro rfl; cases hoperation)
  · split
    · exact hone (by decide) (by decide) (by decide)
        (hfilter.map fun v hv => ⟨hv.1.trans (.op rfl .refl), hv.2.mono (.op rfl .refl)⟩)
    · exact hone (by decide) (by decide) (by decide)
        (hfilter.map fun v hv => ⟨hv.1.trans (.op rfl .refl), hv.2.mono (.op rfl .refl)⟩)
    · exact hone (by decide) (by decide) (by decide) (hbody (fun v => .opAll rfl (.head _)) hmap)
    · exact hone (by decide) (by decide) (by decide) (hbody (fun v => .opAll rfl (.head _)) hmap)
    · refine Post.bind (.self _) fun v hv => ⟨?_, fun _ => .single ?_⟩
      · exact Value.Under.trans .mapInput (.opAll rfl (.head _))
      · -- Here the argument is under the variable for the item that it is compared with.
        obtain ⟨w, hw, hunder⟩ := (places_argument hsub hv).1
        have hequal : w.Under [] (opAll "$eq" [.string (variableRef itemName []), v]) :=
          Value.Under.trans hunder (.opAll rfl (.tail _ (.head _)))
        exact ⟨w, hw, (hequal.trans .mapBody).trans (.opAll rfl (.head _))⟩
    · exact hone (by decide) (by decide) (by decide)
        (hvalue fun v => ⟨.opAll rfl (.head _), .opAll rfl (.tail _ (.head _))⟩)
    · exact hone (by decide) (by decide) (by decide)
        (hvalue fun v => ⟨.opAll rfl (.head _), .opAll rfl (.tail _ (.head _))⟩)
    · exact hone (by decide) (by decide) (by decide)
        (hvalue fun v => ⟨.opAll rfl (.head _), .opAll rfl (.tail _ (.head _))⟩)
    · exact hone (by decide) (by decide) (by decide)
        (hvalue fun v => ⟨.opAll rfl (.head _), .opAll rfl (.tail _ (.head _))⟩)
    · exact hone (by decide) (by decide) (by decide)
        (hvalue fun v => ⟨.opAll rfl (.head _), .opAll rfl (.tail _ (.head _))⟩)
    · exact hone (by decide) (by decide) (by decide)
        (hvalue fun v => ⟨.opAll rfl (.tail _ (.head _)), .opAll rfl (.head _)⟩)
    · exact hone (by decide) (by decide) (by decide) hfilter
    · exact hone (by decide) (by decide) (by decide) hmap
    · exact (under_itemsOfType node target arg).imp fun o ho => ⟨ho, fun h => absurd rfl h⟩
    · exact (places_foldItems hsub node target arg).imp fun o ho => ⟨ho.1, fun _ => ho.2⟩
    · trivial

/-- A method that is given the array that it is called on. -/
theorem places_receiver {r : Value → Result Value} {parts : List (Placing × Expr)}
    (h : ∀ array, Yields (fun o => array.Under [] o ∧
      (method ≠ "OfType" → PlacesAll sub s parts o)) (r array)) :
    Yields (PlacesAll sub s (plainly [target] ++ if method = "OfType" then [] else parts))
      (sub target s >>= r) := by
  refine Post.bind (.self _) fun array harray => (h array).imp fun o ho => ?_
  refine .cons ((Places.self harray).mono ho.1) ?_
  split
  · exact .nil
  · rename_i hmethod
    exact ho.2 hmethod

theorem places_arrayCall (hsub : RefusesLambdas sub) (node : Expr) :
    Yields (PlacesAll sub s (m.arrayPlacements target method args))
      (m.arrayCall sub node target method args s) := by
  unfold arrayCall arrayPlacements
  cases hreducer : Reducer.ofMethod? method with
  | some reducer =>
    have hother : method ≠ "OfType" ∧ method ≠ "Take" ∧ method ≠ "Contains" ∧
        method ≠ "Aggregate" ∧ method ≠ "Zip" := by
      refine ⟨?_, ?_, ?_, ?_, ?_⟩ <;> (rintro rfl; cases hreducer)
    obtain ⟨hoftype, htake, hcontains, haggregate, hzip⟩ := hother
    rw [placedArguments_eq hcontains haggregate hzip]
    simp only [Option.isSome_some, Bool.true_and, sourceParts, hoftype, htake, decide_false,
      Bool.false_and, Bool.false_eq_true, if_false]
    split
    · exact Post.map (.of_total _) fun o _ => .nil
    · rename_i hstored
      refine (places_reducedValues node (by simpa using hstored)).map fun v hv => ?_
      exact hv.mono (.op (by simp) .refl)
  | none =>
    simp only [Option.isSome_none, Bool.false_and, Bool.false_eq_true, if_false]
    match args with
    | [] =>
      have hparts : sourceParts target method [] = [target] := by simp [sourceParts]
      have hargs : placedArguments method [] = [] := by unfold placedArguments; split <;> simp_all
      rw [hparts, hargs]
      exact places_receiver fun array => (under_arrayCallNoArg node method).imp fun o ho =>
        ⟨ho, fun _ => .nil⟩
    | [arg] =>
      simp only [sourceParts, List.length_singleton, decide_true, Bool.and_true, decide_eq_true_eq]
      cases hskipped : if method = "Take" then skipped? target else none with
      | some skipped =>
        have htake : method = "Take" := by
          split at hskipped
          · assumption
          · cases hskipped
        subst htake
        refine Post.bind (.self _) fun a ha => Post.bind (.self _) fun b hb =>
          Post.bind (.self _) fun c hc => ?_
        exact .cons (.opAll rfl ha (.head _)) (.cons (.opAll rfl hb (.tail _ (.head _)))
          (.single ((places_argument hsub hc).2.mono (.opAll rfl (.tail _ (.tail _ (.head _)))))))
      | none =>
        exact places_receiver fun array => places_arrayCallOneArg hsub node target
    | [a, b] =>
      have hparts : sourceParts target method [a, b] = [target] := by simp [sourceParts]
      rw [hparts]
      refine places_receiver fun array => ?_
      split
      · exact (places_foldItems hsub node target b).imp fun o ho => ⟨ho.1, fun _ => ho.2⟩
      · exact (places_zipItems hsub node a b).imp fun o ho => ⟨ho.1, fun _ => ho.2⟩
      · trivial
    | [a, b, c] =>
      have hparts : sourceParts target method [a, b, c] = [target] := by simp [sourceParts]
      rw [hparts]
      refine places_receiver fun array => ?_
      split
      · rename_i hmethod
        subst hmethod
        exact (places_foldItems hsub node target b).imp fun o ho => ⟨ho.1, fun _ => ho.2⟩
      · trivial
    | a :: b :: c :: d :: rest => exact Post.bind (.of_total _) fun _ _ => trivial

/-! ## Calls -/

theorem places_callOperand (hsub : RefusesLambdas sub) (node : Expr)
    (hne : (Expr.call target method args).comparedSides? = none) :
    Yields (PlacesAll sub s (m.callPlacements target method args))
      (m.callOperand sub node target method args s) := by
  unfold callOperand
  split
  · refine Post.bind (.self _) fun a ha => Post.bind (.self _) fun b hb => ?_
    exact .cons (.opAll rfl ha (.head _)) (.single (.opAll rfl hb (.tail _ (.head _))))
  · cases hne
  · cases hne
  · rename_i hcompare _ _
    have hmethod : (decide (method = "CompareTo") && decide (args.length = 1)) = false := by
      by_cases h : method = "CompareTo" ∧ args.length = 1
      · obtain ⟨a, ha⟩ := List.length_eq_one_iff.1 h.2
        exact absurd ha (hcompare a h.1)
      · simpa [not_and] using h
    rw [callPlacements, callParts, hmethod, if_neg Bool.false_ne_true, if_neg Bool.false_ne_true,
      Expr.isKnown]
    cases hk : target.known? with
    | some values =>
      rw [Option.isSome_some, if_pos rfl]
      dsimp only
      split
      · exact Post.bind (.self _) fun v hv => .single (.opAll rfl hv (.head _))
      · trivial
    | none =>
      rw [Option.isSome_none, if_neg Bool.false_ne_true, if_neg Bool.false_ne_true]
      cases (m.schema.typeOf target).underlying with
      | string => exact places_stringCall node
      | dateTime => exact places_dateCall node
      | array item => exact places_arrayCall hsub node
      | _ => trivial

theorem places_mathCall (node : Expr) :
    Yields (PlacesAll sub s (plainly (staticParts "Math" method args)))
      (mathCall sub node method args s) := by
  unfold mathCall
  split
  · rename_i value
    have hone (name : String) (hname : bindsNames name = false) :
        Yields (PlacesAll sub s (plainly [value]))
          (sub value s >>= fun v => pure (opAll name [v])) :=
      Post.bind (.self _) fun v hv => .single (.opAll hname hv (.head _))
    split
    · exact Post.map (.self _) fun v hv => .single (.op (by simp) hv)
    · split
      · exact hone _ rfl
      · exact hone _ rfl
      · exact hone _ rfl
      · exact hone _ rfl
      · trivial
  · rename_i value second
    split
    · cases hbase : second.asLiteral?.bind number? with
      | some x =>
        have hparts : staticParts "Math" "Log" [value, second] = [value] := by
          simp [staticParts, hbase]
        rw [hparts]
        exact Post.bind (.of_total (pure _)) fun _ _ =>
          Post.bind (.self _) fun v hv => .single (.opAll rfl hv (.head _))
      | none =>
        have hparts : staticParts "Math" "Log" [value, second] = [value, second] := by
          simp [staticParts, hbase]
        rw [hparts]
        refine Post.bind (.self _) fun b hb => Post.bind (.self _) fun v hv => ?_
        exact .cons (.opAll rfl hv (.head _)) (.single (.opAll rfl hb (.tail _ (.head _))))
    · refine Post.bind (.self _) fun v hv => Post.bind (.self _) fun b hb => ?_
      exact .cons (.opAll rfl hv (.head _)) (.single (.opAll rfl hb (.tail _ (.head _))))
    · trivial
  · trivial

theorem mem_of_mapM {es : List Expr} {vs : List Value} (h : (es.mapM fun e => sub e s) = .ok vs) :
    ∀ e ∈ es, ∃ v ∈ vs, sub e s = .ok v := by
  induction es generalizing vs with
  | nil => simp
  | cons e rest ih =>
    rw [List.mapM_cons] at h
    obtain ⟨v, hv, h⟩ := bind_eq_ok.1 h
    obtain ⟨others, hothers, h⟩ := bind_eq_ok.1 h
    cases h
    rintro e' he'
    rcases List.mem_cons.1 he' with rfl | he'
    · exact ⟨v, .head _, hv⟩
    · obtain ⟨v', hmem, hv'⟩ := ih hothers e' he'
      exact ⟨v', .tail _ hmem, hv'⟩

/-- What is made of each of the given parts has them all. -/
theorem placesAll_of_mapM {es : List Expr} {vs : List Value} {f : List Value → Value}
    (h : (es.mapM fun e => sub e s) = .ok vs) (hf : ∀ v ∈ vs, v.Under [] (f vs)) :
    PlacesAll sub s (plainly es) (f vs) := by
  intro part hpart
  obtain ⟨e, he, rfl⟩ := List.mem_map.1 hpart
  obtain ⟨v, hmem, hv⟩ := mem_of_mapM h e he
  exact (Places.self hv).mono (hf v hmem)

theorem places_staticCallOperand (node : Expr) {owner : String}
    (hne : (Expr.staticCall owner method args).comparedSides? = none) :
    Yields (PlacesAll sub s (plainly (staticParts owner method args)))
      (m.staticCallOperand sub node owner method args s) := by
  unfold staticCallOperand
  split
  · exact places_mathCall node
  · refine Post.bind (.self _) fun a ha => Post.bind (.self _) fun b hb => ?_
    have hcount : Places sub s (.plain, _) (opAll "$add" [a, b]) :=
      .opAll rfl hb (.tail _ (.head _))
    exact .cons (.opAll rfl ha (.head _)) (.single (hcount.mono (.opAll rfl (.tail _ (.head _)))))
  · refine Post.bind (.self _) fun v hv => .single ?_
    exact Places.mono (.opAll rfl hv (.head _)) (.opAll rfl (.head _))
  · rename_i part rest
    have hall : staticParts "String" "Concat" (part :: rest) = part :: rest := by
      unfold staticParts
      split
      · rename_i heq
        rw [if_neg (by simp)]
        exact heq.symm
      · rfl
    rw [hall]
    exact Post.bind (.self _) fun vs hvs => placesAll_of_mapM hvs fun v hv => .opAll rfl hv
  · cases hne
  · cases hne
  · cases hne
  · trivial

/-! ## Every node -/

section Object
variable {typeName : Option String} {members : List (String × Expr)} {fields : Document}

theorem objectMembers_cons {name : String}
    (h : m.objectMembers sub typeName ((name, e) :: members) s = .ok fields) :
    ∃ element v others, m.outputElement typeName name = .ok element ∧ sub e s = .ok v ∧
      m.objectMembers sub typeName members s = .ok others ∧
      fields = (element, stageMember v) :: others := by
  rw [objectMembers, List.mapM_cons] at h
  obtain ⟨field, hfield, h⟩ := bind_eq_ok.1 h
  obtain ⟨others, hothers, h⟩ := bind_eq_ok.1 h
  obtain ⟨element, helement, hfield⟩ := bind_eq_ok.1 hfield
  obtain ⟨v, hv, hfield⟩ := bind_eq_ok.1 hfield
  cases h
  cases hfield
  exact ⟨element, v, others, helement, hv, hothers, rfl⟩

/-- A member of a new object has a field. -/
theorem exists_field_of_mem {name : String}
    (h : m.objectMembers sub typeName members s = .ok fields) (he : (name, e) ∈ members) :
    ∃ element v, m.outputElement typeName name = .ok element ∧ sub e s = .ok v ∧
      (element, stageMember v) ∈ fields := by
  induction members generalizing fields with
  | nil => cases he
  | cons q rest ih =>
    obtain ⟨element, v, others, helement, hv, hothers, rfl⟩ := objectMembers_cons h
    rcases List.mem_cons.1 he with rfl | he
    · exact ⟨element, v, helement, hv, .head _⟩
    · obtain ⟨element', v', helement', hv', hmem⟩ := ih hothers he
      exact ⟨element', v', helement', hv', .tail _ hmem⟩

/-- A field of a new object is that of a member. -/
theorem exists_member_of_mem {field : String × Value}
    (h : m.objectMembers sub typeName members s = .ok fields) (hfield : field ∈ fields) :
    ∃ q ∈ members, m.outputElement typeName q.1 = .ok field.1 ∧
      ∃ v, sub q.2 s = .ok v ∧ field.2 = stageMember v := by
  induction members generalizing fields with
  | nil => cases h; cases hfield
  | cons q rest ih =>
    obtain ⟨element, v, others, helement, hv, hothers, rfl⟩ := objectMembers_cons h
    rcases List.mem_cons.1 hfield with rfl | hfield
    · exact ⟨q, .head _, helement, v, hv, rfl⟩
    · obtain ⟨q', hq', hmember⟩ := ih hothers hfield
      exact ⟨q', .tail _ hq', hmember⟩

theorem exists_of_mem_keys (h : m.objectMembers sub typeName members s = .ok fields) {key : String}
    (hkey : key ∈ fields.keys) : ∃ q ∈ members, m.outputElement typeName q.1 = .ok key := by
  obtain ⟨field, hfield, rfl⟩ := List.mem_map.1 hkey
  obtain ⟨q, hq, helement, -⟩ := exists_member_of_mem h hfield
  exact ⟨q, hq, helement⟩

/-- A member that is not replaced is the last of its element. -/
theorem get?_objectMembers (h : m.objectMembers sub typeName members s = .ok fields)
    (he : e ∈ m.keptMembers typeName members) :
    ∃ key v, sub e s = .ok v ∧ Document.get? fields.reverse key = some (stageMember v) := by
  induction members generalizing fields with
  | nil => cases he
  | cons q rest ih =>
    obtain ⟨name, first⟩ := q
    obtain ⟨element, v, others, helement, hv, hothers, rfl⟩ := objectMembers_cons h
    have hget (key : String) : Document.get? ((element, stageMember v) :: others).reverse key =
        (Document.get? others.reverse key).or (Document.get? [(element, stageMember v)] key) := by
      rw [List.reverse_cons, Document.get?_append]
    have hrest (he : e ∈ m.keptMembers typeName rest) : ∃ key x, sub e s = .ok x ∧
        Document.get? ((element, stageMember v) :: others).reverse key = some (stageMember x) := by
      obtain ⟨key, x, hx, hkey⟩ := ih hothers he
      exact ⟨key, x, hx, by rw [hget, hkey, Option.some_or]⟩
    unfold keptMembers at he
    split at he
    · exact hrest he
    · rename_i hlater
      rcases List.mem_cons.1 he with rfl | he
      · have hnone : Document.get? others.reverse element = none := by
          refine Document.get?_eq_none fun hkey => hlater ?_
          have hkey : element ∈ Document.keys others := by simpa [Document.keys] using hkey
          obtain ⟨q, hq, hsame⟩ := exists_of_mem_keys hothers hkey
          exact List.any_eq_true.2 ⟨q, hq, by simp [hsame, helement]⟩
        refine ⟨element, v, hv, ?_⟩
        rw [hget, hnone, Option.none_or]
        simp [Document.get?]
      · exact hrest he

/-- A member that is not replaced is a field of the new object. -/
theorem mem_ofFields_objectMembers (h : m.objectMembers sub typeName members s = .ok fields)
    (he : e ∈ m.keptMembers typeName members) :
    ∃ key v, sub e s = .ok v ∧ (key, stageMember v) ∈ Document.ofFields fields ∧
      ∃ q ∈ members, m.outputElement typeName q.1 = .ok key := by
  obtain ⟨key, v, hv, hkey⟩ := get?_objectMembers h he
  have hmem : key ∈ fields.keys := by
    have hreverse := List.mem_map_of_mem (f := Prod.fst) (Document.mem_of_get? hkey)
    simpa [Document.keys] using hreverse
  rw [← Document.get?_ofFields] at hkey
  exact ⟨key, v, hv, Document.mem_of_get? hkey, exists_of_mem_keys h hmem⟩

theorem places_object (hnames : m.namesBinder typeName members = false)
    (h : m.objectMembers sub typeName members s = .ok fields) :
    PlacesAll sub s (plainly (m.keptMembers typeName members))
      (.document (Document.ofFields fields)) := by
  intro part hpart
  obtain ⟨e, he, rfl⟩ := List.mem_map.1 hpart
  obtain ⟨key, v, hv, hmem, q, hq, helement⟩ := mem_ofFields_objectMembers h he
  have hkey : bindsNames key = false := by
    have hq := List.any_eq_false.1 hnames q hq
    simpa [helement, Except.toOption] using hq
  exact (Places.self hv).mono (.field hkey hmem (.stageMember .refl))

end Object

theorem places_computedOperand (hsub : RefusesLambdas sub) (hstored : m.isStored e = false)
    (hsides : e.comparedSides? = none) (hbinary : ∀ op left right, e ≠ .binary op left right) :
    Yields (PlacesAll sub s (m.placements e s)) (m.computedOperand sub e s) := by
  cases e <;> simp only [placements, operandParts, hstored, hsides, Option.isSome_none,
    Bool.or_false, Bool.false_eq_true, if_false]
  case quote inner => exact (Post.self _).imp fun v hv => .single (.self hv)
  case convert operand type => exact (Post.self _).imp fun v hv => .single (.self hv)
  case literal l => exact .nil
  case member target name =>
    split
    · exact (Post.of_total _).imp fun _ _ => .nil
    · rename_i hend
      exact places_memberOperand _ name (by simpa using hend)
  case index target position => exact places_itemAt _ position
  case call target method args => exact places_callOperand hsub _ hsides
  case staticCall owner method args =>
    simp only [computedOperand]
    cases Expr.receiverForm? (.staticCall owner method args) with
    | some call => exact (Post.self _).imp fun v hv => .single (.self hv)
    | none => exact places_staticCallOperand _ hsides
  case not operand => exact Post.bind (.self _) fun v hv => .single (.opAll rfl hv (.head _))
  case negate operand =>
    exact Post.bind (.self _) fun v hv => .single (.opAll rfl hv (.tail _ (.head _)))
  case binary op left right => exact absurd rfl (hbinary op left right)
  case conditional test ifTrue ifFalse =>
    refine Post.bind (.self _) fun a ha => Post.bind (.self _) fun b hb =>
      Post.bind (.self _) fun c hc => ?_
    exact .cons (.opAll rfl ha (.head _)) (.cons (.opAll rfl hb (.tail _ (.head _)))
      (.single (.opAll rfl hc (.tail _ (.tail _ (.head _))))))
  case object typeName members =>
    split
    · exact (Post.of_total _).imp fun _ _ => .nil
    · rename_i hnames
      exact Post.bind (.self _) fun fields hfields => places_object (by simpa using hnames) hfields
  case collection kind source items =>
    cases source with
    | some source =>
      refine Post.bind (.self _) fun v hv => .single ?_
      split
      · exact .opAll rfl hv (.head _)
      · exact .self hv
    | none =>
      exact Post.bind (.self _) fun vs hvs => placesAll_of_mapM hvs fun v hv => .item hv .refl
  case param | lambda | typeTest | inject => trivial

/-! ## Parts without their places -/

theorem map_snd_plainly (es : List Expr) : (plainly es).map Prod.snd = es := by
  simp [plainly, Function.comp_def]

theorem map_snd_placedArguments (method : String) (args : List Expr) :
    (placedArguments method args).map Prod.snd = args.map Expr.opened := by
  unfold placedArguments
  split <;> simp

theorem map_snd_arrayPlacements (m : Mapping) (target : Expr) (method : String)
    (args : List Expr) :
    (m.arrayPlacements target method args).map Prod.snd = m.arrayParts target method args := by
  unfold arrayPlacements arrayParts
  split
  · rfl
  · rw [List.map_append, map_snd_plainly]
    split
    · rfl
    · rw [map_snd_placedArguments]

theorem map_snd_callPlacements (m : Mapping) (target : Expr) (method : String) (args : List Expr) :
    (m.callPlacements target method args).map Prod.snd = m.callParts target method args := by
  unfold callPlacements
  split
  · rename_i hcompare
    rw [map_snd_plainly, callParts, if_pos hcompare]
  · rename_i hcompare
    split
    · rename_i hknown
      rw [map_snd_plainly, callParts, if_neg hcompare, if_pos hknown]
    · rename_i hknown
      split
      · rename_i item htype
        rw [map_snd_arrayPlacements, callParts, if_neg hcompare, if_neg hknown, htype]
      · rw [map_snd_plainly]

theorem isStoredEnd_of_endMemberSource? {name : String} {source : Expr}
    (h : m.endMemberSource? target name s = some source) : m.isStoredEnd target = true := by
  unfold endMemberSource? endSource? at h
  unfold isStoredEnd
  split at h
  · split at h
    · split at h
      · rename_i hwhich href
        simp only [*, Option.isSome_some, Bool.true_and]
        exact (isSome_reference? href).symm
      · cases h
    · cases h
  · cases h

/-- Every part is placed somewhere. -/
theorem exists_placing (he : e' ∈ m.operandParts e)
    (hobject : ∀ typeName members, e ≠ .object typeName members) :
    ∃ placing, (placing, e') ∈ m.placements e s := by
  suffices h : e' ∈ (m.placements e s).map Prod.snd by
    obtain ⟨⟨placing, _⟩, hmem, rfl⟩ := List.mem_map.1 h
    exact ⟨placing, hmem⟩
  unfold placements
  split
  · rwa [map_snd_plainly]
  · rename_i hcond
    simp only [Bool.or_eq_true, not_or, Bool.not_eq_true] at hcond
    have hsides : e.comparedSides? = none := by simpa using hcond.2
    cases e with
    | object typeName members => exact absurd rfl (hobject typeName members)
    | member target name =>
      simp only [operandParts, hcond.1, hsides, Bool.false_eq_true, if_false] at he
      split at he
      · cases he
      · rename_i hend
        cases hsource : m.endMemberSource? target name s with
        | none => simpa [hsource, map_snd_plainly] using he
        | some source => exact absurd (isStoredEnd_of_endMemberSource? hsource) hend
    | call target method args =>
      simp only [operandParts, hcond.1, hsides, Bool.false_eq_true, if_false] at he
      rwa [map_snd_callPlacements]
    | _ => rwa [map_snd_plainly]

/-- The aggregation expression of an expression that is no reference, comparison or operation of two
sides has those of its parts in it. -/
theorem carries_computedOperand (hsub : RefusesLambdas sub) (hstored : m.isStored e = false)
    (hsides : e.comparedSides? = none) (hbinary : ∀ op left right, e ≠ .binary op left right) :
    Yields (CarriesAll sub (m.operandParts e)) (m.computedOperand sub e s) := by
  by_cases hobject : ∃ typeName members, e = .object typeName members
  · obtain ⟨typeName, members, rfl⟩ := hobject
    refine Post.bind (.self _) fun fields hfields e' he' => ?_
    rw [operandParts, hstored] at he'
    obtain ⟨key, v, hv, hmem, -⟩ := mem_ofFields_objectMembers hfields he'
    exact ⟨s, v, hv, .field hmem .stageMember⟩
  · refine (places_computedOperand hsub hstored hsides hbinary).imp fun o ho e' he' => ?_
    obtain ⟨placing, hplacing⟩ := exists_placing he' fun typeName members h =>
      hobject ⟨typeName, members, h⟩
    obtain ⟨v, hv, hunder⟩ := ho _ hplacing
    exact ⟨_, v, hv, hunder.isPartOf⟩

theorem refusesLambdas_operandOf (m : Mapping) : RefusesLambdas m.operandOf := by
  intro e s o h
  fun_induction Expr.asLambda? e with
  | case1 params body =>
    rw [operandOf_of_not_reference rfl] at h
    cases h
  | case2 inner ih => exact ih (operandOf_quote.1 h)
  | case3 => rfl

/-! ## Both sides of a comparison -/

theorem under_stringEqualsCall {node a b comparison : Expr}
    (h : m.stringEqualsCall sub node a b comparison s = .ok o) :
    ∃ items, m.comparedPair sub a b s = .ok items ∧ ∀ i ∈ items, i.Under [] o := by
  unfold stringEqualsCall at h
  cases hpair : m.comparedPair sub a b s with
  | error err =>
    rw [hpair] at h
    split at h <;> cases h
  | ok items =>
    rw [hpair] at h
    refine ⟨items, rfl, fun i hi => ?_⟩
    split at h
    · cases h
    · cases h
      exact .opAll rfl hi
    · cases h
      exact Value.Under.trans (.opAll rfl hi) (.opAll rfl (.head _))

theorem bindsNames_binaryOperator {op : BinaryOp} {left right : ValueType} {name : String}
    (h : binaryOperator? op left right = some name) : bindsNames name = false := by
  unfold binaryOperator? at h
  cases op <;> simp only [Option.some.injEq] at h
  case add =>
    subst h
    split <;> rfl
  case and | or =>
    split at h
    · cases h
      rfl
    · cases h
  all_goals
    subst h
    rfl

/-- Both sides of a comparison are in it. Those of an operator are its operands. -/
theorem under_comparedPair {a b : Expr} (h : e.comparedSides? = some (a, b))
    (ho : m.operandOf e s = .ok o) :
    ∃ items, m.comparedPair m.operandOf a b s = .ok items ∧ (∀ i ∈ items, i.Under [] o) ∧
      ∀ op left right, e.strip = .binary op left right → ∃ name, o = opAll name items := by
  have hequal {e : Expr} (he : ∀ op left right, e.strip ≠ .binary op left right)
      (ho : opAll "$eq" <$> m.comparedPair m.operandOf a b s = .ok o) :
      ∃ items, m.comparedPair m.operandOf a b s = .ok items ∧ (∀ i ∈ items, i.Under [] o) ∧
        ∀ op left right, e.strip = .binary op left right → ∃ name, o = opAll name items := by
    cases hpair : m.comparedPair m.operandOf a b s with
    | error err => rw [hpair] at ho; cases ho
    | ok items =>
      rw [hpair] at ho
      cases ho
      exact ⟨items, rfl, fun i hi => .opAll rfl hi,
        fun op left right h => absurd h (he op left right)⟩
  have hstring {e node comparison : Expr} (he : ∀ op left right, e.strip ≠ .binary op left right)
      (ho : m.stringEqualsCall m.operandOf node a b comparison s = .ok o) :
      ∃ items, m.comparedPair m.operandOf a b s = .ok items ∧ (∀ i ∈ items, i.Under [] o) ∧
        ∀ op left right, e.strip = .binary op left right → ∃ name, o = opAll name items := by
    obtain ⟨items, hpair, hunder⟩ := under_stringEqualsCall ho
    exact ⟨items, hpair, hunder, fun op left right h => absurd h (he op left right)⟩
  unfold Expr.comparedSides? at h
  split at h
  · rename_i op left right
    split at h
    · rename_i hop
      cases h
      obtain ⟨name, x, y, hname, hx, hy, rfl⟩ := operandOf_comparison hop ho
      have hunder : ∀ i ∈ [x, y], i.Under [] (opAll name [x, y]) := fun i hi =>
        .opAll (bindsNames_binaryOperator hname) hi
      refine ⟨[x, y], ?_, hunder, fun _ _ _ _ => ⟨name, rfl⟩⟩
      rw [comparedPair, hx, hy]
      rfl
    · cases h
  · cases h
    rw [operandOf_of_not_reference rfl] at ho
    exact hequal (by rintro _ _ _ ⟨⟩) ho
  · cases h
    rw [operandOf_of_not_reference rfl] at ho
    exact hstring (by rintro _ _ _ ⟨⟩) ho
  · cases h
    rw [operandOf_of_not_reference rfl] at ho
    exact hequal (by rintro _ _ _ ⟨⟩) ho
  · cases h
    rw [operandOf_of_not_reference rfl] at ho
    exact hequal (by rintro _ _ _ ⟨⟩) ho
  · cases h
    rw [operandOf_of_not_reference rfl] at ho
    exact hstring (by rintro _ _ _ ⟨⟩) ho
  · cases h

end Mapping
end DocQuery
