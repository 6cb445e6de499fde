/-
Aggregation expressions that count bytes and those that count code points.

The two are built side by side. What a rule builds in bytes from operands in
bytes, it builds in code points from the same operands in code points
(`recounts_computedOperand`), so that the expressions differ in the names of three
operators only (`operandOf_counting`). No rule looks at these names: flattening
asks for operators that take any number of operands, and those count nothing.
Names that an expression brings in as keys must not be mistaken for operators
(`bringsNoByteCount`).
-/
import DocQuery.Aggregation.Stage
import DocQuery.Aggregation.Unfolding
import DocQuery.Proofs.Aggregation.Parts
import DocQuery.Proofs.Keys

namespace DocQuery

open Aggregation

/-! ## Renamed keys -/

namespace Value

mutual
/-- The value with other keys in all its documents. -/
def mapKeys (f : String → String) : Value → Value
  | .array items => .array (mapItemKeys f items)
  | .document fields => .document (mapFieldKeys f fields)
  | v => v
def mapItemKeys (f : String → String) : List Value → List Value
  | [] => []
  | v :: rest => mapKeys f v :: mapItemKeys f rest
def mapFieldKeys (f : String → String) : List (String × Value) → List (String × Value)
  | [] => []
  | (k, v) :: rest => (f k, mapKeys f v) :: mapFieldKeys f rest
end

variable {f : String → String} {bad : String → Bool}

theorem mapItemKeys_eq_map (items : List Value) : mapItemKeys f items = items.map (mapKeys f) := by
  induction items with
  | nil => rfl
  | cons v rest ih => rw [mapItemKeys, ih, List.map_cons]

mutual
/-- Keys that do not occur are not renamed. -/
theorem mapKeys_of_avoids (hf : ∀ k, bad k = false → f k = k) :
    ∀ v : Value, v.avoids bad = true → v.mapKeys f = v
  | .array items, h => by rw [mapKeys, mapItemKeys_of_avoids hf items h]
  | .document fields, h => by rw [mapKeys, mapFieldKeys_of_avoids hf fields h]
  | .null, _ | .bool _, _ | .int32 _, _ | .int64 _, _ | .double _, _ | .string _, _
  | .objectId _, _ | .dateTime _, _ | .regex _ _, _ | .decimal _, _ | .binary _, _
  | .timestamp _ _, _ | .symbol _, _ | .javaScript _, _ | .minKey, _ | .maxKey, _
  | .undefined, _ => rfl
theorem mapItemKeys_of_avoids (hf : ∀ k, bad k = false → f k = k) :
    ∀ items : List Value, itemsAvoid bad items = true → mapItemKeys f items = items
  | [], _ => rfl
  | v :: rest, h => by
    simp only [itemsAvoid, Bool.and_eq_true] at h
    rw [mapItemKeys, mapKeys_of_avoids hf v h.1, mapItemKeys_of_avoids hf rest h.2]
theorem mapFieldKeys_of_avoids (hf : ∀ k, bad k = false → f k = k) :
    ∀ fields : List (String × Value), fieldsAvoid bad fields = true →
      mapFieldKeys f fields = fields
  | [], _ => rfl
  | (k, v) :: rest, h => by
    simp only [fieldsAvoid, Bool.and_eq_true, Bool.not_eq_true'] at h
    rw [mapFieldKeys, hf k h.1.1, mapKeys_of_avoids hf v h.1.2, mapFieldKeys_of_avoids hf rest h.2]
end

end Value

namespace Document

/-- The document with other values under the same names. -/
def mapValues (g : Value → Value) (d : Document) : Document := d.map fun (k, v) => (k, g v)

variable (g : Value → Value)

theorem insert_mapValues (d : Document) (k : String) (v : Value) :
    (mapValues g d).insert k (g v) = mapValues g (d.insert k v) := by
  induction d with
  | nil => rfl
  | cons e rest ih =>
    obtain ⟨k', v'⟩ := e
    by_cases hk : k' = k
    · simp [mapValues, insert, hk]
    · simpa [mapValues, insert, hk] using ih

theorem ofFields_mapValues (fields : Document) :
    ofFields (mapValues g fields) = mapValues g (ofFields fields) := by
  have hfold (d : Document) :
      (mapValues g fields).foldl (fun d (k, v) => insert d k v) (mapValues g d) =
        mapValues g (fields.foldl (fun d (k, v) => insert d k v) d) := by
    induction fields generalizing d with
    | nil => rfl
    | cons e rest ih =>
      rw [List.foldl_cons, ← ih, ← insert_mapValues]
      rfl
  exact hfold []

theorem hasKey_mapValues (d : Document) (k : String) : (mapValues g d).hasKey k = d.hasKey k := by
  induction d with
  | nil => rfl
  | cons e rest ih =>
    obtain ⟨k', v'⟩ := e
    by_cases hk : k' = k
    · simp [mapValues, hasKey, get?, hk]
    · simpa [mapValues, hasKey, get?, hk] using ih

/-- Where no name is changed, only the values are. -/
theorem mapFieldKeys_eq_mapValues {f : String → String} {d : Document}
    (h : ∀ k ∈ d.keys, f k = k) : Value.mapFieldKeys f d = mapValues (Value.mapKeys f) d := by
  induction d with
  | nil => rfl
  | cons e rest ih =>
    obtain ⟨k, v⟩ := e
    simp only [keys, List.map_cons, List.forall_mem_cons] at h
    rw [Value.mapFieldKeys, h.1, ih h.2]
    rfl

end Document

/-! ## Operators that count -/

namespace StringUnit

/-- Operators that count bytes. -/
def countsBytes (name : String) : Bool := name ∈ ["$strLenBytes", "$substr", "$indexOfBytes"]

/-- The operator that counts code points in place of bytes. -/
def inCodePoints : String → String
  | "$strLenBytes" => "$strLenCP"
  | "$substr" => "$substrCP"
  | "$indexOfBytes" => "$indexOfCP"
  | name => name

theorem inCodePoints_eq_self {name : String} (h : countsBytes name = false) :
    inCodePoints name = name := by
  unfold inCodePoints
  split
  · exact absurd h (by decide)
  · exact absurd h (by decide)
  · exact absurd h (by decide)
  · rfl

/-- Operators of binary operations count nothing. -/
theorem countsBytes_binaryOperator? {op : BinaryOp} {left right : ValueType} {name : String}
    (h : binaryOperator? op left right = some name) : countsBytes name = false := by
  cases op
  all_goals
    simp only [binaryOperator?, Option.some.injEq, Option.ite_none_right_eq_some] at h
  case add =>
    subst h
    split <;> rfl
  case and => exact h.2 ▸ rfl
  case or => exact h.2 ▸ rfl
  all_goals exact h ▸ rfl

end StringUnit

/-- The value with all operators counting code points in place of bytes. -/
def Value.inCodePoints (v : Value) : Value := v.mapKeys StringUnit.inCodePoints

/-- The stage with all operators counting code points in place of bytes. -/
def Stage.inCodePoints (stage : Stage) : Stage :=
  { stage with body := Value.mapFieldKeys StringUnit.inCodePoints stage.body }

/-- The mapping with another unit of strings. -/
def Mapping.counting (m : Mapping) (unit : StringUnit) : Mapping :=
  { m with options := { m.options with stringUnit := unit } }

namespace Value

open StringUnit (countsBytes)

variable {name : String} {v : Value}

theorem inCodePoints_eq_self (h : v.avoids countsBytes = true) : v.inCodePoints = v :=
  mapKeys_of_avoids (fun _ => StringUnit.inCodePoints_eq_self) v h

@[simp] theorem inCodePoints_null : inCodePoints .null = .null := rfl

@[simp] theorem inCodePoints_int32 (n : Int32) : inCodePoints (.int32 n) = .int32 n := rfl

@[simp] theorem inCodePoints_int64 (n : Int64) : inCodePoints (.int64 n) = .int64 n := rfl

@[simp] theorem inCodePoints_double (x : Binary64) : inCodePoints (.double x) = .double x := rfl

@[simp] theorem inCodePoints_string (s : String) : inCodePoints (.string s) = .string s := rfl

@[simp] theorem inCodePoints_array (items : List Value) :
    inCodePoints (.array items) = .array (items.map inCodePoints) := by
  rw [inCodePoints, mapKeys, mapItemKeys_eq_map]
  rfl

@[simp] theorem inCodePoints_document (fields : Document) :
    inCodePoints (.document fields) =
      .document (fields.map fun (k, v) => (StringUnit.inCodePoints k, v.inCodePoints)) := by
  rw [inCodePoints, mapKeys]
  congr 1
  induction fields with
  | nil => rfl
  | cons e rest ih =>
    rw [mapFieldKeys, ih]
    rfl

theorem inCodePoints_op (h : countsBytes name = false) :
    (op name v).inCodePoints = op name v.inCodePoints := by
  simp [op, single, StringUnit.inCodePoints_eq_self h]

theorem inCodePoints_opAll (h : countsBytes name = false) (vs : List Value) :
    (opAll name vs).inCodePoints = opAll name (vs.map inCodePoints) := by
  simp [opAll, single, StringUnit.inCodePoints_eq_self h]

theorem inCodePoints_index (vs : List Value) :
    (opAll (StringUnit.indexOperator .bytes) vs).inCodePoints =
      opAll (StringUnit.indexOperator .codePoints) (vs.map inCodePoints) := by
  simp [opAll, single, StringUnit.indexOperator, StringUnit.inCodePoints]

theorem inCodePoints_substring (vs : List Value) :
    (opAll (StringUnit.substringOperator .bytes) vs).inCodePoints =
      opAll (StringUnit.substringOperator .codePoints) (vs.map inCodePoints) := by
  simp [opAll, single, StringUnit.substringOperator, StringUnit.inCodePoints]

theorem inCodePoints_length (v : Value) :
    (op (StringUnit.lengthOperator .bytes) v).inCodePoints =
      op (StringUnit.lengthOperator .codePoints) v.inCodePoints := by
  simp [op, single, StringUnit.lengthOperator, StringUnit.inCodePoints]

end Value

/-! ## Names that a selector brings into a stage -/

open StringUnit (countsBytes)

/-- Name that a fold gives its result, for a function of it. -/
def Expr.resultName? : Expr → Option String
  | .call _ "Aggregate" [_, _, result] => result.asUnaryLambda?.map fun (p, _) => p.name
  | _ => none

namespace Mapping

variable (m : Mapping)

/-- Whether a side of a comparison is written without an operator that counts bytes, if it is a
constant. -/
def writesNoByteCount (side other : Expr) : Bool :=
  match side.asLiteral? with
  | none => true
  | some l =>
    match m.comparedConstant l other with
    | .ok v => v.avoids countsBytes
    | .error _ => true

/-- Whether no member of a new object is stored under the name of an operator that counts bytes. -/
def storesNoByteCount (typeName : Option String) (members : List (String × Expr)) : Bool :=
  members.all fun (name, _) =>
    match m.outputElement typeName name with
    | .ok element => !countsBytes element
    | .error _ => true

/-- Whether a node brings no name of an operator that counts bytes into a stage as a key: by a
constant, as it is or in the form that it is compared in; by a member of an object or its element;
or by the parameter for the result of a fold. -/
def bringsNoByteCount (e : Expr) : Bool :=
  let node := e.receiverForm?.getD e
  node.nodeAvoids countsBytes &&
  (node.comparedSides?.all fun (a, b) => m.writesNoByteCount a b && m.writesNoByteCount b a) &&
  (node.resultName?.all fun name => !countsBytes name) &&
  match node with
  | .object typeName members => m.storesNoByteCount typeName members
  | _ => true

/-- An expression smaller than `n` none of whose nodes brings in such a name. -/
structure Countable (n : Nat) (e : Expr) : Prop where
  size : e.size < n
  names : e.every m.bringsNoByteCount = true

end Mapping

/-- No parameter stands for an expression with an operator that counts bytes. -/
def Scope.CountsNoBytes (s : Scope) : Prop :=
  ∀ frame ∈ s.frames, ∀ b ∈ frame.bindings, ∀ v, b.2 = .computed v → v.avoids countsBytes = true

theorem Scope.CountsNoBytes.push {s : Scope} {frame : Frame} (hs : s.CountsNoBytes)
    (hf : ∀ b ∈ frame.bindings, ∀ v, b.2 = .computed v → v.avoids countsBytes = true) :
    (s.push frame).CountsNoBytes := by
  intro f hmem
  rcases List.mem_cons.1 hmem with rfl | hmem
  · exact hf
  · exact hs f hmem

theorem Scope.countsNoBytes_root (param : String) : (Scope.root param).CountsNoBytes := by
  intro f hf b hb v hv
  cases List.mem_singleton.1 hf
  cases List.mem_singleton.1 hb
  cases hv

theorem Scope.CountsNoBytes.resolve {s : Scope} (hs : s.CountsNoBytes) (param : String)
    (node : Expr) :
    Post (fun b => ∀ v, b = .computed v → v.avoids countsBytes = true) (fun _ => True)
      (s.resolve param node) := by
  unfold Scope.resolve Scope.classify
  cases hframes : s.frames with
  | nil => trivial
  | cons inner outer =>
    cases hb : inner.binding? param with
    | none => by_cases ho : outer.any fun f => (f.binding? param).isSome <;> simp [hb, ho]
    | some b =>
      obtain ⟨entry, hentry, rfl⟩ := Option.map_eq_some_iff.1 hb
      simp only [hb]
      exact hs inner (by simp [hframes]) entry (List.mem_of_find?_eq_some hentry)

namespace Mapping

variable {m : Mapping} {n : Nat}

/-- A reference reads a field or a variable, or has the keys of what a parameter stands for. -/
theorem avoids_reference? (node : Expr) {s : Scope} (hs : s.CountsNoBytes) :
    Post (fun r => ∀ v ∈ r, v.avoids countsBytes = true) (fun _ => True) (m.reference? node s) := by
  unfold reference?
  by_cases hn : node.isReference
  · simp only [hn, Bool.not_true, Bool.false_eq_true, if_false]
    refine Post.bind (Post.of_total _) fun r _ => ?_
    cases r with
    | none => simp
    | some f =>
      by_cases hp : f.positional
      · simp [hp]
      · simp only [hp, Bool.false_eq_true, if_false]
        refine Post.bind (hs.resolve f.param node) fun b hb => ?_
        rcases b with base | name | v | _ | _
        · simp [Value.avoids]
        · simp [Value.avoids]
        · have hv := hb v rfl
          by_cases hpath : f.path.isEmpty
          · simp [hpath, hv]
          · simp [hpath, hv, fieldOf, op, Value.single, Value.avoids, Value.fieldsAvoid, itemName,
              countsBytes]
        · trivial
        · trivial
  · simp [hn]

theorem nodeAvoids_of_bringsNo {e : Expr} (h : m.bringsNoByteCount e = true) :
    e.nodeAvoids countsBytes = true := by
  cases hr : e.receiverForm? with
  | none =>
    simp only [bringsNoByteCount, hr, Option.getD_none, Bool.and_eq_true] at h
    exact h.1.1.1
  | some call =>
    -- Only calls have a receiver form, and a call brings in no value of its own.
    cases e <;> first | rfl | cases hr

theorem countable_of_skipped? {source count : Expr} {e : Expr} (he : m.Countable n e)
    (h : skipped? e = some (source, count)) : m.Countable n source ∧ m.Countable n count := by
  have hsize := size_lt_of_skipped? h
  have hnames := Expr.every_strip he.names
  unfold skipped? at h
  split at h
  · rename_i hstrip
    cases h
    simp only [hstrip, Expr.every, Expr.everyOf, Bool.and_eq_true] at hnames
    exact ⟨⟨Nat.lt_trans hsize.1 he.size, hnames.1.2⟩, ⟨Nat.lt_trans hsize.2 he.size, hnames.2.1⟩⟩
  · cases h

/-! ## Rules -/

theorem map_inCodePoints {x : Result Value}
    (hx : Post (fun v => v.avoids countsBytes = true) (fun _ => True) x) :
    Value.inCodePoints <$> x = x := by
  cases x with
  | ok v => exact congrArg Except.ok (Value.inCodePoints_eq_self hx)
  | error e => rfl

@[simp] theorem map_error (g : Value → Value) (e : Error) :
    g <$> (.error e : Result Value) = .error e := rfl

@[simp] theorem map_ok (g : Value → Value) (v : Value) :
    g <$> (.ok v : Result Value) = .ok (g v) := rfl

theorem map_op {name : String} (h : countsBytes name = false) (x : Result Value) :
    Value.inCodePoints <$> op name <$> x = op name <$> Value.inCodePoints <$> x := by
  simp only [Functor.map_map, Value.inCodePoints_op h]

theorem map_opAll {name : String} (h : countsBytes name = false) (x : Result (List Value)) :
    Value.inCodePoints <$> opAll name <$> x = opAll name <$> List.map Value.inCodePoints <$> x := by
  simp only [Functor.map_map, Value.inCodePoints_opAll h]

@[simp] theorem schema_counting (m : Mapping) (unit : StringUnit) :
    (m.counting unit).schema = m.schema := by rw [counting]

@[simp] theorem stringUnit_counting (m : Mapping) (unit : StringUnit) :
    (m.counting unit).options.stringUnit = unit := by rw [counting]

/-- `sub'` gives in code points what `sub` gives in bytes, for expressions smaller than `n`. -/
def Recounts (m : Mapping) (n : Nat) (sub sub' : Expr → Scope → Result Value) : Prop :=
  ∀ e s, m.Countable n e → s.CountsNoBytes → sub' e s = Value.inCodePoints <$> sub e s

section Node

variable {sub sub' : Expr → Scope → Result Value} {s : Scope} {node target : Expr}

theorem recounts_compared (h : m.Recounts n sub sub') (hs : s.CountsNoBytes) {side other : Expr}
    (hside : m.Countable n side) (hw : m.writesNoByteCount side other = true) :
    (m.counting .codePoints).compared sub' side other s =
      Value.inCodePoints <$> (m.counting .bytes).compared sub side other s := by
  unfold compared
  unfold writesNoByteCount at hw
  cases hl : side.asLiteral? with
  | none => exact h side s hside hs
  | some l =>
    have hpost : Post (fun v => v.avoids countsBytes = true) (fun _ => True)
        (m.comparedConstant l other) := by
      cases hc : m.comparedConstant l other with
      | ok v => simpa [hl, hc] using hw
      | error e => trivial
    exact (map_inCodePoints hpost).symm

theorem recounts_comparedPair (h : m.Recounts n sub sub') (hs : s.CountsNoBytes) {a b : Expr}
    (ha : m.Countable n a) (hb : m.Countable n b)
    (hw : m.writesNoByteCount a b = true ∧ m.writesNoByteCount b a = true) :
    (m.counting .codePoints).comparedPair sub' a b s =
      List.map Value.inCodePoints <$> (m.counting .bytes).comparedPair sub a b s := by
  simp only [comparedPair, recounts_compared h hs ha hw.1, recounts_compared h hs hb hw.2,
    bind_map_left, map_bind, map_pure, List.map_cons, List.map_nil]

theorem recounts_datePart (h : m.Recounts n sub sub') (hs : s.CountsNoBytes) {date : Expr}
    (hd : m.Countable n date) (name : String) :
    datePart sub' node date name s = Value.inCodePoints <$> datePart sub node date name s := by
  unfold datePart
  split
  · rfl
  · rename_i part _
    have hpart : countsBytes part.operator = false := by cases part <;> rfl
    simp only [h date s hd hs, bind_map_left, map_bind, map_pure]
    by_cases hday : part = .dayOfWeek
    · simp (disch := decide) [hday, Value.inCodePoints_op, Value.inCodePoints_opAll]
    · simp [hday, Value.inCodePoints_op hpart]

theorem avoids_endMember? (element : String) :
    Post (fun r => ∀ v ∈ r, v.avoids countsBytes = true) (fun _ => True)
      (m.endMember? target element s) := by
  unfold endMember?
  split
  · split
    · simp
    · refine Post.bind (Post.of_total _) fun r _ => ?_
      split
      · simp [opAll, Value.single, Value.avoids, Value.fieldsAvoid, Value.itemsAvoid, countsBytes]
      · simp
  · simp

/-- What is found without counting is the same, and so is the rest after it. -/
theorem recounts_found {x : Result (Option Value)} {rest rest' : Result Value}
    (hx : Post (fun r => ∀ v ∈ r, v.avoids countsBytes = true) (fun _ => True) x)
    (hrest : rest' = Value.inCodePoints <$> rest) :
    (do match ← x with | some v => pure v | none => rest') =
      Value.inCodePoints <$> (do match ← x with | some v => pure v | none => rest) := by
  cases x with
  | error e => rfl
  | ok r =>
    cases r with
    | none => exact hrest
    | some v => exact congrArg Except.ok (Value.inCodePoints_eq_self (hx v rfl)).symm

theorem inCodePoints_fieldOf (v : Value) (path : List String) :
    (fieldOf v path).inCodePoints = fieldOf v.inCodePoints path := by
  simp (disch := decide) [fieldOf, Value.inCodePoints_op, Value.single, itemName,
    StringUnit.inCodePoints]

theorem recounts_storedMember (node : Expr) (h : m.Recounts n sub sub') (hs : s.CountsNoBytes)
    (ht : m.Countable n target) (name : String) :
    (m.counting .codePoints).storedMember sub' node target name s =
      Value.inCodePoints <$> (m.counting .bytes).storedMember sub node target name s := by
  unfold storedMember
  rw [map_bind]
  refine bind_congr fun r => ?_
  cases r with
  | none => rfl
  | some stored =>
    refine recounts_found (x := m.endMember? target stored.element s) (avoids_endMember? _) ?_
    simp only [h target s ht hs, bind_map_left, map_bind, map_pure, inCodePoints_fieldOf]

theorem recounts_memberOperand (h : m.Recounts n sub sub') (hs : s.CountsNoBytes)
    (ht : m.Countable n target) (name : String) :
    (m.counting .codePoints).memberOperand sub' node target name s =
      Value.inCodePoints <$> (m.counting .bytes).memberOperand sub node target name s := by
  have hstored := recounts_storedMember node h hs ht name
  unfold memberOperand
  simp only [schema_counting, stringUnit_counting]
  split
  · exact h target s ht hs
  · split
    · simp (disch := decide) only [h target s ht hs, bind_map_left, map_bind, map_pure,
        Value.inCodePoints_opAll, List.map_cons, List.map_nil, Value.inCodePoints_null]
    · split
      · exact recounts_datePart h hs ht name
      · split
        · simp only [h target s ht hs, Functor.map_map, Value.inCodePoints_length]
        · exact hstored
      · split
        · rw [h target s ht hs, map_op rfl]
        · exact hstored
      · exact hstored

theorem recounts_itemAt (h : m.Recounts n sub sub') (hs : s.CountsNoBytes) {position : Expr}
    (ht : m.Countable n target) (hp : m.Countable n position) :
    (m.counting .codePoints).itemAt sub' node target position s =
      Value.inCodePoints <$> (m.counting .bytes).itemAt sub node target position s := by
  unfold itemAt
  simp only [schema_counting]
  split
  · simp (disch := decide) only [h target s ht hs, h position s hp hs, bind_map_left, map_bind,
      map_pure, Value.inCodePoints_opAll, List.map_cons, List.map_nil]
  · rfl

/-! ### Strings -/

theorem recounts_trimCall (side : TrimSide) (text : Value) (args : List Expr) :
    trimCall node side text.inCodePoints args =
      Value.inCodePoints <$> trimCall node side text args := by
  have hside : countsBytes side.operator = false := by cases side <;> rfl
  unfold trimCall
  split
  · simp [Value.inCodePoints_op hside, StringUnit.inCodePoints]
  · split
    · simp [Value.inCodePoints_op hside, StringUnit.inCodePoints]
    · rfl
  · rfl

theorem recounts_indexOfCall (h : m.Recounts n sub sub') (hs : s.CountsNoBytes) (text : Value)
    {args : List Expr} (ha : ∀ a ∈ args, m.Countable n a) :
    (m.counting .codePoints).indexOfCall sub' node text.inCodePoints args s =
      Value.inCodePoints <$> (m.counting .bytes).indexOfCall sub node text args s := by
  unfold indexOfCall
  simp only [stringUnit_counting]
  split
  · rename_i value
    simp only [h value s (ha _ (by simp)) hs, bind_map_left, map_bind, map_pure,
      Value.inCodePoints_index, List.map_cons, List.map_nil]
  · rename_i value start
    simp only [h value s (ha _ (by simp)) hs, h start s (ha _ (by simp)) hs, bind_map_left,
      map_bind, map_pure, Value.inCodePoints_index, List.map_cons, List.map_nil]
  · rename_i value start count
    simp (disch := decide) only [h value s (ha _ (by simp)) hs, h start s (ha _ (by simp)) hs,
      h count s (ha _ (by simp)) hs, bind_map_left, map_bind, map_pure, Value.inCodePoints_index,
      Value.inCodePoints_opAll, List.map_cons, List.map_nil]
  · rfl

theorem recounts_substringCall (h : m.Recounts n sub sub') (hs : s.CountsNoBytes) (text : Value)
    {args : List Expr} (ha : ∀ a ∈ args, m.Countable n a) :
    (m.counting .codePoints).substringCall sub' node text.inCodePoints args s =
      Value.inCodePoints <$> (m.counting .bytes).substringCall sub node text args s := by
  unfold substringCall
  simp only [stringUnit_counting]
  split
  · rename_i start
    simp (disch := decide) only [h start s (ha _ (by simp)) hs, bind_map_left, map_bind, map_pure,
      Value.inCodePoints_substring, Value.inCodePoints_length, Value.inCodePoints_opAll,
      List.map_cons, List.map_nil]
  · rename_i start length
    simp only [h start s (ha _ (by simp)) hs, h length s (ha _ (by simp)) hs, bind_map_left,
      map_bind, map_pure, Value.inCodePoints_substring, List.map_cons, List.map_nil]
  · rfl

theorem recounts_foundCall (h : m.Recounts n sub sub') (hs : s.CountsNoBytes) {test : String}
    (htest : countsBytes test = false) (text : Value) {value : Expr} (hv : m.Countable n value) :
    (m.counting .codePoints).foundCall sub' test text.inCodePoints value s =
      Value.inCodePoints <$> (m.counting .bytes).foundCall sub test text value s := by
  simp only [foundCall, stringUnit_counting, h value s hv hs, bind_map_left, map_bind, map_pure,
    Value.inCodePoints_opAll htest, Value.inCodePoints_index, List.map_cons, List.map_nil,
    Value.inCodePoints_int32]

theorem recounts_stringCall (h : m.Recounts n sub sub') (hs : s.CountsNoBytes)
    (ht : m.Countable n target) (method : String) {args : List Expr}
    (ha : ∀ a ∈ args, m.Countable n a) :
    (m.counting .codePoints).stringCall sub' node target method args s =
      Value.inCodePoints <$> (m.counting .bytes).stringCall sub node target method args s := by
  unfold stringCall
  rw [h target s ht hs, bind_map_left, map_bind]
  refine bind_congr fun text => ?_
  split
  · rename_i letterCase _
    have hcase : countsBytes letterCase.operator = false := by cases letterCase <;> rfl
    split
    · simp only [map_pure, Value.inCodePoints_op hcase]
    · rfl
  · exact recounts_trimCall _ text args
  · split
    · exact recounts_substringCall h hs text ha
    · exact recounts_indexOfCall h hs text ha
    · exact recounts_foundCall h hs rfl text (ha _ (by simp))
    · exact recounts_foundCall h hs rfl text (ha _ (by simp))
    · split
      · simp (disch := decide) only [map_pure, Value.inCodePoints_opAll, List.map_cons,
          List.map_nil, Value.inCodePoints_string]
      · rfl
    · rfl

theorem recounts_stringEqualsCall (h : m.Recounts n sub sub') (hs : s.CountsNoBytes)
    {a b : Expr} (comparison : Expr) (ha : m.Countable n a) (hb : m.Countable n b)
    (hw : m.writesNoByteCount a b = true ∧ m.writesNoByteCount b a = true) :
    (m.counting .codePoints).stringEqualsCall sub' node a b comparison s =
      Value.inCodePoints <$> (m.counting .bytes).stringEqualsCall sub node a b comparison s := by
  unfold stringEqualsCall
  split
  · rfl
  · rw [recounts_comparedPair h hs ha hb hw, map_opAll rfl]
  · simp (disch := decide) only [recounts_comparedPair h hs ha hb hw, bind_map_left, map_bind,
      map_pure, Value.inCodePoints_opAll, List.map_cons, List.map_nil, Value.inCodePoints_int32]

/-! ### Dates -/

theorem inCodePoints_offset (unit : TimeUnit) (amount : Binary64) :
    (offset unit amount).inCodePoints = offset unit amount := by
  unfold offset
  dsimp only
  split
  · exact Value.inCodePoints_opAll rfl _
  · rfl

theorem recounts_dateCall (h : m.Recounts n sub sub') (hs : s.CountsNoBytes)
    (ht : m.Countable n target) (method : String) {args : List Expr}
    (ha : ∀ a ∈ args, m.Countable n a) :
    dateCall sub' node target method args s =
      Value.inCodePoints <$> dateCall sub node target method args s := by
  unfold dateCall
  split
  · rename_i arg
    have harg := h arg s (ha _ (by simp)) hs
    split
    · rw [h target s ht hs, bind_map_left, map_bind]
      refine bind_congr fun date => ?_
      split
      · simp (disch := decide) only [pure_bind, map_pure, Value.inCodePoints_opAll,
          List.map_cons, List.map_nil, inCodePoints_offset]
      · simp (disch := decide) only [harg, bind_map_left, pure_bind, map_bind, map_pure,
          Value.inCodePoints_opAll, List.map_cons, List.map_nil,
          Value.inCodePoints_int64]
    · split
      · simp (disch := decide) only [harg, h target s ht hs, bind_map_left, map_bind, map_pure,
          Value.inCodePoints_op, Value.inCodePoints_document]
        rfl
      · rfl
  · rfl

/-! ### Arrays -/

theorem countsNoBytes_push_variable (hs : s.CountsNoBytes) (param name : String) :
    (s.push (.of param (.variable name))).CountsNoBytes := by
  refine hs.push fun b hb v hv => ?_
  cases List.mem_singleton.1 hb
  cases hv

theorem recounts_lambdaBody (h : m.Recounts n sub sub') (hs : s.CountsNoBytes) {lambda : Expr}
    (hl : m.Countable n lambda) :
    lambdaBody sub' node lambda s =
      Prod.map id Value.inCodePoints <$> lambdaBody sub node lambda s := by
  unfold lambdaBody
  split
  · rfl
  · rename_i param body he
    have hb : m.Countable n body :=
      ⟨Nat.lt_trans (Expr.size_lt_of_asUnaryLambda? he) hl.size,
        Expr.every_of_asUnaryLambda? hl.names he⟩
    simp only [h body _ hb (countsNoBytes_push_variable hs _ _), bind_map_left, map_bind, map_pure,
      Prod.map_apply, id_eq]

theorem recounts_mapItems (node : Expr) (h : m.Recounts n sub sub') (hs : s.CountsNoBytes)
    (input : Value) {selector : Expr} (hsel : m.Countable n selector) :
    mapItems sub' node input.inCodePoints selector s =
      Value.inCodePoints <$> mapItems sub node input selector s := by
  unfold mapItems
  rw [recounts_lambdaBody h hs hsel, bind_map_left, map_bind]
  refine bind_congr fun named => ?_
  simp (disch := decide) [Value.inCodePoints_op, StringUnit.inCodePoints]

theorem recounts_filterItems (node : Expr) (h : m.Recounts n sub sub') (hs : s.CountsNoBytes)
    (input : Value) {predicate : Expr} (hp : m.Countable n predicate) :
    filterItems sub' node input.inCodePoints predicate s =
      Value.inCodePoints <$> filterItems sub node input predicate s := by
  unfold filterItems
  rw [recounts_lambdaBody h hs hp, bind_map_left, map_bind]
  refine bind_congr fun named => ?_
  simp (disch := decide) [Value.inCodePoints_op, StringUnit.inCodePoints]

/-- The mark of a type is a string. -/
theorem inCodePoints_discriminator (schema : Schema) (nominal actual : String) :
    Post (fun o => ∀ mark ∈ o, mark.inCodePoints = mark) (fun _ => True)
      (schema.discriminator nominal actual) := by
  unfold Schema.discriminator
  split
  · simp
  · split
    · simp
    · trivial

theorem recounts_itemsOfType (array : Value) (typeArg : Expr) :
    (m.counting .codePoints).itemsOfType node target array.inCodePoints typeArg =
      Value.inCodePoints <$> (m.counting .bytes).itemsOfType node target array typeArg := by
  unfold itemsOfType
  simp only [schema_counting]
  split
  · rename_i actual nominal _ _
    have hmark := inCodePoints_discriminator m.schema nominal actual
    cases hd : m.schema.discriminator nominal actual with
    | error e => rfl
    | ok o =>
      cases o with
      | none => rfl
      | some mark =>
        have hmark : mark.inCodePoints = mark := hmark.of_ok hd mark rfl
        refine congrArg Except.ok ?_
        simp (disch := decide) [Value.inCodePoints_op, Value.inCodePoints_opAll, hmark,
          StringUnit.inCodePoints, itemName]
        rfl
  · rfl

theorem inCodePoints_zeroOf (t : ValueType) : (zeroOf t).inCodePoints = zeroOf t := by
  unfold zeroOf
  split <;> rfl

theorem recounts_foldSeed (h : m.Recounts n sub sub') (hs : s.CountsNoBytes) {source : Expr}
    {seed : Option Expr} (hseed : ∀ e ∈ seed, m.Countable n e) :
    (m.counting .codePoints).foldSeed sub' source seed s =
      Value.inCodePoints <$> (m.counting .bytes).foldSeed sub source seed s := by
  cases seed with
  | none => exact congrArg Except.ok (inCodePoints_zeroOf _).symm
  | some seed => exact h seed s (hseed seed rfl) hs

/-- The parameter for the result is a key of its own. -/
theorem recounts_foldResult (h : m.Recounts n sub sub') (hs : s.CountsNoBytes) (reduced : Value)
    {result : Option Expr} (hresult : ∀ e ∈ result, m.Countable n e)
    (hname : ∀ e ∈ result, ∀ p body, e.asUnaryLambda? = some (p, body) →
      countsBytes p.name = false) :
    foldResult sub' node reduced.inCodePoints result s =
      Value.inCodePoints <$> foldResult sub node reduced result s := by
  cases result with
  | none => rfl
  | some result =>
    cases hl : result.asUnaryLambda? with
    | none => simp only [foldResult, lambdaBody, hl]; rfl
    | some lambda =>
      obtain ⟨p, body⟩ := lambda
      have hp := StringUnit.inCodePoints_eq_self (hname result rfl p body hl)
      simp only [foldResult, recounts_lambdaBody h hs (hresult result rfl), bind_map_left, map_bind]
      simp only [lambdaBody, hl, bind_assoc, pure_bind]
      refine bind_congr fun v => ?_
      simp (disch := decide) [Value.inCodePoints_op, Value.single, hp]
      rfl

theorem recounts_foldItems (h : m.Recounts n sub sub') (hs : s.CountsNoBytes) {source step : Expr}
    (array : Value) {seed result : Option Expr} (hstep : m.Countable n step)
    (hseed : ∀ e ∈ seed, m.Countable n e) (hresult : ∀ e ∈ result, m.Countable n e)
    (hname : ∀ e ∈ result, ∀ p body, e.asUnaryLambda? = some (p, body) →
      countsBytes p.name = false) :
    (m.counting .codePoints).foldItems sub' node source array.inCodePoints seed step result s =
      Value.inCodePoints <$>
        (m.counting .bytes).foldItems sub node source array seed step result s := by
  unfold foldItems
  split
  · rename_i accumulator item body he
    have hb : m.Countable n body :=
      ⟨Nat.lt_trans (Expr.size_lt_of_asLambda? he) hstep.size,
        Expr.every_of_asLambda? hstep.names he⟩
    have hframe : (s.push ((Frame.of accumulator.name (.variable "value")).bind item.name
        (.variable "this"))).CountsNoBytes := by
      refine hs.push fun b hb v hv => ?_
      rcases List.mem_cons.1 hb with rfl | hb
      · cases hv
      · cases List.mem_singleton.1 hb
        cases hv
    simp only [recounts_foldSeed h hs hseed, h body _ hb hframe, bind_map_left, map_bind]
    refine bind_congr fun initial => bind_congr fun body => ?_
    rw [← recounts_foldResult h hs _ hresult hname]
    congr 1
  · rfl

/-- A part of a pair counts nothing. -/
theorem recounts_zipItems (h : m.Recounts n sub sub') (hs : s.CountsNoBytes) (first : Value)
    {second selector : Expr} (h₂ : m.Countable n second) (hsel : m.Countable n selector) :
    zipItems sub' node first.inCodePoints second selector s =
      Value.inCodePoints <$> zipItems sub node first second selector s := by
  unfold zipItems
  split
  · rename_i left right body he
    have hb : m.Countable n body :=
      ⟨Nat.lt_trans (Expr.size_lt_of_asLambda? he) hsel.size,
        Expr.every_of_asLambda? hsel.names he⟩
    have hpart (pair : String) (i : Int32) :
        (opAll "$arrayElemAt" [.string (variableRef pair []), .int32 i]).avoids countsBytes =
          true := by
      simp [opAll, Value.single, Value.avoids, Value.fieldsAvoid, Value.itemsAvoid, countsBytes]
    dsimp only
    rw [h body _ hb (hs.push ?_), bind_map_left, map_bind]
    · refine bind_congr fun v => ?_
      simp (disch := decide) [h second s h₂ hs, Value.inCodePoints_op, StringUnit.inCodePoints,
        Value.single]
    · intro b hb v hv
      rcases List.mem_cons.1 hb with rfl | hb
      · cases hv
        exact hpart _ 1
      · cases List.mem_singleton.1 hb
        cases hv
        exact hpart _ 0
  · rfl

theorem recounts_reducedValues (h : m.Recounts n sub sub') (hs : s.CountsNoBytes)
    (ht : m.Countable n target) {args : List Expr} (ha : ∀ a ∈ args, m.Countable n a) :
    (m.counting .codePoints).reducedValues sub' node target args s =
      Value.inCodePoints <$> (m.counting .bytes).reducedValues sub node target args s := by
  unfold reducedValues
  split
  · exact h target s ht hs
  · rename_i selector
    refine recounts_found (x := m.reference? (.call target "Select" [selector]) s)
      (avoids_reference? _ hs) ?_
    rw [h target s ht hs, bind_map_left, map_bind]
    exact bind_congr fun input => recounts_mapItems _ h hs input (ha _ (by simp))
  · rfl

theorem recounts_arrayCallNoArg (method : String) (array : Value) :
    arrayCallNoArg node method array.inCodePoints =
      Value.inCodePoints <$> arrayCallNoArg node method array := by
  unfold arrayCallNoArg
  split
  · simp (disch := decide) [Value.inCodePoints_opAll]
  · split <;> simp (disch := decide) [Value.inCodePoints_op, Value.inCodePoints_opAll]

theorem recounts_arrayCallOneArg (h : m.Recounts n sub sub') (hs : s.CountsNoBytes)
    (method : String) (array : Value) {arg : Expr} (ha : m.Countable n arg) :
    (m.counting .codePoints).arrayCallOneArg sub' node target method array.inCodePoints arg s =
      Value.inCodePoints <$>
        (m.counting .bytes).arrayCallOneArg sub node target method array arg s := by
  have hfilter := recounts_filterItems node h hs array ha
  have hmap := recounts_mapItems node h hs array ha
  have harg := h arg s ha hs
  unfold arrayCallOneArg
  split
  · simp (disch := decide) only [hfilter, bind_map_left, map_bind, map_pure,
      Value.inCodePoints_opAll, List.map_cons, List.map_nil, Value.inCodePoints_int32]
  · rename_i operation _ _
    have hoperation : countsBytes operation.operator = false := by cases operation <;> rfl
    simp only [harg, bind_map_left, map_bind, map_pure, Value.inCodePoints_opAll hoperation,
      List.map_cons, List.map_nil]
  · split
    case h_1 => rw [hfilter, map_op rfl]
    case h_2 => rw [hfilter, map_op rfl]
    case h_12 => exact hfilter
    case h_13 => exact hmap
    case h_14 => exact recounts_itemsOfType array arg
    case h_15 => exact recounts_foldItems h hs array ha (by simp) (by simp) (by simp)
    case h_16 => rfl
    -- What is left puts the argument, or what it makes of the items, under an operator.
    all_goals
      simp (disch := decide) only [harg, hmap, bind_map_left, map_bind, map_pure,
        Value.inCodePoints_opAll, Value.inCodePoints_op, Value.inCodePoints_document,
        Value.inCodePoints_string, Value.inCodePoints_int32, List.map_cons, List.map_nil,
        StringUnit.inCodePoints_eq_self]

theorem recounts_arrayCall (h : m.Recounts n sub sub') (hs : s.CountsNoBytes)
    (ht : m.Countable n target) (method : String) {args : List Expr}
    (ha : ∀ a ∈ args, m.Countable n a)
    (hname : ∀ name ∈ (Expr.call target method args).resultName?, countsBytes name = false) :
    (m.counting .codePoints).arrayCall sub' node target method args s =
      Value.inCodePoints <$> (m.counting .bytes).arrayCall sub node target method args s := by
  unfold arrayCall
  split
  · rename_i reducer _
    have hreducer : countsBytes reducer.operator = false := by cases reducer <;> rfl
    rw [recounts_reducedValues h hs ht ha, map_op hreducer]
  · split
    · rw [h target s ht hs, bind_map_left, map_bind]
      exact bind_congr fun array => recounts_arrayCallNoArg method array
    · rename_i arg
      have harg : m.Countable n arg := ha _ (by simp)
      split
      · rename_i source skip hskip
        have hk : skipped? target = some (source, skip) := by
          split at hskip
          · exact hskip
          · cases hskip
        have hparts := countable_of_skipped? ht hk
        simp (disch := decide) only [h source s hparts.1 hs, h skip s hparts.2 hs, h arg s harg hs,
          bind_map_left, map_bind, map_pure, Value.inCodePoints_opAll, List.map_cons, List.map_nil]
      · rw [h target s ht hs, bind_map_left, map_bind]
        exact bind_congr fun array => recounts_arrayCallOneArg h hs method array harg
    · rename_i a b
      have ha₁ : m.Countable n a := ha _ (by simp)
      have hb₁ : m.Countable n b := ha _ (by simp)
      rw [h target s ht hs, bind_map_left, map_bind]
      refine bind_congr fun array => ?_
      split
      · exact recounts_foldItems h hs array hb₁ (by simpa using ha₁) (by simp) (by simp)
      · exact recounts_zipItems h hs array ha₁ hb₁
      · rfl
    · rename_i a b c
      have ha₁ : m.Countable n a := ha _ (by simp)
      have hb₁ : m.Countable n b := ha _ (by simp)
      have hc₁ : m.Countable n c := ha _ (by simp)
      rw [h target s ht hs, bind_map_left, map_bind]
      refine bind_congr fun array => ?_
      split
      · rename_i hmethod
        subst hmethod
        refine recounts_foldItems h hs array hb₁ (by simpa using ha₁) (by simpa using hc₁) ?_
        intro e he p body hp
        cases he
        exact hname p.name (by simp [Expr.resultName?, hp])
      · rfl
    · rw [h target s ht hs, bind_map_left, map_bind]
      rfl

/-! ### Calls -/

theorem recounts_callOperand (h : m.Recounts n sub sub') (hs : s.CountsNoBytes)
    (ht : m.Countable n target) (method : String) {args : List Expr}
    (ha : ∀ a ∈ args, m.Countable n a)
    (hsides : ∀ a b, (Expr.call target method args).comparedSides? = some (a, b) →
      m.writesNoByteCount a b = true ∧ m.writesNoByteCount b a = true)
    (hname : ∀ name ∈ (Expr.call target method args).resultName?, countsBytes name = false) :
    (m.counting .codePoints).callOperand sub' node target method args s =
      Value.inCodePoints <$> (m.counting .bytes).callOperand sub node target method args s := by
  unfold callOperand
  simp only [schema_counting]
  split
  · rename_i other
    simp (disch := decide) only [h target s ht hs, h other s (ha _ (by simp)) hs, bind_map_left,
      map_bind, map_pure, Value.inCodePoints_opAll, List.map_cons, List.map_nil]
  · rename_i other
    rw [recounts_comparedPair h hs ht (ha _ (by simp)) (hsides _ _ rfl), map_opAll rfl]
  · exact recounts_stringEqualsCall h hs _ ht (ha _ (by simp)) (hsides _ _ rfl)
  · split
    · rename_i values hvalues
      split
      · rename_i item _ _ _
        have havoids := Expr.avoids_known? (fun _ => nodeAvoids_of_bringsNo) ht.names hvalues
        have hknown : values.value.inCodePoints = values.value :=
          Value.inCodePoints_eq_self havoids
        simp (disch := decide) only [h item s (ha _ (by simp)) hs, bind_map_left, map_bind,
          map_pure, Value.inCodePoints_opAll, Value.inCodePoints_op, List.map_cons, List.map_nil,
          hknown]
      · rfl
    · split
      · exact recounts_stringCall h hs ht method ha
      · exact recounts_dateCall h hs ht method ha
      · exact recounts_arrayCall h hs ht method ha hname
      · rfl

theorem recounts_mathCall (h : m.Recounts n sub sub') (hs : s.CountsNoBytes) (method : String)
    {args : List Expr} (ha : ∀ a ∈ args, m.Countable n a) :
    mathCall sub' node method args s = Value.inCodePoints <$> mathCall sub node method args s := by
  unfold mathCall
  split
  · rename_i value
    have hvalue := h value s (ha _ (by simp)) hs
    split
    · rename_i rounding _
      have hrounding : countsBytes rounding.operator = false := by cases rounding <;> rfl
      rw [hvalue, map_op hrounding]
    · split
      case h_5 => rfl
      all_goals
        simp (disch := decide) only [hvalue, bind_map_left, map_bind, map_pure,
          Value.inCodePoints_opAll, List.map_cons, List.map_nil]
  · rename_i value second
    have hvalue := h value s (ha _ (by simp)) hs
    have hsecond := h second s (ha _ (by simp)) hs
    split
    · split
      · simp (disch := decide) only [hvalue, pure_bind, bind_map_left, map_bind, map_pure,
          Value.inCodePoints_opAll, List.map_cons, List.map_nil, Value.inCodePoints_double]
      · simp (disch := decide) only [hvalue, hsecond, bind_map_left, map_bind, map_pure,
          Value.inCodePoints_opAll, List.map_cons, List.map_nil]
    · simp (disch := decide) only [hvalue, hsecond, bind_map_left, map_bind, map_pure,
        Value.inCodePoints_opAll, List.map_cons, List.map_nil]
    · rfl
  · rfl

/-- All expressions of a list are translated alike. -/
theorem recounts_mapM (h : m.Recounts n sub sub') (hs : s.CountsNoBytes) {es : List Expr}
    (he : ∀ e ∈ es, m.Countable n e) :
    (es.mapM fun e => sub' e s) = List.map Value.inCodePoints <$> es.mapM fun e => sub e s := by
  induction es with
  | nil => rfl
  | cons e rest ih =>
    simp only [List.mapM_cons, h e s (he _ (by simp)) hs, ih fun e he' => he e (by simp [he']),
      bind_map_left, map_bind, map_pure, List.map_cons]

theorem recounts_staticCallOperand (h : m.Recounts n sub sub') (hs : s.CountsNoBytes)
    (owner method : String) {args : List Expr} (ha : ∀ a ∈ args, m.Countable n a)
    (hsides : ∀ a b, (Expr.staticCall owner method args).comparedSides? = some (a, b) →
      m.writesNoByteCount a b = true ∧ m.writesNoByteCount b a = true) :
    (m.counting .codePoints).staticCallOperand sub' node owner method args s =
      Value.inCodePoints <$>
        (m.counting .bytes).staticCallOperand sub node owner method args s := by
  unfold staticCallOperand
  split
  · exact recounts_mathCall h hs _ ha
  · rename_i start count
    simp (disch := decide) only [h start s (ha _ (by simp)) hs, h count s (ha _ (by simp)) hs,
      bind_map_left, map_bind, map_pure, Value.inCodePoints_opAll, List.map_cons, List.map_nil]
  · rename_i text
    simp (disch := decide) only [h text s (ha _ (by simp)) hs, bind_map_left, map_bind, map_pure,
      Value.inCodePoints_opAll, List.map_cons, List.map_nil, Value.inCodePoints_null,
      Value.inCodePoints_string]
  · simp (disch := decide) only [recounts_mapM h hs ha, bind_map_left, map_bind, map_pure,
      Value.inCodePoints_opAll]
  · rw [recounts_comparedPair h hs (ha _ (by simp)) (ha _ (by simp)) (hsides _ _ rfl),
      map_opAll rfl]
  · rw [recounts_comparedPair h hs (ha _ (by simp)) (ha _ (by simp)) (hsides _ _ rfl),
      map_opAll rfl]
  · exact recounts_stringEqualsCall h hs _ (ha _ (by simp)) (ha _ (by simp)) (hsides _ _ rfl)
  · rfl

/-! ### Expressions -/

/-- Operators that take any number of operands are none of those that count. -/
theorem inCodePoints_eq_iff {name : String} (h : isVariadic name = true) (key : String) :
    StringUnit.inCodePoints key = name ↔ key = name := by
  unfold StringUnit.inCodePoints
  split
  case h_4 => rfl
  all_goals
    constructor
    all_goals
      rintro rfl
      exact absurd h (by decide)

/-- So operands are flattened alike. -/
theorem leftOperands_inCodePoints (name : String) (left : Expr) (v : Value) :
    leftOperands name left v.inCodePoints = (leftOperands name left v).map Value.inCodePoints := by
  unfold leftOperands
  cases left.strip with
  | binary op a b =>
    cases v with
    | document fields =>
      rcases fields with _ | ⟨⟨inner, operands⟩, _ | ⟨e, rest⟩⟩
      · simp
      · by_cases hv : isVariadic name = true
        · by_cases hi : inner = name
          · subst hi
            have hkey : StringUnit.inCodePoints inner = inner :=
              (inCodePoints_eq_iff hv inner).2 rfl
            cases operands with
            | array items => simp [hv, hkey]
            | document fields => simp [hv, hkey]
            | _ =>
              simp only [Value.inCodePoints_document, List.map_cons, List.map_nil, hkey, hv,
                Bool.true_and, decide_true, if_true]
              rfl
          · have hkey := mt (inCodePoints_eq_iff hv inner).1 hi
            simp [hv, hi, hkey]
        · simp [hv]
      · simp
    | array items => simp
    | _ => rfl
  | _ => rfl

theorem recounts_binaryOperand (h : m.Recounts n sub sub') (hs : s.CountsNoBytes)
    (operation : BinaryOp) {left right : Expr} (hl : m.Countable n left)
    (hr : m.Countable n right)
    (hsides : ∀ a b, (Expr.binary operation left right).comparedSides? = some (a, b) →
      m.writesNoByteCount a b = true ∧ m.writesNoByteCount b a = true) :
    (m.counting .codePoints).binaryOperand sub' node operation left right s =
      Value.inCodePoints <$>
        (m.counting .bytes).binaryOperand sub node operation left right s := by
  unfold binaryOperand
  simp only [schema_counting]
  split
  · rfl
  · rename_i name hop
    have hname := StringUnit.countsBytes_binaryOperator? hop
    by_cases hc : operation.isComparison
    · simp only [hc, if_true, recounts_comparedPair h hs hl hr
        (hsides left right (by simp [Expr.comparedSides?, hc])), bind_map_left, map_bind, map_pure,
        Value.inCodePoints_opAll hname]
    · simp only [hc, Bool.false_eq_true, if_false, h left s hl hs, h right s hr hs, bind_map_left,
        map_bind, map_pure, Value.inCodePoints_opAll hname, leftOperands_inCodePoints,
        List.map_append, List.map_cons, List.map_nil]

theorem inCodePoints_constant (v : Value) :
    (constant v).inCodePoints = constant v.inCodePoints := by
  cases v with
  | string s =>
    simp only [constant, Value.inCodePoints_string]
    split
    · exact Value.inCodePoints_op rfl
    · rfl
  | _ => rfl

theorem inCodePoints_stageMember (v : Value) :
    (stageMember v).inCodePoints = stageMember v.inCodePoints := by
  cases v with
  | array items => simp [stageMember]
  | document fields => simp [stageMember]
  | _ => rfl

/-- Elements that a new object has, and that it may have. -/
theorem recounts_objectMembers (h : m.Recounts n sub sub') (hs : s.CountsNoBytes)
    (typeName : Option String) {members : List (String × Expr)}
    (hm : ∀ p ∈ members, m.Countable n p.2) :
    (m.counting .codePoints).objectMembers sub' typeName members s =
      Document.mapValues Value.inCodePoints <$>
        (m.counting .bytes).objectMembers sub typeName members s := by
  unfold objectMembers
  induction members with
  | nil => rfl
  | cons p rest ih =>
    have hp : sub' p.2 s = Value.inCodePoints <$> sub p.2 s := h p.2 s (hm p (by simp)) hs
    have houtput (unit : StringUnit) :
        (m.counting unit).outputElement typeName p.1 = m.outputElement typeName p.1 := rfl
    simp only [List.mapM_cons, hp, houtput, ih fun q hq => hm q (by simp [hq]), bind_map_left,
      map_bind, map_pure, bind_assoc, pure_bind, Document.mapValues, List.map_cons,
      inCodePoints_stageMember]

/-- The elements of a new object are none of the operators that count. -/
theorem keys_objectMembers (sub : Expr → Scope → Result Value) (s : Scope)
    {typeName : Option String} {members : List (String × Expr)}
    (hm : m.storesNoByteCount typeName members = true) :
    Post (fun d => ∀ k ∈ Document.keys d, StringUnit.inCodePoints k = k) (fun _ => True)
      ((m.counting .bytes).objectMembers sub typeName members s) := by
  refine (Post.mapM (Q := fun e => StringUnit.inCodePoints e.1 = e.1) fun p hp => ?_).imp ?_
  · have hp := List.all_eq_true.1 hm p hp
    have houtput : (m.counting .bytes).outputElement typeName p.1 = m.outputElement typeName p.1 :=
      rfl
    simp only [houtput]
    refine Post.bind (Post.self (m.outputElement typeName p.1)) fun element helement => ?_
    refine Post.bind (Post.of_total (sub p.2 s)) fun v _ => ?_
    exact StringUnit.inCodePoints_eq_self (by simpa [helement] using hp)
  · intro d hd k hk
    obtain ⟨e, he, rfl⟩ := List.mem_map.1 hk
    exact hd e he

theorem inCodePoints_object {fields : Document}
    (h : ∀ k ∈ fields.keys, StringUnit.inCodePoints k = k) :
    Value.inCodePoints (.document (Document.ofFields fields)) =
      .document (Document.ofFields (Document.mapValues Value.inCodePoints fields)) := by
  have hkeys : ∀ k ∈ (Document.ofFields fields).keys, StringUnit.inCodePoints k = k := by
    intro k hk
    exact h k (Document.mem_keys_ofFields.1 hk)
  rw [Document.ofFields_mapValues, Value.inCodePoints, Value.mapKeys,
    Document.mapFieldKeys_eq_mapValues hkeys]
  rfl

theorem sides_of_bringsNo {e call : Expr} (h : m.bringsNoByteCount e = true)
    (hc : e.receiverForm?.getD e = call) :
    ∀ a b, call.comparedSides? = some (a, b) →
      m.writesNoByteCount a b = true ∧ m.writesNoByteCount b a = true := by
  intro a b hab
  subst hc
  simp only [bringsNoByteCount, hab, Option.all_some, Bool.and_eq_true] at h
  exact h.1.1.2

theorem resultName_of_bringsNo {e call : Expr} (h : m.bringsNoByteCount e = true)
    (hc : e.receiverForm?.getD e = call) : ∀ name ∈ call.resultName?, countsBytes name = false := by
  intro name hname
  subst hc
  simp only [bringsNoByteCount, Option.mem_def.1 hname, Option.all_some, Bool.and_eq_true,
    Bool.not_eq_true'] at h
  exact h.1.2

theorem bringsNo_receiverForm? {e call : Expr} (h : m.bringsNoByteCount e = true)
    (hc : e.receiverForm? = some call) : m.bringsNoByteCount call = true := by
  have hcall : call.receiverForm? = none := by
    unfold Expr.receiverForm? at hc
    split at hc
    · split at hc
      · cases hc
        rfl
      · cases hc
    · cases hc
  simpa only [bringsNoByteCount, hc, hcall, Option.getD_some, Option.getD_none] using h

/-- **What is built in bytes from operands in bytes is built in code points from the same operands
in code points.** -/
theorem recounts_computedOperand (hs : s.CountsNoBytes)
    (h : m.Recounts node.size sub sub') (hn : node.every m.bringsNoByteCount = true) :
    (m.counting .codePoints).computedOperand sub' node s =
      Value.inCodePoints <$> (m.counting .bytes).computedOperand sub node s := by
  have hself := Expr.every_self hn
  cases node with
  | quote inner =>
    simp only [Expr.every, Bool.and_eq_true] at hn
    exact h inner s ⟨by simp [Expr.size], hn.2⟩ hs
  | convert operand type =>
    simp only [Expr.every, Bool.and_eq_true] at hn
    exact h operand s ⟨by simp [Expr.size], hn.2⟩ hs
  | literal l =>
    have hl : l.value.inCodePoints = l.value :=
      Value.inCodePoints_eq_self (nodeAvoids_of_bringsNo hself)
    exact congrArg Except.ok (by rw [inCodePoints_constant, hl])
  | member target name =>
    simp only [Expr.every, Bool.and_eq_true] at hn
    exact recounts_memberOperand h hs ⟨by simp [Expr.size], hn.2⟩ name
  | index target position =>
    simp only [Expr.every, Bool.and_eq_true] at hn
    exact recounts_itemAt h hs ⟨by simp only [Expr.size]; omega, hn.1.2⟩
      ⟨by simp only [Expr.size]; omega, hn.2⟩
  | call target method args =>
    simp only [Expr.every, Bool.and_eq_true] at hn
    refine recounts_callOperand h hs ⟨by simp only [Expr.size]; omega, hn.1.2⟩ method ?_
      (sides_of_bringsNo hself rfl) (resultName_of_bringsNo hself rfl)
    intro a ha
    have := Expr.size_le_sizes ha
    exact ⟨by simp only [Expr.size]; omega, Expr.every_of_mem hn.2 ha⟩
  | staticCall owner method args =>
    simp only [computedOperand]
    cases hc : (Expr.staticCall owner method args).receiverForm? with
    | some call =>
      exact h call s ⟨Expr.size_lt_of_receiverForm? hc,
        Expr.every_of_receiverForm? hn hc (bringsNo_receiverForm? hself hc)⟩ hs
    | none =>
      simp only [Expr.every, Bool.and_eq_true] at hn
      refine recounts_staticCallOperand h hs owner method ?_
        (sides_of_bringsNo hself (by rw [hc]; rfl))
      intro a ha
      have := Expr.size_le_sizes ha
      exact ⟨by simp only [Expr.size]; omega, Expr.every_of_mem hn.2 ha⟩
  | not operand =>
    simp only [Expr.every, Bool.and_eq_true] at hn
    simp (disch := decide) only [computedOperand, h operand s ⟨by simp [Expr.size], hn.2⟩ hs,
      bind_map_left, map_bind, map_pure, Value.inCodePoints_opAll, List.map_cons, List.map_nil]
  | negate operand =>
    simp only [Expr.every, Bool.and_eq_true] at hn
    simp (disch := decide) only [computedOperand, h operand s ⟨by simp [Expr.size], hn.2⟩ hs,
      bind_map_left, map_bind, map_pure, Value.inCodePoints_opAll, List.map_cons, List.map_nil,
      Value.inCodePoints_int32]
  | binary op left right =>
    simp only [Expr.every, Bool.and_eq_true] at hn
    exact recounts_binaryOperand h hs op ⟨by simp only [Expr.size]; omega, hn.1.2⟩
      ⟨by simp only [Expr.size]; omega, hn.2⟩ (sides_of_bringsNo hself rfl)
  | conditional test ifTrue ifFalse =>
    simp only [Expr.every, Bool.and_eq_true] at hn
    simp (disch := decide) only [computedOperand,
      h test s ⟨by simp only [Expr.size]; omega, hn.1.1.2⟩ hs,
      h ifTrue s ⟨by simp only [Expr.size]; omega, hn.1.2⟩ hs,
      h ifFalse s ⟨by simp only [Expr.size]; omega, hn.2⟩ hs,
      bind_map_left, map_bind, map_pure, Value.inCodePoints_opAll, List.map_cons, List.map_nil]
  | object typeName members =>
    simp only [Expr.every, Bool.and_eq_true] at hn
    have hstores : m.storesNoByteCount typeName members = true := by
      simp only [bringsNoByteCount, Expr.receiverForm?, Option.getD_none, Bool.and_eq_true] at hself
      exact hself.2
    have hkeys := keys_objectMembers sub s hstores
    have hmembers : ∀ p ∈ members, m.Countable (Expr.object typeName members).size p.2 := by
      intro p hp
      have := Expr.size_le_memberSizes hp
      exact ⟨by simp only [Expr.size]; omega, Expr.every_of_mem_members hn.2 hp⟩
    simp only [computedOperand, recounts_objectMembers h hs typeName hmembers, bind_map_left]
    cases ho : (m.counting .bytes).objectMembers sub typeName members s with
    | error e => rfl
    | ok fields => exact congrArg Except.ok (inCodePoints_object (hkeys.of_ok ho)).symm
  | collection kind source items =>
    cases source with
    | some source =>
      simp only [Expr.every, Bool.and_eq_true] at hn
      simp only [computedOperand, h source s ⟨by simp only [Expr.size]; omega, hn.1.2⟩ hs,
        bind_map_left, map_bind, map_pure]
      by_cases hk : kind = .hashSet
      · simp (disch := decide) [hk, Value.inCodePoints_opAll]
      · simp [hk]
    | none =>
      simp only [Expr.every, Bool.and_eq_true] at hn
      have hitems : ∀ e ∈ items, m.Countable (Expr.collection kind none items).size e := by
        intro e he
        have := Expr.size_le_sizes he
        exact ⟨by simp only [Expr.size]; omega, Expr.every_of_mem hn.2 he⟩
      simp only [computedOperand, recounts_mapM h hs hitems, bind_map_left, map_bind, map_pure,
        Value.inCodePoints_array]
  | param _ | lambda _ _ | typeTest _ _ _ | inject _ => rfl

end Node

/-- The aggregation expression of an expression in code points. -/
theorem operandOf_counting (m : Mapping) (e : Expr) {s : Scope} (hs : s.CountsNoBytes)
    (he : e.every m.bringsNoByteCount = true) :
    (m.counting .codePoints).operandOf e s =
      Value.inCodePoints <$> (m.counting .bytes).operandOf e s := by
  rw [operandOf_eq, operandOf_eq]
  refine recounts_found (x := m.reference? e s) (avoids_reference? e hs) ?_
  refine recounts_computedOperand hs (fun e' s' he' hs' => ?_) he
  have := he'.size
  exact operandOf_counting m e' hs' he'.names
termination_by e.size

end Mapping
end DocQuery
