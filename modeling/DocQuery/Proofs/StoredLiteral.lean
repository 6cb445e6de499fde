/-
The form in which a literal stands in the tests that it is sought with.

There are several ways to ask whether a stored array has a literal among its items
(`ItemTest`). The filters of those that name the array have the literal in the form
in which the array stores its items; the others, which name one of the items, have
it in the natural form of its type (`filter_itemTest`). A stored field that is
compared with a literal, or sought in a list of literals, is tested for its stored
form by a filter (`filter_equal`, `filter_oneOf`). In an aggregation expression,
only the comparison has the stored form; a list is written as it is
(`project_equal`, `project_oneOf`).
-/
import DocQuery.Proofs.Agreement
import DocQuery.Proofs.Filter.Literal

namespace DocQuery

open DocQuery.Filter Aggregation

/-! ## Encoded values -/

/-- Whether a value is neither a document nor a regular expression. -/
def Value.isSimple : Value → Bool
  | .document _ | .regex .. => false
  | _ => true

namespace Schema

variable {s : Schema} {t : ValueType} {r : Representation} {v w : Value}

theorem isSimple_represent (hv : v.isSimple = true) :
    Post (fun w => w.isSimple = true) (fun _ => True) (represent r v) := by
  unfold represent
  split
  · rfl
  · rfl
  · rfl
  · rfl
  · rfl
  · split <;> trivial
  · split <;> trivial
  · exact hv

theorem isSimple_encodeEnum (s : Schema) (name : String) (r : Representation) (v : Value) :
    Post (fun w => w.isSimple = true) (fun _ => True) (s.encodeEnum name r v) := by
  unfold encodeEnum
  refine (Post.of_total _).bind fun n _ => ?_
  split
  · rfl
  · rfl
  · cases int32? n.toInt <;> rfl

/-- What is stored for a value that is neither is neither. -/
theorem isSimple_encode (hv : v.isSimple = true) :
    Post (fun w => w.isSimple = true) (fun _ => True) (s.encode t r v) := by
  cases v with
  | document fields => cases hv
  | regex pattern options => cases hv
  | null => rfl
  | array items =>
    rw [encode]
    split
    · exact (Post.of_total _).bind fun _ _ => rfl
    · exact isSimple_encodeEnum ..
    · rfl
  | _ =>
    simp only [encode]
    split
    · exact isSimple_encodeEnum ..
    · rfl
    · rfl
    · exact isSimple_represent rfl

end Schema

theorem constant_injective {v w : Value} (hv : v.isSimple = true) (hw : w.isSimple = true)
    (h : constant v = constant w) : v = w := by
  have hdocument (x : Value) : constant x = x ∨ constant x = op "$literal" x := by
    unfold constant
    split
    · split
      · exact .inr rfl
      · exact .inl rfl
    · exact .inl rfl
  rcases hdocument v with hv' | hv' <;> rcases hdocument w with hw' | hw' <;> rw [hv', hw'] at h
  · exact h
  · rw [h] at hv
    cases hv
  · rw [← h] at hw
    cases hw
  · simpa [op, Value.single] using h

/-! ## Lists of one literal -/

/-- A list of one literal, as a constant or as a new collection. -/
inductive Expr.IsListOf (c : Literal) : Expr → Prop
  | constant : IsListOf c (.literal ⟨.array [c.value], .array c.type⟩)
  | collection (kind : CollectionKind) : IsListOf c (.collection kind none [.literal c])

namespace Expr.IsListOf

variable {c : Literal} {values : Expr}

theorem known? (h : values.IsListOf c) :
    values.known? = some ⟨.array [c.value], .array c.type⟩ := by
  cases h <;> rfl

theorem typeOf (h : values.IsListOf c) (s : Schema) : s.typeOf values = .array c.type := by
  cases h <;> rfl

theorem check (h : values.IsListOf c) (s : Scope) : s.check values = .ok () := by
  cases h <;> rfl

end Expr.IsListOf

/-! ## Items of a stored array -/

/-- A way to ask whether a stored array has an item that equals a literal. -/
inductive ItemTest where
  /-- `x.F.Contains(c)`. -/
  | contains
  /-- `[c].Any(i => x.F.Contains(i))`. -/
  | anyContained (values : Expr) (item : Param)
  /-- `x.F.Any(e => e == c)`. -/
  | anyEqual (item : Param)
  /-- `x.F[i] == c`. -/
  | equalAt (position : Int32)

namespace ItemTest

/-- The predicate on the document with the array. -/
def predicate (place : Expr) (c : Literal) : ItemTest → Expr
  | .contains => .call place "Contains" [.literal c]
  | .anyContained values item =>
    .call values "Any" [.lambda [item] (.call place "Contains" [.param item])]
  | .anyEqual item =>
    .call place "Any" [.lambda [item] (.binary .equal (.param item) (.literal c))]
  | .equalAt position =>
    .binary .equal (.index place (.literal ⟨.int32 position, .int32⟩)) (.literal c)

/-- Whether the parts of the predicate are of the types that they are taken for. -/
def Fits (p : Param) (type : ValueType) (c : Literal) : ItemTest → Prop
  | .contains => True
  | .anyContained values item => values.IsListOf c ∧ item.name ≠ p.name
  | .anyEqual item => item.type = type
  | .equalAt _ => True

/-- The filter that tests an array for a value. -/
def filter (f : FieldPath) (v : Value) : ItemTest → Document
  | .contains => test f.dotted v
  | .anyContained .. => testOp f.dotted "$in" (.array [v])
  | .anyEqual _ => testOp f.dotted "$elemMatch" (.document (test "$eq" v))
  | .equalAt position => test (String.intercalate "." (f.path ++ [toString position.toInt])) v

/-- The form of the literal in the test of an array that stores its items in a form. -/
def representation (r : Representation) : ItemTest → Representation
  | .contains | .anyContained .. => r
  | .anyEqual _ | .equalAt _ => .natural

end ItemTest

namespace Mapping

variable {m : Mapping} {place : Expr} {f : FieldPath} {p : Param} {c : Literal} {type : ValueType}

theorem target_chain (h : m.schema.chain? place = some f) (hp : f.param = p.name) :
    m.target place (.root p.name) = .ok ⟨f.path, f.type, f.representation⟩ := by
  unfold target targetOr
  rw [target?_chain h hp]
  rfl

/-- A literal of a type is encoded for a place of that type as it is. -/
theorem encodeFor_eq (t : Target) (h : c.type.underlying = t.type.underlying) :
    m.encodeFor t c = m.schema.encode t.type t.representation c.value := by
  rw [encodeFor, Schema.coerce_eq_self m.schema c.value h]

theorem encodeItemsFor_list (node : Expr) (t : Target)
    (h : c.type.underlying = t.type.underlying) :
    m.encodeItemsFor node t ⟨.array [c.value], .array c.type⟩ =
      (fun v => [v]) <$> m.schema.encode t.type t.representation c.value := by
  have hitem : m.encodeItemsFor node t ⟨.array [c.value], .array c.type⟩ =
      [c.value].mapM fun v => m.encodeFor t ⟨v, c.type⟩ := rfl
  rw [hitem, List.mapM_cons, encodeFor_eq t h]
  cases m.schema.encode t.type t.representation c.value <;> rfl

theorem underlying_of_item? {t : ValueType} (h : t.item? = some type) :
    t.underlying = .array type := by
  unfold ValueType.item? at h
  split at h
  · rename_i ht
    cases h
    exact ht
  · cases h

/-- A stored array contains a literal. -/
theorem filterOf_contains (h : m.schema.chain? place = some f) (hp : f.param = p.name)
    (hitem : f.type.item? = some type) (hc : c.type.underlying = type.underlying) :
    m.filterOf (.call place "Contains" [.literal c]) (.root p.name) =
      test f.dotted <$> m.schema.encode type f.representation c.value := by
  have hunderlying := underlying_of_item? hitem
  have htype := Schema.typeOf_of_chain? h
  have hknown : place.isKnown = false := by rw [Expr.isKnown, Schema.known?_of_chain? h]; rfl
  have hdictionary : f.type.isDictionary = false := by simp [ValueType.isDictionary, hunderlying]
  have hstring : f.type.isString = false := by simp [ValueType.isString, hunderlying]
  have harray : f.type.isArray = true := by simp [ValueType.isArray, hitem]
  rw [filterOf_eq]
  change m.contains _ place (.literal c) (.root p.name) = _
  unfold contains
  simp only [htype, hdictionary, hstring, hknown, Bool.false_eq_true, if_false, target_chain h hp]
  simp only [bind, Except.bind, harray, if_true, knownOr, Expr.known?, Target.item, hitem,
    Option.getD_some]
  rw [encodeFor_eq ⟨f.path, type, f.representation⟩ hc]
  cases m.schema.encode type f.representation c.value <;> rfl

/-- An item of a known list is in a stored array. -/
theorem filterOf_anyContained {values : Expr} {item : Param} (h : m.schema.chain? place = some f)
    (hp : f.param = p.name) (hitem : f.type.item? = some type)
    (hc : c.type.underlying = type.underlying) (hvalues : values.IsListOf c)
    (hne : item.name ≠ p.name) :
    m.filterOf (.call values "Any" [.lambda [item] (.call place "Contains" [.param item])])
        (.root p.name) =
      (fun v => testOp f.dotted "$in" (.array [v])) <$>
        m.schema.encode type f.representation c.value := by
  have htarget : m.target place ((Scope.root p.name).bindInner item.name .known) =
      .ok ⟨f.path, f.type, f.representation⟩ := by
    have hresolve : ((Scope.root p.name).bindInner item.name .known).resolve f.param place =
        .ok .root := by
      simp [Scope.resolve, Scope.classify, Scope.root, Scope.push, Scope.bindInner, Frame.bind,
        Frame.of, Frame.binding?, hp, hne]
    unfold target targetOr
    rw [target?_of_resolve h hresolve]
    rfl
  have hsought : soughtIn? .any item.name (.call place "Contains" [.param item]) =
      some (place, true) := by
    simp [soughtIn?, Expr.strip, Expr.isParam]
  rw [filterOf_eq]
  change m.anyItem m.filterOf _ values (.lambda [item] _) (.root p.name) = _
  unfold anyItem knownItems
  simp only [Expr.asUnaryLambda?, Expr.asLambda?, hvalues.known?, hsought, htarget]
  simp only [bind, Except.bind, if_true, Target.item, hitem, Option.getD_some]
  rw [encodeItemsFor_list _ ⟨f.path, type, f.representation⟩ hc]
  cases m.schema.encode type f.representation c.value <;> rfl

/-- The operand for an item that is tested for a value. -/
theorem itemCondition_test (node : Expr) {v : Value} (hv : v.isSimple = true) :
    itemCondition node (test "" v) = .ok (test "$eq" v) := by
  cases v <;> first | rfl | cases hv

theorem anyItem_chain {sub : Expr → Scope → Result Document} {node body : Expr} {item : Param}
    {s : Scope} (h : m.schema.chain? place = some f) :
    m.anyItem sub node place (.lambda [item] body) s =
      m.anyStored sub node place none item body s := by
  unfold anyItem
  simp only [Expr.asUnaryLambda?, Expr.asLambda?, Schema.known?_of_chain? h]
  cases place <;> first | rfl | cases h

/-- Some item of a stored array equals a literal. -/
theorem filterOf_anyEqual {item : Param} (h : m.schema.chain? place = some f)
    (hp : f.param = p.name) (hitem : f.type.item? = some item.type)
    (hc : c.type.underlying = item.type.underlying) (hv : c.value.isSimple = true) :
    m.filterOf (.call place "Any" [.lambda [item] (.binary .equal (.param item) (.literal c))])
        (.root p.name) =
      (fun v => testOp f.dotted "$elemMatch" (.document (test "$eq" v))) <$>
        m.schema.encode item.type .natural c.value := by
  have harray : f.type.isArray = true := by simp [ValueType.isArray, hitem]
  have hroot : (Scope.root p.name).inElemMatch = false := rfl
  have hparam : m.schema.chain? (.param item) = some (.ofParam item) := rfl
  have hresolve : ((Scope.root p.name).push
      { Frame.of item.name .root with elemMatch := true }).resolve
        (FieldPath.ofParam item).param (.param item) = .ok (.path []) := by
    simp [Scope.resolve, Scope.classify, Scope.push, Frame.of, Frame.binding?, FieldPath.ofParam,
      Binding.root]
  have hbody : itemFilter m.filterOf item (.binary .equal (.param item) (.literal c))
      (.root p.name) = test "" <$> m.schema.encode item.type .natural c.value := by
    unfold itemFilter
    rw [filterOf_comparison rfl, comparison_chain hparam (of?_chain hparam .equal) (.inl rfl)]
    unfold plainComparison targetOr
    rw [target?_of_resolve hparam hresolve]
    change m.encodeFor ⟨[], item.type, .natural⟩ c >>= _ = _
    rw [encodeFor_eq ⟨[], item.type, .natural⟩ hc]
    cases m.schema.encode item.type .natural c.value <;> rfl
  rw [filterOf_eq]
  change m.anyItem m.filterOf _ place (.lambda [item] _) (.root p.name) = _
  rw [anyItem_chain h]
  unfold anyStored
  simp only [target_chain h hp, bind, Except.bind, harray, Bool.not_true, Bool.false_eq_true,
    if_false, collapsed?, hroot, Bool.false_and, pure, Except.pure, hbody]
  cases hencode : m.schema.encode item.type .natural c.value with
  | error e => rfl
  | ok v =>
    have hsimple : v.isSimple = true := (Schema.isSimple_encode hv).of_ok hencode
    simp only [Functor.map, Except.map, itemCondition_test _ hsimple]
    rfl

/-- The item of a stored array at a position equals a literal. -/
theorem filterOf_equalAt (position : Int32) (h : m.schema.chain? place = some f)
    (hp : f.param = p.name) (hitem : f.type.item? = some type)
    (hc : c.type.underlying = type.underlying) :
    m.filterOf (.binary .equal (.index place (.literal ⟨.int32 position, .int32⟩)) (.literal c))
        (.root p.name) =
      test (String.intercalate "." (f.path ++ [toString position.toInt])) <$>
        m.schema.encode type .natural c.value := by
  have hplace : m.schema.fieldPath? (.index place (.literal ⟨.int32 position, .int32⟩)) =
      .ok (some { f.step (toString position.toInt) type .natural with positional := true }) := by
    simp only [Schema.fieldPath?, Schema.fieldPath?_of_chain? h]
    simp [FieldPath.item?, underlying_of_item? hitem, Expr.asLiteral?, Expr.strip, Literal.asInt?,
      Value.asInt?, bind, Except.bind, pure, Except.pure]
  have htarget : m.target? (.index place (.literal ⟨.int32 position, .int32⟩)) (.root p.name) =
      .ok (some ⟨f.path ++ [toString position.toInt], type, .natural⟩) := by
    unfold target?
    rw [hplace]
    change (Scope.root p.name).resolve f.param _ >>= _ = _
    rw [Scope.resolve_root_eq_ok.2 ⟨hp, rfl⟩]
    rfl
  have haccess : place.isAccess = true := Schema.isAccess_of_chain? h
  have hrules : (Comparison.mk .equal (.index place (.literal ⟨.int32 position, .int32⟩))
      c).firstAnswer (.root p.name) m.comparisonRules = .ok none :=
    firstAnswer_of_isAccess haccess hplace
  rw [filterOf_comparison rfl, comparison_of_firstAnswer rfl hrules (.inl rfl)]
  unfold plainComparison targetOr
  rw [htarget]
  change m.encodeFor ⟨_, type, .natural⟩ c >>= _ = _
  rw [encodeFor_eq ⟨f.path ++ [toString position.toInt], type, .natural⟩ hc]
  cases m.schema.encode type .natural c.value <;> rfl

/-- None of the tests reads a parameter of an enclosing lambda. -/
theorem check_predicate {t : ItemTest} (h : m.schema.chain? place = some f)
    (ht : t.Fits p type c) : (Scope.root p.name).check (t.predicate place c) = .ok () := by
  have hplace := check_chain h p.name
  cases t with
  | contains =>
    simp only [ItemTest.predicate, Scope.check, hplace]
    rfl
  | anyContained values item =>
    obtain ⟨hvalues, -⟩ := ht
    have hforeign (q : String) :
        ((Scope.root p.name).bindInner item.name .known).isForeign q = false := by
      unfold Scope.isForeign
      simp only [Scope.classify, Scope.root, Scope.push, Scope.bindInner, List.any_nil]
      split
      · rename_i hclass
        split at hclass <;> cases hclass
      · rfl
    have hknown : values.isKnown = true := by rw [Expr.isKnown, hvalues.known?]; rfl
    simp only [ItemTest.predicate, Scope.check, hvalues.check, Scope.checkArgs, hknown,
      Expr.asLambda?, if_true, Scope.checkBody, Scope.join, List.foldl_cons, List.foldl_nil,
      check_of_chain? hforeign h, checkChain_of_isForeign hforeign]
    rfl
  | anyEqual item =>
    have hknown : place.isKnown = false := by rw [Expr.isKnown, Schema.known?_of_chain? h]; rfl
    have hforeign : ((Scope.root p.name).enter [item]).isForeign item.name = false := by
      simp [Scope.isForeign, Scope.classify, Scope.enter, Scope.push, Frame.binding?]
    simp only [ItemTest.predicate, Scope.check, hplace, Scope.checkArgs, hknown, Expr.asLambda?,
      Bool.false_eq_true, if_false, Scope.checkBody, Scope.checkChain, Expr.chainRoot?, hforeign]
    rfl
  | equalAt position =>
    simp only [ItemTest.predicate, Scope.check, hplace, checkChain_of_isForeign (isForeign_root _)]
    rfl

/-- **The form of a literal that is sought in a stored array depends on what the test names.** -/
theorem filter_itemTest {t : ItemTest} (h : m.schema.chain? place = some f) (hp : f.param = p.name)
    (hitem : f.type.item? = some type) (hc : c.type.underlying = type.underlying)
    (hv : c.value.isSimple = true) (ht : t.Fits p type c) :
    m.filter (.lambda [p] (t.predicate place c)) =
      (t.filter f ·) <$> m.schema.encode type (t.representation f.representation) c.value := by
  rw [filter_of_check (check_predicate h ht)]
  cases t with
  | contains => exact filterOf_contains h hp hitem hc
  | anyContained values item => exact filterOf_anyContained h hp hitem hc ht.1 ht.2
  | anyEqual item =>
    cases ht
    exact filterOf_anyEqual h hp hitem hc hv
  | equalAt position => exact filterOf_equalAt position h hp hitem hc

/-! ## Stored fields -/

/-- A stored field equals a literal. -/
theorem filter_equal (h : m.schema.chain? place = some f) (hp : f.param = p.name)
    (hc : c.type.underlying = f.type.underlying)
    (htest : place.isTest = false ∨ c.asBool? = none) :
    m.filter (.lambda [p] (.binary .equal place (.literal c))) =
      test f.dotted <$> m.schema.encode f.type f.representation c.value := by
  have hcheck : (Scope.root p.name).check (.binary .equal place (.literal c)) = .ok () :=
    check_binary .equal (check_chain h p.name) rfl
  rw [filter_of_check hcheck, filterOf_comparison rfl,
    comparison_chain h (of?_chain h .equal) (htest.imp_right .inl), plainComparison_chain h hp,
    Schema.storedForm, Schema.coerce_eq_self m.schema c.value hc]
  cases m.schema.encode f.type f.representation c.value <;> rfl

theorem check_oneOf {values : Expr} (h : m.schema.chain? place = some f)
    (hvalues : values.IsListOf c) :
    (Scope.root p.name).check (.call values "Contains" [place]) = .ok () := by
  have hlambda : place.asLambda? = none := by
    cases place <;> first | rfl | cases h
  simp only [Scope.check, hvalues.check, Scope.checkArgs, hlambda, check_chain h p.name]
  rfl

/-- A stored field is in a list of one literal. -/
theorem filter_oneOf {values : Expr} (h : m.schema.chain? place = some f) (hp : f.param = p.name)
    (hc : c.type.underlying = f.type.underlying) (hvalues : values.IsListOf c) :
    m.filter (.lambda [p] (.call values "Contains" [place])) =
      (fun v => testOp f.dotted "$in" (.array [v])) <$>
        m.schema.encode f.type f.representation c.value := by
  have hknown : values.isKnown = true := by rw [Expr.isKnown, hvalues.known?]; rfl
  rw [filter_of_check (check_oneOf h hvalues), filterOf_eq]
  change m.contains _ values place (.root p.name) = _
  unfold contains isOneOf
  simp only [hvalues.typeOf, ValueType.isDictionary, ValueType.isString, ValueType.underlying,
    hknown, Bool.false_eq_true, if_false, if_true, knownOr, hvalues.known?, target_chain h hp]
  simp only [bind, Except.bind]
  rw [encodeItemsFor_list _ ⟨f.path, f.type, f.representation⟩ hc]
  cases m.schema.encode f.type f.representation c.value <;> rfl

theorem eq_of_valueStage {name : String} {operands operands' : List Value}
    (h : valueStage (opAll name operands) = valueStage (opAll name operands')) :
    operands = operands' := by
  have hbody : withoutId [(Stage.valueName, opAll name operands)] =
      withoutId [(Stage.valueName, opAll name operands')] := congrArg Stage.body h
  simpa [withoutId, Document.hasKey, Document.get?, Document.insert, Stage.valueName, opAll,
    Value.single] using hbody

theorem project_of_check {e : Expr} (h : (Scope.root p.name).check e = .ok ())
    (hstrip : e.strip = e) (hobject : e.asObject? = none) :
    m.project (.lambda [p] e) = valueStage <$> m.operandOf e (.root p.name) := by
  have hl : (Expr.lambda [p] e).asUnaryLambda? = some (p, e) := rfl
  unfold project
  simp only [hl, h, hobject, hstrip]
  cases m.operandOf e (.root p.name) <;> rfl

/-- A stored field equals a literal, as a computed truth value. -/
theorem project_equal (h : m.schema.chain? place = some f) (hp : f.param = p.name)
    (hc : c.type.underlying = f.type.underlying) :
    m.project (.lambda [p] (.binary .equal place (.literal c))) =
      (fun v => valueStage (opAll "$eq" [.string (fieldRef f.path), constant v])) <$>
        m.schema.encode f.type f.representation c.value := by
  have hcheck : (Scope.root p.name).check (.binary .equal place (.literal c)) = .ok () :=
    check_binary .equal (check_chain h p.name) rfl
  have hconstant : m.comparedConstant c place =
      constant <$> m.schema.encode f.type f.representation c.value := by
    unfold comparedConstant
    rw [Schema.fieldPath?_of_chain? h]
    change constant <$> m.schema.encode f.type f.representation
      (m.schema.coerce c.type f.type c.value) = _
    rw [Schema.coerce_eq_self m.schema c.value hc]
  have hpair : m.comparedPair m.operandOf place (.literal c) (.root p.name) =
      (fun v => [.string (fieldRef f.path), constant v]) <$>
        m.schema.encode f.type f.representation c.value := by
    have hliteral : (Expr.literal c).asLiteral? = some c := rfl
    unfold comparedPair compared
    rw [Schema.asLiteral?_of_chain? h, hliteral]
    simp only [operandOf_of_chain h hp, hconstant]
    cases m.schema.encode f.type f.representation c.value <;> rfl
  rw [project_of_check hcheck rfl rfl, operandOf_of_not_reference rfl]
  simp only [computedOperand, binaryOperand, binaryOperator?, BinaryOp.isComparison, if_true, hpair]
  cases m.schema.encode f.type f.representation c.value <;> rfl

/-- A stored field is in a list of one literal, as a computed truth value. -/
theorem project_oneOf {values : Expr} (h : m.schema.chain? place = some f) (hp : f.param = p.name)
    (hvalues : values.IsListOf c) :
    m.project (.lambda [p] (.call values "Contains" [place])) =
      .ok (valueStage (opAll "$in"
        [.string (fieldRef f.path), op "$literal" (.array [c.value])])) := by
  rw [project_of_check (check_oneOf h hvalues) rfl rfl, operandOf_of_not_reference rfl]
  simp only [computedOperand, callOperand, hvalues.known?, operandOf_of_chain h hp]
  rfl

/-- The tests of an array have one value in them exactly if its items are stored in natural form. -/
theorem itemTests_agree_iff (h : m.schema.chain? place = some f) (hp : f.param = p.name)
    (hitem : f.type.item? = some type) (hc : c.type.underlying = type.underlying)
    (hv : c.value.isSimple = true) :
    (∃ v, ∀ t : ItemTest, t.Fits p type c →
        m.filter (.lambda [p] (t.predicate place c)) = .ok (t.filter f v)) ↔
      ∃ v, m.schema.encode type f.representation c.value = .ok v ∧
        m.schema.encode type .natural c.value = .ok v := by
  constructor
  · intro hagree
    obtain ⟨v, htests⟩ := hagree
    have hstored := htests .contains trivial
    have hnatural := htests (.equalAt 0) trivial
    rw [filter_itemTest h hp hitem hc hv (t := .contains) trivial] at hstored
    rw [filter_itemTest h hp hitem hc hv (t := .equalAt 0) trivial] at hnatural
    obtain ⟨w, hw, heq⟩ := map_eq_ok.1 hstored
    obtain ⟨w', hw', heq'⟩ := map_eq_ok.1 hnatural
    cases heq
    cases heq'
    exact ⟨v, hw, hw'⟩
  · intro hforms
    obtain ⟨v, hstored, hnatural⟩ := hforms
    refine ⟨v, fun t ht => ?_⟩
    rw [filter_itemTest h hp hitem hc hv ht]
    cases t with
    | contains | anyContained values item => exact map_eq_ok.2 ⟨v, hstored, rfl⟩
    | anyEqual item | equalAt position => exact map_eq_ok.2 ⟨v, hnatural, rfl⟩

/-- The computed tests of a field have one value in them exactly if the literal is stored as it
is. -/
theorem computedTests_agree_iff {values : Expr} (h : m.schema.chain? place = some f)
    (hp : f.param = p.name) (hc : c.type.underlying = f.type.underlying)
    (hv : c.value.isSimple = true) (hvalues : values.IsListOf c) :
    (∃ v, m.project (.lambda [p] (.binary .equal place (.literal c))) =
          .ok (valueStage (opAll "$eq" [.string (fieldRef f.path), constant v])) ∧
        m.project (.lambda [p] (.call values "Contains" [place])) =
          .ok (valueStage (opAll "$in" [.string (fieldRef f.path), op "$literal" (.array [v])]))) ↔
      m.schema.encode f.type f.representation c.value = .ok c.value := by
  rw [project_equal h hp hc, project_oneOf h hp hvalues]
  constructor
  · intro hagree
    obtain ⟨v, hequal, hone⟩ := hagree
    obtain ⟨w, hw, heq⟩ := map_eq_ok.1 hequal
    have hvalue : c.value = v := by
      simpa [op, Value.single] using eq_of_valueStage (Except.ok.inj hone)
    have hconstant : constant w = constant v := by
      simpa using eq_of_valueStage heq
    have hsimple : w.isSimple = true := (Schema.isSimple_encode hv).of_ok hw
    rw [hw, hvalue, constant_injective hsimple (hvalue ▸ hv) hconstant]
  · intro hencode
    exact ⟨c.value, map_eq_ok.2 ⟨c.value, hencode, rfl⟩, rfl⟩

/-- **A literal is sought in one form wherever it is tested, as far as its stored form is the
natural one.** Let a literal be neither a document nor a regular expression. The tests of a stored
array of its type have it in the form of the array's items if they name the array, and in natural
form if they name an item, so that they have one value in them exactly if the two forms are one. A
stored field of its type is tested for the stored form by a filter, whether it is compared with
the literal or sought in a list of it. As computed truth values the two have one value in them
exactly if the literal is stored as it is. -/
theorem stored_form_of_literal (hv : c.value.isSimple = true) :
    (∀ place f type, m.schema.chain? place = some f → f.param = p.name →
      f.type.item? = some type → c.type.underlying = type.underlying →
      (∀ t : ItemTest, t.Fits p type c → m.filter (.lambda [p] (t.predicate place c)) =
        (t.filter f ·) <$> m.schema.encode type (t.representation f.representation) c.value) ∧
      ((∃ v, ∀ t : ItemTest, t.Fits p type c →
          m.filter (.lambda [p] (t.predicate place c)) = .ok (t.filter f v)) ↔
        ∃ v, m.schema.encode type f.representation c.value = .ok v ∧
          m.schema.encode type .natural c.value = .ok v)) ∧
    (∀ place f values, m.schema.chain? place = some f → f.param = p.name →
      c.type.underlying = f.type.underlying → place.isTest = false ∨ c.asBool? = none →
      values.IsListOf c →
      m.filter (.lambda [p] (.binary .equal place (.literal c))) =
        test f.dotted <$> m.schema.encode f.type f.representation c.value ∧
      m.filter (.lambda [p] (.call values "Contains" [place])) =
        (fun v => testOp f.dotted "$in" (.array [v])) <$>
          m.schema.encode f.type f.representation c.value ∧
      ((∃ v, m.project (.lambda [p] (.binary .equal place (.literal c))) =
            .ok (valueStage (opAll "$eq" [.string (fieldRef f.path), constant v])) ∧
          m.project (.lambda [p] (.call values "Contains" [place])) =
            .ok (valueStage
              (opAll "$in" [.string (fieldRef f.path), op "$literal" (.array [v])]))) ↔
        m.schema.encode f.type f.representation c.value = .ok c.value)) := by
  refine ⟨?_, ?_⟩
  · intro place f type h hp hitem hc
    exact ⟨fun t ht => filter_itemTest h hp hitem hc hv ht,
      itemTests_agree_iff h hp hitem hc hv⟩
  · intro place f values h hp hc htest hvalues
    exact ⟨filter_equal h hp hc htest, filter_oneOf h hp hc hvalues,
      computedTests_agree_iff h hp hc hv hvalues⟩

/-- Documents with levels, in natural form and by name. -/
def levelsMapping : Mapping :=
  { schema := {
      documents := [
        { name := "Root"
          members := [
            ⟨"Levels", "Levels", .array (.enumeration "Level"), .natural⟩,
            ⟨"Names", "Names", .array (.enumeration "Level"), .string⟩,
            ⟨"Name", "Name", .enumeration "Level", .string⟩] }]
      enums := [⟨"Level", [("Low", 1)]⟩] } }

/-- A member of the documents with levels. -/
def levelsMember (name : String) : Expr := .member (.param ⟨"x", .document "Root"⟩) name

/-- The level `Low`. -/
def low : Literal := ⟨.int32 1, .enumeration "Level"⟩

theorem stored_form_of_low :
    ∃ f v, levelsMapping.schema.chain? (levelsMember "Levels") = some f ∧
      ∀ t : ItemTest, t.Fits ⟨"x", .document "Root"⟩ (.enumeration "Level") low →
        levelsMapping.filter
            (.lambda [⟨"x", .document "Root"⟩] (t.predicate (levelsMember "Levels") low)) =
          .ok (t.filter f v) := by
  obtain ⟨hitems, -⟩ := stored_form_of_literal (m := levelsMapping)
    (p := ⟨"x", .document "Root"⟩) (c := low) rfl
  obtain ⟨v, hv⟩ := (hitems (levelsMember "Levels") _ _ rfl rfl rfl rfl).2.2 ⟨.int32 1, rfl, rfl⟩
  exact ⟨_, v, rfl, hv⟩

/-- Of levels that are stored by name, the level `Low` is sought under its name in the array, but
as a number in an item; and a computed list of it has the number where a comparison has the
name. -/
theorem stored_form_of_low_name :
    levelsMapping.filter (.lambda [⟨"x", .document "Root"⟩]
        (ItemTest.contains.predicate (levelsMember "Names") low)) =
      .ok (test "Names" (.string "Low")) ∧
    levelsMapping.filter (.lambda [⟨"x", .document "Root"⟩]
        ((ItemTest.anyEqual ⟨"e", .enumeration "Level"⟩).predicate (levelsMember "Names") low)) =
      .ok (testOp "Names" "$elemMatch" (.document (test "$eq" (.int32 1)))) ∧
    levelsMapping.filter (.lambda [⟨"x", .document "Root"⟩]
        ((ItemTest.equalAt 0).predicate (levelsMember "Names") low)) =
      .ok (test "Names.0" (.int32 1)) ∧
    levelsMapping.project (.lambda [⟨"x", .document "Root"⟩]
        (.binary .equal (levelsMember "Name") (.literal low))) =
      .ok (valueStage (opAll "$eq" [.string "$Name", .string "Low"])) ∧
    levelsMapping.project (.lambda [⟨"x", .document "Root"⟩]
        (.call (.literal ⟨.array [low.value], .array low.type⟩) "Contains"
          [levelsMember "Name"])) =
      .ok (valueStage (opAll "$in" [.string "$Name", op "$literal" (.array [.int32 1])])) :=
  ⟨rfl, rfl, rfl, rfl, rfl⟩

end Mapping
end DocQuery
