/-
A stored value is one of a known list.

The list may contain the value, the value may be in the list, or some item of the
list may equal the value (`ListTest`). Either all of these have a filter or none, and
it is the same one: the value is tested with `$in` for the stored forms of the items
(`filter_listTest_eq_ok`). It means that the value equals one of them, so it is also
what the equalities with the items mean when they are joined by "or"
(`filter_listTest`).

A stored name that is that of a logical operator is the exception: where an item is
stored as an array, an equality with it is taken for a list of clauses.
-/
import DocQuery.Proofs.Filter.Answer
import DocQuery.Proofs.StoredLiteral

namespace DocQuery

open DocQuery.Filter

/-! ## Known lists -/

/-- A list of literals of one type, as a constant or as a new collection. -/
inductive Expr.IsKnownList (type : ValueType) (values : List Value) : Expr → Prop
  | constant : IsKnownList type values (.literal ⟨.array values, .array type⟩)
  | collection (kind : CollectionKind) :
    IsKnownList type values (.collection kind none (values.map fun v => .literal ⟨v, type⟩))

namespace Expr.IsKnownList

variable {type : ValueType} {values : List Value} {v : Value} {list : Expr}

theorem knownItems?_literals (type : ValueType) (values : List Value) :
    knownItems? (values.map fun v => .literal ⟨v, type⟩) =
      some (values.map fun v => ⟨v, type⟩) := by
  induction values with
  | nil => rfl
  | cons v values ih =>
    rw [List.map_cons, knownItems?, ih]
    rfl

theorem known? (h : list.IsKnownList type (v :: values)) :
    list.known? = some ⟨.array (v :: values), .array type⟩ := by
  cases h with
  | constant => rfl
  | collection kind =>
    rw [Expr.known?, knownItems?_literals]
    simp [Literal.ofItems, Function.comp_def]

theorem typeOf (h : list.IsKnownList type (v :: values)) (s : Schema) :
    s.typeOf list = .array type := by
  cases h <;> rfl

theorem check (h : list.IsKnownList type values) (s : Scope) : s.check list = .ok () := by
  cases h with
  | constant => rfl
  | collection kind =>
    rw [Scope.check]
    induction values with
    | nil => rfl
    | cons v values ih =>
      rw [List.map_cons, Scope.checkAll, ih]
      rfl

end Expr.IsKnownList

/-- A way to ask whether a stored value is one of a known list. -/
inductive ListTest where
  /-- `[…].Contains(x.F)`. -/
  | contains
  /-- `x.F.In([…])`. -/
  | isIn
  /-- `[…].Any(i => x.F == i)`. -/
  | anyEqual (item : Param)
  /-- `[…].Any(i => i == x.F)`. -/
  | anyEqualTo (item : Param)

namespace ListTest

def predicate (place list : Expr) : ListTest → Expr
  | contains => .call list "Contains" [place]
  | isIn => .call place "In" [list]
  | anyEqual item => .call list "Any" [.lambda [item] (.binary .equal place (.param item))]
  | anyEqualTo item => .call list "Any" [.lambda [item] (.binary .equal (.param item) place)]

/-- The item has another name than the document. -/
def Fits (p : Param) : ListTest → Prop
  | contains | isIn => True
  | anyEqual item | anyEqualTo item => item.name ≠ p.name

end ListTest

/-- `x.F == c₁ || … || x.F == cₙ`. -/
def Expr.equalsOneOf (place : Expr) (type : ValueType) (v : Value) (values : List Value) : Expr :=
  values.foldl
    (fun e c => .binary .orElse e (.binary .equal place (.literal ⟨c, type⟩)))
    (.binary .equal place (.literal ⟨v, type⟩))

/-! ## The scope of an item of a known list -/

namespace Scope

/-- The item of a known list stands for no stored place. -/
theorem resolve_known_eq_ok {param item q : String} {node : Expr} {base : List String}
    (hne : item ≠ param) :
    ((root param).bindInner item .known).resolve q node = .ok (.path base) ↔
      q = param ∧ base = [] := by
  by_cases hq : q = param
  · subst hq
    simp [resolve, classify, root, push, bindInner, Frame.bind, Frame.of, Frame.binding?,
      Binding.root, hne, eq_comm]
  · by_cases hi : item = q
    · simp [resolve, classify, root, push, bindInner, Frame.bind, Frame.of, Frame.binding?, hi, hq]
    · simp [resolve, classify, root, push, bindInner, Frame.bind, Frame.of, Frame.binding?, hi, hq,
        Ne.symm hq]

/-- No parameter is that of an enclosing lambda there. -/
theorem isForeign_known (param item q : String) :
    ((root param).bindInner item .known).isForeign q = false := by
  unfold isForeign
  simp only [classify, root, push, bindInner, List.any_nil]
  split
  · rename_i hclass
    split at hclass <;> cases hclass
  · rfl

end Scope

namespace Mapping

variable {m : Mapping} {p : Param} {place list : Expr} {type : ValueType} {v : Value}
  {values : List Value} {f : FieldPath}

theorem target_known_eq {param item : String} {t : Target} (hne : item ≠ param) :
    m.target place ((Scope.root param).bindInner item .known) = .ok t ↔
      m.target place (.root param) = .ok t := by
  rw [target_eq_ok_iff, target_root_eq_ok]
  refine exists_congr fun f => ?_
  simp only [Scope.resolve_known_eq_ok hne]
  constructor
  · rintro ⟨base, hf, ⟨hp, rfl⟩, rfl⟩
    exact ⟨hf, hp, rfl⟩
  · rintro ⟨hf, hp, rfl⟩
    exact ⟨[], hf, ⟨hp, rfl⟩, rfl⟩

/-! ## The filter of a list test -/

/-- The stored forms of the items of a known list. -/
def storedForms (m : Mapping) (f : FieldPath) (type : ValueType) (values : List Value) :
    Result (List Value) :=
  values.mapM fun v => m.schema.storedForm f ⟨v, type⟩

/-- A place is tested for the stored forms of some values. -/
def TestsFor (m : Mapping) (p : Param) (place : Expr) (type : ValueType) (values : List Value)
    (d : Document) : Prop :=
  ∃ f items, m.schema.fieldPath? place = .ok (some f) ∧ f.param = p.name ∧
    m.storedForms f type values = .ok items ∧ d = testOp f.dotted "$in" (.array items)

theorem testsFor_iff (node : Expr) {d : Document} :
    (m.target place (.root p.name) >>= fun t =>
        m.encodeItemsFor node t ⟨.array values, .array type⟩ >>= fun items =>
          .ok (testOp t.name "$in" (.array items))) = .ok d ↔
      m.TestsFor p place type values d := by
  constructor
  · intro h
    obtain ⟨t, ht, h⟩ := bind_eq_ok.1 h
    obtain ⟨items, hitems, h⟩ := bind_eq_ok.1 h
    obtain ⟨f, hf, hp, rfl⟩ := target_root_eq_ok.1 ht
    cases h
    exact ⟨f, items, hf, hp, hitems, rfl⟩
  · rintro ⟨f, items, hf, hp, hitems, rfl⟩
    refine bind_eq_ok.2 ⟨_, target_root_eq_ok.2 ⟨f, hf, hp, rfl⟩, ?_⟩
    exact bind_eq_ok.2 ⟨items, hitems, rfl⟩

theorem isOneOf_eq_ok (hlist : list.IsKnownList type (v :: values)) (node : Expr) {d : Document} :
    m.isOneOf node place list (.root p.name) = .ok d ↔
      m.TestsFor p place type (v :: values) d := by
  rw [← testsFor_iff node]
  unfold isOneOf knownOr
  rw [hlist.known?]
  exact Iff.rfl

/-- Some item of a known list equals what is stored at a place. -/
theorem knownItems_eq_ok {item : Param} {body : Expr} (node : Expr) {d : Document}
    (hsought : soughtIn? .any item.name body = some (place, false)) (hne : item.name ≠ p.name) :
    m.knownItems node .any ⟨.array values, .array type⟩ item body (.root p.name) = .ok d ↔
      m.TestsFor p place type values d := by
  rw [← testsFor_iff node]
  unfold knownItems
  simp only [hsought, bind_eq_ok, target_known_eq hne]
  exact Iff.rfl

/-- An item is compared with the place, unless the place is an item. -/
theorem soughtIn?_equalTo {item : Param} (h : place.isParam item.name = false) :
    soughtIn? .any item.name (.binary .equal (.param item) place) = some (place, false) := by
  have hself : (Expr.param item).isParam item.name = true := by simp [Expr.isParam, Expr.strip]
  simp [soughtIn?, Expr.strip, h, hself]

/-- A parameter of another name is no stored place of the document. -/
theorem not_testsFor_param {q : Param} {d : Document} (hne : q.name ≠ p.name) :
    ¬m.TestsFor p (.param q) type values d := by
  rintro ⟨f, items, hf, hp, -⟩
  cases hf
  exact hne hp

theorem filterOf_listTest (hplace : place.isAccess = true)
    (hlist : list.IsKnownList type (v :: values)) {t : ListTest} (ht : t.Fits p) {d : Document} :
    m.filterOf (t.predicate place list) (.root p.name) = .ok d ↔
      m.TestsFor p place type (v :: values) d := by
  have hany (item : Param) (body node : Expr) :
      m.anyItem m.filterOf node list (.lambda [item] body) (.root p.name) =
        m.knownItems node .any ⟨.array (v :: values), .array type⟩ item body (.root p.name) := by
    unfold anyItem
    simp only [Expr.asUnaryLambda?, Expr.asLambda?, hlist.known?]
  rw [filterOf_eq]
  cases t with
  | contains =>
    change m.contains _ list place (.root p.name) = .ok d ↔ _
    have hknown : list.isKnown = true := by rw [Expr.isKnown, hlist.known?]; rfl
    unfold contains
    simp only [hlist.typeOf, ValueType.isDictionary, ValueType.isString, ValueType.underlying,
      hknown, Bool.false_eq_true, if_false, if_true]
    exact isOneOf_eq_ok hlist _
  | isIn => exact isOneOf_eq_ok hlist _
  | anyEqual item =>
    change m.anyItem m.filterOf _ list (.lambda [item] _) (.root p.name) = .ok d ↔ _
    rw [hany]
    exact knownItems_eq_ok _ (by simp [soughtIn?, Expr.strip, Expr.isParam]) ht
  | anyEqualTo item =>
    change m.anyItem m.filterOf _ list (.lambda [item] _) (.root p.name) = .ok d ↔ _
    rw [hany]
    cases hitem : place.isParam item.name with
    | false => exact knownItems_eq_ok _ (soughtIn?_equalTo hitem) ht
    | true =>
      cases place with
      | param q =>
        -- The item is compared with itself, and neither side is stored.
        have hq : q.name = item.name := by simpa [Expr.isParam, Expr.strip] using hitem
        have hsought : soughtIn? .any item.name (.binary .equal (.param item) (.param q)) =
            some (.param item, false) := by
          simp [soughtIn?, Expr.strip, Expr.isParam, hq]
        rw [knownItems_eq_ok _ hsought ht]
        exact iff_of_false (not_testsFor_param ht) (not_testsFor_param (hq ▸ ht))
      | member | index => cases hitem
      | _ => cases hplace

theorem check_listTest (hplace : place.isAccess = true)
    (hlist : list.IsKnownList type (v :: values))
    (hf : m.schema.fieldPath? place = .ok (some f)) (t : ListTest) :
    (Scope.root p.name).check (t.predicate place list) = .ok () := by
  have hknown : list.isKnown = true := by rw [Expr.isKnown, hlist.known?]; rfl
  have hroot : (Scope.root p.name).check place = .ok () :=
    Scope.check_of_fieldPath? hf (isForeign_root p.name _)
  have hitem (item : Param) :
      ((Scope.root p.name).bindInner item.name .known).check place = .ok () :=
    Scope.check_of_fieldPath? hf (Scope.isForeign_known p.name item.name _)
  have hparam (item : Param) :
      ((Scope.root p.name).bindInner item.name .known).checkChain (.param item) = .ok () :=
    checkChain_of_isForeign (Scope.isForeign_known p.name item.name) _
  have hlambda : place.asLambda? = none := by
    cases place <;> first | rfl | cases hplace
  cases t with
  | contains =>
    simp only [ListTest.predicate, Scope.check, hlist.check, Scope.checkArgs, hlambda, hroot]
    rfl
  | isIn =>
    have hlist' : list.asLambda? = none := Expr.asLambda?_of_known? hlist.known?
    simp only [ListTest.predicate, Scope.check, hlist.check, Scope.checkArgs, hlist', hroot]
    rfl
  | anyEqual item | anyEqualTo item =>
    simp only [ListTest.predicate, Scope.check, hlist.check, Scope.checkArgs, hknown,
      Expr.asLambda?, if_true, Scope.checkBody, Scope.join, List.foldl_cons, List.foldl_nil,
      hitem, hparam]
    rfl

/-- **Every list test has the same filter.** -/
theorem filter_listTest_eq_ok (hplace : place.isAccess = true)
    (hlist : list.IsKnownList type (v :: values)) {t : ListTest} (ht : t.Fits p) {d : Document} :
    m.filter (.lambda [p] (t.predicate place list)) = .ok d ↔
      m.TestsFor p place type (v :: values) d := by
  rw [filter_eq_ok, filterOf_listTest hplace hlist ht, and_iff_right_iff_imp]
  rintro ⟨f, -, hf, -⟩
  exact check_listTest hplace hlist hf t

/-! ## Equality with the items -/

theorem filterOf_equal_access (hplace : place.isAccess = true)
    (hf : m.schema.fieldPath? place = .ok (some f)) (hp : f.param = p.name)
    (hbool : v.asBool? = none) {x : Value} (hx : m.schema.storedForm f ⟨v, type⟩ = .ok x) :
    m.filterOf (.binary .equal place (.literal ⟨v, type⟩)) (.root p.name) =
      .ok (test f.dotted x) := by
  have hof : Comparison.of? .equal place (.literal ⟨v, type⟩) =
      some ⟨.equal, place, ⟨v, type⟩⟩ := by
    simp [Comparison.of?, Schema.known?_of_fieldPath? hf, Expr.known?]
  have hrules : (Comparison.mk .equal place ⟨v, type⟩).firstAnswer (.root p.name)
      m.comparisonRules = .ok none := firstAnswer_of_isAccess hplace hf
  have htarget (node : Expr) : m.targetOr node place (.root p.name) =
      .ok ⟨f.path, f.type, f.representation⟩ := by
    unfold targetOr target?
    rw [hf]
    simp only [bind, Except.bind, Scope.resolve_root_eq_ok.2 ⟨hp, rfl⟩]
    rfl
  rw [filterOf_comparison rfl, comparison_of_firstAnswer hof hrules (.inr (.inl hbool))]
  exact bind_eq_ok.2 ⟨_, htarget _, bind_eq_ok.2 ⟨x, hx, rfl⟩⟩

/-- More equalities are joined to a filter by "or". -/
theorem filterOf_orEquals (hplace : place.isAccess = true)
    (hf : m.schema.fieldPath? place = .ok (some f)) (hp : f.param = p.name)
    (hbool : ∀ c ∈ values, c.asBool? = none) {items : List Value}
    (hitems : m.storedForms f type values = .ok items) {e : Expr} {d : Document}
    (he : m.filterOf e (.root p.name) = .ok d) :
    ∃ d', m.filterOf (values.foldl (fun e c =>
        .binary .orElse e (.binary .equal place (.literal ⟨c, type⟩))) e) (.root p.name) = .ok d' ∧
      ∀ w, holds w d' = (holds w d || items.any fun x => holds w (test f.dotted x)) := by
  induction values generalizing items e d with
  | nil =>
    cases hitems
    exact ⟨d, he, by simp⟩
  | cons c values ih =>
    rw [storedForms, List.mapM_cons] at hitems
    obtain ⟨x, hx, hitems⟩ := bind_eq_ok.1 hitems
    obtain ⟨xs, hxs, hitems⟩ := bind_eq_ok.1 hitems
    cases hitems
    have hequal := filterOf_equal_access hplace hf hp (hbool c (by simp)) hx
    obtain ⟨d', hd', hholds⟩ := ih (fun c' hc' => hbool c' (by simp [hc'])) hxs
      (filterOf_orElse he hequal)
    refine ⟨d', hd', fun w => ?_⟩
    rw [hholds, holds_disj]
    simp [Bool.or_assoc]

theorem check_orEquals {s : Scope} (hplace : s.check place = .ok ()) (type : ValueType)
    (values : List Value) {e : Expr} (he : s.check e = .ok ()) :
    s.check (values.foldl (fun e c =>
      .binary .orElse e (.binary .equal place (.literal ⟨c, type⟩))) e) = .ok () := by
  induction values generalizing e with
  | nil => exact he
  | cons c values ih => exact ih (check_binary _ he (check_binary _ hplace rfl))

/-- The filter of the equalities with the items of a list. -/
theorem filter_equalsOneOf (hplace : place.isAccess = true)
    (hf : m.schema.fieldPath? place = .ok (some f)) (hp : f.param = p.name)
    (hbool : ∀ c ∈ v :: values, c.asBool? = none) {items : List Value}
    (hitems : m.storedForms f type (v :: values) = .ok items) :
    ∃ d, m.filter (.lambda [p] (place.equalsOneOf type v values)) = .ok d ∧
      ∀ w, holds w d = items.any fun x => holds w (test f.dotted x) := by
  rw [storedForms, List.mapM_cons] at hitems
  obtain ⟨x, hx, hitems⟩ := bind_eq_ok.1 hitems
  obtain ⟨xs, hxs, hitems⟩ := bind_eq_ok.1 hitems
  cases hitems
  have hequal := filterOf_equal_access hplace hf hp (hbool v (by simp)) hx
  obtain ⟨d, hd, hholds⟩ := filterOf_orEquals hplace hf hp
    (fun c hc => hbool c (by simp [hc])) hxs hequal
  have hcheck := Scope.check_of_fieldPath? hf (isForeign_root p.name f.param)
  refine ⟨d, filter_eq_ok.2 ⟨check_orEquals hcheck type values ?_, hd⟩, fun w => ?_⟩
  · exact check_binary _ hcheck rfl
  · rw [hholds, List.any_cons]

/-- What is stored for a simple value is tested for equality. -/
theorem holds_test_simple {field : String → String → Value → Bool} {name : String} {x : Value}
    (hx : x.isSimple = true) (hname : isLogical name = true → ∀ inner, x ≠ .array inner) :
    holds (.ofFields field) (test name x) = field name "$eq" x := by
  by_cases harray : ∃ inner, x = .array inner
  · obtain ⟨inner, rfl⟩ := harray
    have hlogical : isLogical name = false := by
      cases h : isLogical name with
      | false => rfl
      | true => exact absurd rfl (hname h inner)
    simp only [isLogical, Bool.or_eq_false_iff, decide_eq_false_iff_not] at hlogical
    rw [test, holds_singleton]
    cases hop : isOperator name <;>
      simp [entryHolds, hlogical, hop, Valuation.ofFields, conditionHolds]
  · rw [holds_test_ofFields fun inner h => harray ⟨inner, h⟩]
    cases x <;> first | rfl | cases hx

/-- **A stored value is in a known list if it equals one of the items.** Let the items be literals
of one type that are no truth values, and neither documents nor patterns in the type of the place.
Then all list tests have the same filter or none has one. Where they have one, so do the equalities
with the items joined by "or", and both mean the same, if `$in` means to equal one of the values and
no array is stored under the name of a logical operator. -/
theorem filter_listTest (hplace : place.isAccess = true)
    (hlist : list.IsKnownList type (v :: values))
    (hbool : ∀ c ∈ v :: values, c.asBool? = none)
    (hsimple : ∀ f, m.schema.fieldPath? place = .ok (some f) →
      ∀ c ∈ v :: values, (m.schema.coerce type f.type c).isSimple = true) :
    (∀ t t' : ListTest, t.Fits p → t'.Fits p → ∀ d,
      m.filter (.lambda [p] (t.predicate place list)) = .ok d ↔
        m.filter (.lambda [p] (t'.predicate place list)) = .ok d) ∧
    ∀ t : ListTest, t.Fits p → ∀ d, m.filter (.lambda [p] (t.predicate place list)) = .ok d →
      ∃ name items, d = testOp name "$in" (.array items) ∧
        ∃ d', m.filter (.lambda [p] (place.equalsOneOf type v values)) = .ok d' ∧
          ((isLogical name = true → ∀ x ∈ items, ∀ inner, x ≠ .array inner) →
            ∀ field : String → String → Value → Bool,
              field name "$in" (.array items) = (items.any fun x => field name "$eq" x) →
              holds (.ofFields field) d' = holds (.ofFields field) d) := by
  refine ⟨fun t t' ht ht' d => ?_, fun t ht d hd => ?_⟩
  · rw [filter_listTest_eq_ok hplace hlist ht, filter_listTest_eq_ok hplace hlist ht']
  · obtain ⟨f, items, hf, hp, hitems, rfl⟩ := (filter_listTest_eq_ok hplace hlist ht).1 hd
    obtain ⟨d', hd', hholds⟩ := filter_equalsOneOf hplace hf hp hbool hitems
    have hstored : ∀ x ∈ items, x.isSimple = true :=
      (Post.mapM fun c hc => Schema.isSimple_encode (hsimple f hf c hc)).of_ok hitems
    refine ⟨f.dotted, items, rfl, d', hd', fun hname field hin => ?_⟩
    have hin' : isOperator "$in" = true := rfl
    rw [hholds, holds_testOp_ofFields hin' (by decide)]
    have hequal : (items.any fun x => holds (.ofFields field) (test f.dotted x)) =
        items.any fun x => field f.dotted "$eq" x := by
      rw [Bool.eq_iff_iff, List.any_eq_true, List.any_eq_true]
      refine exists_congr fun x => and_congr_right fun hx => ?_
      rw [holds_test_simple (hstored x hx) fun hlogical => hname hlogical x hx]
    rw [hequal, ← hin]
    rfl

/-- Sheets with scores, whose levels are stored by name, and with notes that are stored under the
name of a logical operator. -/
def sheetMapping : Mapping :=
  { schema := {
      documents := [
        { name := "Sheet"
          members := [⟨"Scores", "scores", .array (.document "Score"), .natural⟩,
            ⟨"Notes", "$or", .array (.document "Note"), .natural⟩] },
        { name := "Score", members := [⟨"Level", "level", .enumeration "Level", .string⟩] },
        { name := "Note", members := [⟨"A", "a", .int32, .natural⟩] }]
      enums := [⟨"Level", [("Low", 1), ("High", 2)]⟩] } }

/-- `x.Scores[1].Level`. -/
def secondLevel : Expr :=
  .member (.index (.member (.param ⟨"x", .document "Sheet"⟩) "Scores")
    (.literal ⟨.int32 1, .int32⟩)) "Level"

/-- `x.Notes`. -/
def sheetNotes : Expr := .member (.param ⟨"x", .document "Sheet"⟩) "Notes"

/-- An array of one note. -/
def oneNote (member : String) (n : Int32) : Value := .array [.document [(member, .int32 n)]]

/-- A level that is one of two. -/
theorem filter_listTest_secondLevel :
    sheetMapping.filter (.lambda [⟨"x", .document "Sheet"⟩]
        ((ListTest.anyEqualTo ⟨"i", .enumeration "Level"⟩).predicate secondLevel
          (.collection .array none [.literal ⟨.int32 1, .enumeration "Level"⟩,
            .literal ⟨.int32 2, .enumeration "Level"⟩]))) =
      .ok (testOp "scores.1.level" "$in" (.array [.string "Low", .string "High"])) ∧
    ∃ d', sheetMapping.filter (.lambda [⟨"x", .document "Sheet"⟩]
          (secondLevel.equalsOneOf (.enumeration "Level") (.int32 1) [.int32 2])) = .ok d' ∧
      ∀ field : String → String → Value → Bool,
        field "scores.1.level" "$in" (.array [.string "Low", .string "High"]) =
          (field "scores.1.level" "$eq" (.string "Low") ||
            field "scores.1.level" "$eq" (.string "High")) →
        holds (.ofFields field) d' = holds (.ofFields field)
          (testOp "scores.1.level" "$in" (.array [.string "Low", .string "High"])) := by
  have hlist : (Expr.collection .array none [.literal ⟨.int32 1, .enumeration "Level"⟩,
      .literal ⟨.int32 2, .enumeration "Level"⟩]).IsKnownList (.enumeration "Level")
        [.int32 1, .int32 2] := .collection .array
  have hplace : secondLevel.isAccess = true := rfl
  have hpath : sheetMapping.schema.fieldPath? secondLevel =
      .ok (some ⟨"x", ["scores", "1", "level"], .enumeration "Level", .string, true⟩) := by
    with_unfolding_all rfl
  have hbool : ∀ c ∈ [Value.int32 1, .int32 2], c.asBool? = none := by simp [Value.asBool?]
  have hsimple : ∀ f, sheetMapping.schema.fieldPath? secondLevel = .ok (some f) →
      ∀ c ∈ [Value.int32 1, .int32 2],
        (sheetMapping.schema.coerce (.enumeration "Level") f.type c).isSimple = true := by
    intro f hf c hc
    obtain rfl : _ = f := Option.some.inj (Except.ok.inj (hpath.symm.trans hf))
    simp only [List.mem_cons, List.not_mem_nil, or_false] at hc
    rcases hc with rfl | rfl <;> rfl
  have hfilter : sheetMapping.filter (.lambda [⟨"x", .document "Sheet"⟩]
      ((ListTest.anyEqualTo ⟨"i", .enumeration "Level"⟩).predicate secondLevel
        (.collection .array none [.literal ⟨.int32 1, .enumeration "Level"⟩,
          .literal ⟨.int32 2, .enumeration "Level"⟩]))) =
      .ok (testOp "scores.1.level" "$in" (.array [.string "Low", .string "High"])) := by
    with_unfolding_all rfl
  obtain ⟨name, items, hd, d', hd', hmeans⟩ :=
    (filter_listTest hplace hlist hbool hsimple).2 _ (by simp [ListTest.Fits]) _ hfilter
  obtain ⟨rfl, rfl⟩ : "scores.1.level" = name ∧ [Value.string "Low", .string "High"] = items := by
    simpa [testOp, test, Value.single] using hd
  refine ⟨hfilter, d', hd', fun field hin => hmeans (by simp [isLogical]) field ?_⟩
  simpa using hin

/-- Two arrays of notes that are stored under the name of a logical operator are taken for one list
of clauses, so that the equalities accept a document that is such a note, and refuse what the field
of that name is tested for. -/
theorem filter_listTest_sheetNotes :
    ∃ d d', sheetMapping.filter (.lambda [⟨"x", .document "Sheet"⟩]
        (ListTest.contains.predicate sheetNotes
          (.literal ⟨.array [oneNote "A" 1, oneNote "A" 2], .array (.array (.document "Note"))⟩))) =
        .ok d ∧
      sheetMapping.filter (.lambda [⟨"x", .document "Sheet"⟩]
        (sheetNotes.equalsOneOf (.array (.document "Note")) (oneNote "A" 1) [oneNote "A" 2])) =
        .ok d' ∧
      d = testOp "$or" "$in" (.array [oneNote "a" 1, oneNote "a" 2]) ∧
      d' = test "$or" (.array [.document [("a", .int32 1)], .document [("a", .int32 2)]]) ∧
      Server.equality.accepts d [("a", .int32 1)] = false ∧
      Server.equality.accepts d' [("a", .int32 1)] = true ∧
      holds (.ofFields fun name _ _ => name = "$or") d = true ∧
      holds (.ofFields fun name _ _ => name = "$or") d' = false := by
  have hclause : holds (Server.equality.reads [("a", .int32 1)]) (test "a" (.int32 1)) = true := by
    have hname : isOperator "a" = false := rfl
    rw [holds_test hname, conditionHolds_of_isPlain rfl]
    change Server.equality.passes "$eq" (.int32 1) (some (.int32 1)) = true
    simp [Server.equality]
  refine ⟨_, _, by with_unfolding_all rfl, by with_unfolding_all rfl, rfl, rfl, rfl, ?_, rfl, rfl⟩
  rw [Server.accepts, test, holds_singleton, entryHolds_or, someHolds, Bool.or_eq_true]
  exact .inl hclause

end Mapping
end DocQuery
