/-
When a literal that a stored field is compared with is tested for equality.

The filters of `x.F == v` and of `!(x.F != v)` are the entry of the field with the
stored form of `v`. The database reads such an entry as equality unless the value
is a document of operators or a regular expression (`isPlain`), so those are the
literals for which the filter says something else (`accepts_equal_literal`): no
reading of the operators makes it equality, since the operands in a value are
smaller than the value (`exists_accepts_ne`). A member named `HasValue` that is
compared with a truth value is asked whether it is true (`filter_equal_test`).
-/
import DocQuery.Proofs.Filter.Collapse
import DocQuery.Proofs.Filter.Comparison

namespace DocQuery

open DocQuery.Filter

/-! ## Tests that do not ask for equality with large values -/

namespace Filter

variable {v v' : Valuation} {name : String} {n : Nat}

/-- Answers to the leaf tests of a field that differ at most in which large values it equals. -/
def AgreeBelow (n : Nat) (name : String) (v v' : Valuation) : Prop :=
  ∀ op x, (op = "$eq" → sizeOf x < n) → v.field name op x = v'.field name op x

theorem operatorHolds_congr (h : AgreeBelow n name v v') (op : String) {x : Value}
    (hx : sizeOf x < n) : operatorHolds v name op x = operatorHolds v' name op x := by
  unfold operatorHolds
  split
  · rw [h "$eq" x fun _ => hx]
  · split
    · rw [h "$in" x (by simp)]
    · split
      · rw [h "$exists" _ (by simp)]
      · rw [h "$type" _ (by simp)]
      · rw [h op x fun _ => hx]

mutual
theorem conditionHolds_congr (h : AgreeBelow n name v v') : ∀ c : Value, sizeOf c < n →
    conditionHolds v name c = conditionHolds v' name c
  | .document ops, hc => by
    simp only [conditionHolds]
    rw [operatorsHold_congr h ops (by simp at hc; omega), h "$eq" _ fun _ => hc]
  | .regex pattern options, _ => h "$regex" _ (by simp)
  | .null, hc | .bool _, hc | .int32 _, hc | .int64 _, hc | .double _, hc | .string _, hc
  | .array _, hc | .objectId _, hc | .dateTime _, hc | .decimal _, hc | .binary _, hc
  | .timestamp .., hc | .symbol _, hc | .javaScript _, hc | .minKey, hc | .maxKey, hc
  | .undefined, hc => h "$eq" _ fun _ => hc
theorem operatorsHold_congr (h : AgreeBelow n name v v') : ∀ ops : List (String × Value),
    sizeOf ops < n → operatorsHold v name ops = operatorsHold v' name ops
  | [], _ => rfl
  | (op, x) :: rest, hops => by
    simp only [List.cons.sizeOf_spec, Prod.mk.sizeOf_spec] at hops
    simp only [operatorsHold]
    rw [conditionHolds_congr h x (by omega), operatorHolds_congr h op (by omega),
      operatorsHold_congr h rest (by omega)]
end

/-- A value that is no equality test does not ask for equality with itself. -/
theorem conditionHolds_congr_self {c : Value} (h : AgreeBelow (sizeOf c) name v v')
    (hc : isPlain c = false) : conditionHolds v name c = conditionHolds v' name c := by
  cases c with
  | document ops =>
    have hops : isOperators ops = true := by simpa [isPlain] using hc
    simp only [conditionHolds, hops, if_true]
    exact operatorsHold_congr h ops (by simp)
  | regex pattern options => exact h "$regex" _ (by simp)
  | _ => cases hc

end Filter

/-! ## A server that compares literally -/

namespace Server

/-- A field equals its value and no other; a missing one equals null. -/
def ComparesLiterally (srv : Server) : Prop :=
  ∀ x stored, srv.passes "$eq" x stored = true ↔ stored.getD .null = x

theorem comparesLiterally_equality : equality.ComparesLiterally := by
  simp [ComparesLiterally, equality]

end Server

theorem follow_nest {path : List String} (hne : path ≠ []) (v : Value) :
    follow (.document (nest path v)) path = some v := by
  fun_induction nest path v with
  | case1 => exact absurd rfl hne
  | case2 key v => simp [follow_document, Document.get?]
  | case3 key path v hpath ih => simpa [follow_document, Document.get?] using ih hpath

/-- What a document with just one field passes. -/
theorem reads_equality_nest {name : String} {w : Value} (hw : ∀ items, w ≠ .array items)
    (op : String) (x : Value) : (Server.equality.reads (nest (steps name) w)).field name op x =
      Server.equality.passes op x (some w) := by
  have hfollow := follow_nest (steps_ne_nil name) w
  rw [← hfollow]
  refine Server.equality.atDocument_of_follow (steps_ne_nil name) (fun items => ?_) op x
  rw [hfollow]
  simpa using hw items

/-- A value and a larger one equal none of the values that are smaller than both. -/
theorem agreeBelow_nest (name : String) {c : Value} (hc : ∀ items, c ≠ .array items) :
    AgreeBelow (sizeOf c) name (Server.equality.reads (nest (steps name) c))
      (Server.equality.reads (nest (steps name) (.document [("", c)]))) := by
  intro op x hx
  rw [reads_equality_nest hc, reads_equality_nest (by simp)]
  simp only [Server.equality, Option.getD_some]
  by_cases hop : op = "$eq"
  · have hlt := hx hop
    have hne : c ≠ x := by rintro rfl; omega
    have hne' : Value.document [("", c)] ≠ x := by rintro rfl; simp at hlt; omega
    simp [hne, hne']
  · simp [hop]

/-- **What is no equality test never asks for equality.** On some document, a server that compares
literally answers otherwise. -/
theorem exists_accepts_ne {name : String} (hname : isOperator name = false) {c : Value}
    (hc : isPlain c = false) :
    ∃ (srv : Server) (d : Document), srv.ComparesLiterally ∧
      (∀ items, follow (.document d) (steps name) ≠ some (.array items)) ∧
      srv.accepts (test name c) d ≠
        srv.passes "$eq" c (follow (.document d) (steps name)) := by
  -- The value itself and a larger one are told apart by equality, and by nothing the filter asks.
  have hself : ∀ items, c ≠ .array items := by rintro items rfl; cases hc
  have hsame := conditionHolds_congr_self (agreeBelow_nest name hself) hc
  have hdiffer : Server.equality.passes "$eq" c (some c) ≠
      Server.equality.passes "$eq" c (some (.document [("", c)])) := by
    have hne : Value.document [("", c)] ≠ c := by
      intro h
      have := congrArg sizeOf h
      simp at this
      omega
    simp [Server.equality, hne]
  have hfollow (w : Value) : follow (.document (nest (steps name) w)) (steps name) = some w :=
    follow_nest (steps_ne_nil name) w
  by_cases h : conditionHolds (Server.equality.reads (nest (steps name) c)) name c =
      Server.equality.passes "$eq" c (some c)
  · refine ⟨.equality, nest (steps name) (.document [("", c)]), Server.comparesLiterally_equality,
      by simp [hfollow], ?_⟩
    rw [Server.accepts, holds_test hname, hfollow, ← hsame, h]
    exact hdiffer
  · refine ⟨.equality, nest (steps name) c, Server.comparesLiterally_equality,
      by simpa [hfollow] using hself, ?_⟩
    rwa [Server.accepts, holds_test hname, hfollow]

/-! ## Literals -/

namespace Mapping

variable {m : Mapping} {e : Expr} {f : FieldPath} {p : Param} {l : Literal} {v : Value}

theorem of?_chain (h : m.schema.chain? e = some f) (op : BinaryOp) :
    Comparison.of? op e (.literal l) = some ⟨op, e, l⟩ := by
  simp [Comparison.of?, Schema.known?_of_chain? h, Expr.known?]

theorem complement_testOp_ne {name : String} (hname : isOperator name = false) (v : Value) :
    complement (testOp name "$ne" v) = test name v := by
  have hne : isOperator "$ne" = true := rfl
  simp [testOp, test, Value.single, complement, hname, isOperators, hne, complementOperators]

theorem complement_test_bool {name : String} (hname : isOperator name = false) (b : Bool) :
    complement (test name (.bool b)) = testOp name "$ne" (.bool b) := by
  simp [test, testOp, Value.single, complement, hname]

/-- The filters of an equality and of a negated inequality, if they are one. -/
theorem filter_of_comparisons (h : m.schema.chain? e = some f) {q q' : Document}
    (hequal : m.filterOf (.binary .equal e (.literal l)) (.root p.name) = .ok q)
    (hne : m.filterOf (.binary .notEqual e (.literal l)) (.root p.name) = .ok q')
    (hq : complement q' = q) :
    m.filter (.lambda [p] (.binary .equal e (.literal l))) = .ok q ∧
    m.filter (.lambda [p] (.not (.binary .notEqual e (.literal l)))) = .ok q := by
  have hcheck := check_chain h p.name
  have hnot := filterOf_not hne (by rintro inner ⟨⟩) rfl
  rw [hq] at hnot
  exact ⟨filter_eq_ok.2 ⟨check_binary _ hcheck rfl, hequal⟩,
    filter_eq_ok.2 ⟨check_binary .notEqual hcheck rfl, hnot⟩⟩

/-- A chain that is compared with a literal for equality, or for inequality and that negated, gives
the entry of its field with the stored form of the literal. -/
theorem filter_equal_literal (he : m.schema.Reads e f) (hp : f.param = p.name)
    (hv : m.schema.storedForm f l = .ok v) (htest : e.isTest = false ∨ l.asBool? = none) :
    m.filter (.lambda [p] (.binary .equal e (.literal l))) = .ok (test f.dotted v) ∧
    m.filter (.lambda [p] (.not (.binary .notEqual e (.literal l)))) = .ok (test f.dotted v) := by
  have hcompare (op : BinaryOp) {q : Document} (hop : op.isComparison = true)
      (hq : comparison? f.dotted op v = some q) :
      m.filterOf (.binary op e (.literal l)) (.root p.name) = .ok q := by
    rw [filterOf_comparison hop, comparison_chain he.chain (of?_chain he.chain op)
      (htest.imp_right .inl), plainComparison_chain he.chain hp]
    exact bind_eq_ok.2 ⟨v, hv, by rw [hq]⟩
  exact filter_of_comparisons he.chain (hcompare .equal rfl rfl) (hcompare .notEqual rfl rfl)
    (complement_testOp_ne he.name v)

/-- A member that is taken for a test is asked whether it is true. -/
theorem filter_equal_test (he : m.schema.Reads e f) (hp : f.param = p.name)
    (htype : f.type.isBoolean = true ∨ f.type.underlying = .any) (htest : e.isTest = true)
    {b : Bool} (hb : l.asBool? = some b) :
    ∃ q, m.filter (.lambda [p] (.binary .equal e (.literal l))) = .ok q ∧
      m.filter (.lambda [p] (.not (.binary .notEqual e (.literal l)))) = .ok q ∧
      ∀ (srv : Server) (d : Document), srv.accepts q d =
        ((srv.reads d).field f.dotted "$eq" (.bool true) == b) := by
  have hcompare (op : BinaryOp) (hop : op = .equal ∨ op = .notEqual) :
      m.filterOf (.binary op e (.literal l)) (.root p.name) =
        .ok (if b == (op = .equal) then test f.dotted (.bool true)
          else testOp f.dotted "$ne" (.bool true)) := by
    have hcomparison : op.isComparison = true := by rcases hop with rfl | rfl <;> rfl
    rw [filterOf_comparison hcomparison, comparison_test he.chain (of?_chain he.chain op) htest hb
      hop, filterOf_chain he.chain hp, if_pos htype, ← complement_test_bool he.name]
    rfl
  have hholds (srv : Server) (d : Document) : srv.accepts (test f.dotted (.bool true)) d =
      (srv.reads d).field f.dotted "$eq" (.bool true) := by
    rw [Server.accepts, holds_test he.name, conditionHolds_of_isPlain rfl]
  cases b with
  | true =>
    obtain ⟨hequal, hnot⟩ := filter_of_comparisons he.chain (hcompare .equal (.inl rfl))
      (hcompare .notEqual (.inr rfl)) (complement_testOp_ne he.name _)
    exact ⟨_, hequal, hnot, fun srv d => by simp [hholds]⟩
  | false =>
    obtain ⟨hequal, hnot⟩ := filter_of_comparisons he.chain (hcompare .equal (.inl rfl))
      (hcompare .notEqual (.inr rfl)) (complement_test_bool he.name true)
    refine ⟨_, hequal, hnot, fun srv d => ?_⟩
    have hne : isOperator "$ne" = true := rfl
    change srv.accepts (testOp f.dotted "$ne" (.bool true)) d = _
    rw [Server.accepts, holds_testOp he.name hne]
    simp [operatorHolds]

/-- **A literal is tested for equality unless it reads as a condition.** The filters of `e == l` and
of `!(e != l)` are one. If the stored form of the literal is no regular expression and no document
of operators, a document whose field is no array passes exactly if the field equals the stored
form, on every server. For any other stored form that is not so, even on a server that compares
literally. A member that is taken for a test passes `== false` if it does not equal true. -/
theorem accepts_equal_literal (he : m.schema.Reads e f) (hp : f.param = p.name)
    (hv : m.schema.storedForm f l = .ok v)
    (htype : e.isTest = true → l.asBool?.isSome = true →
      f.type.isBoolean = true ∨ f.type.underlying = .any) :
    ∃ q, m.filter (.lambda [p] (.binary .equal e (.literal l))) = .ok q ∧
      m.filter (.lambda [p] (.not (.binary .notEqual e (.literal l)))) = .ok q ∧
      ((e.isTest = false ∨ l.asBool? = none) →
        (isPlain v = true → ∀ (srv : Server) (d : Document),
          (∀ items, follow (.document d) (steps f.dotted) ≠ some (.array items)) →
          srv.accepts q d = srv.passes "$eq" v (follow (.document d) (steps f.dotted))) ∧
        (isPlain v = false → ∃ (srv : Server) (d : Document), srv.ComparesLiterally ∧
          (∀ items, follow (.document d) (steps f.dotted) ≠ some (.array items)) ∧
          srv.accepts q d ≠ srv.passes "$eq" v (follow (.document d) (steps f.dotted)))) ∧
      ∀ b, e.isTest = true → l.asBool? = some b → ∀ (srv : Server) (d : Document),
        (∀ items, follow (.document d) (steps f.dotted) ≠ some (.array items)) →
        srv.accepts q d =
          (srv.passes "$eq" (.bool true) (follow (.document d) (steps f.dotted)) == b) := by
  have hfield (srv : Server) (d : Document)
      (hd : ∀ items, follow (.document d) (steps f.dotted) ≠ some (.array items)) (x : Value) :
      (srv.reads d).field f.dotted "$eq" x =
        srv.passes "$eq" x (follow (.document d) (steps f.dotted)) :=
    srv.atDocument_of_follow (steps_ne_nil f.dotted) hd "$eq" x
  by_cases htest : e.isTest = false ∨ l.asBool? = none
  · obtain ⟨hequal, hnot⟩ := filter_equal_literal he hp hv htest
    refine ⟨test f.dotted v, hequal, hnot,
      fun _ => ⟨fun hplain srv d hd => ?_, exists_accepts_ne he.name⟩, fun b htrue hb => ?_⟩
    · rw [Server.accepts, holds_test he.name, conditionHolds_of_isPlain hplain, hfield srv d hd]
    · simp [htrue, hb] at htest
  · obtain ⟨htrue, hsome⟩ := not_or.1 htest
    have htrue : e.isTest = true := by simpa using htrue
    obtain ⟨b, hb⟩ := Option.ne_none_iff_exists'.1 hsome
    obtain ⟨q, hequal, hnot, haccepts⟩ :=
      filter_equal_test he hp (htype htrue (by simp [hb])) htrue hb
    refine ⟨q, hequal, hnot, fun h => absurd h htest, ?_⟩
    rintro b' - hb' srv d hd
    rw [hb] at hb'
    cases hb'
    rw [haccepts, hfield srv d hd]

/-- A literal document with an operator in it, but not only operators. -/
def mixedKeys : Literal := ⟨.document [("a", .int32 1), ("$gt", .int32 2)], .any⟩

theorem accepts_equal_literal_mixedKeys :
    isPlain mixedKeys.value = true ∧
    ∃ q, (mk {} {}).filter (.lambda [⟨"x", .any⟩]
        (.binary .equal (.fieldOfParam "x" "F") (.literal mixedKeys))) = .ok q ∧
      (mk {} {}).filter (.lambda [⟨"x", .any⟩]
        (.not (.binary .notEqual (.fieldOfParam "x" "F") (.literal mixedKeys)))) = .ok q ∧
      ∀ srv : Server, srv.accepts q [("F", mixedKeys.value)] =
        srv.passes "$eq" mixedKeys.value (some mixedKeys.value) := by
  have hplain : isPlain mixedKeys.value = true := rfl
  obtain ⟨q, hequal, hnot, hpasses, -⟩ :=
    accepts_equal_literal (m := mk {} {}) (e := .fieldOfParam "x" "F") (p := ⟨"x", .any⟩)
      (l := mixedKeys) ⟨rfl, by simp [FieldPath.step], rfl⟩ rfl rfl (by rintro ⟨⟩)
  have hstored : follow (.document [("F", mixedKeys.value)]) (steps "F") =
      some mixedKeys.value := rfl
  refine ⟨hplain, q, hequal, hnot, fun srv => ?_⟩
  have h := (hpasses (.inl rfl)).1 hplain srv [("F", mixedKeys.value)]
  rw [show FieldPath.dotted _ = "F" from rfl, hstored] at h
  exact h (by rintro items ⟨⟩)

/-- The literal document `{$gt: 1}`. -/
def operatorDocument : Literal := ⟨.document [("$gt", .int32 1)], .any⟩

/-- A server that compares 32-bit integers with each other and with nothing else. -/
def integerServer : Server where
  passes op x stored :=
    match op, x, stored with
    | "$eq", .int32 a, some (.int32 b) => b = a
    | "$gt", .int32 a, some (.int32 b) => b > a
    | _, _, _ => false

/-- The filter of `x.F == v` for the document `v = {$gt: 1}` accepts the number 5, and so does that
of `!(x.F != v)`: the literal has become an operator. -/
theorem accepts_five_operatorDocument :
    ∃ q, (mk {} {}).filter (.lambda [⟨"x", .any⟩]
        (.binary .equal (.fieldOfParam "x" "F") (.literal operatorDocument))) = .ok q ∧
      (mk {} {}).filter (.lambda [⟨"x", .any⟩]
        (.not (.binary .notEqual (.fieldOfParam "x" "F") (.literal operatorDocument)))) = .ok q ∧
      integerServer.accepts q [("F", .int32 5)] = true ∧
      integerServer.passes "$eq" operatorDocument.value (some (.int32 5)) = false :=
  ⟨test "F" operatorDocument.value, rfl, rfl, by decide, rfl⟩

end Mapping
end DocQuery
