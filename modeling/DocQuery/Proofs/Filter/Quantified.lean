/-
Conditions on a field that stands for the same field of several items.

If such a field passes a leaf test when some item does, then a positive condition
asks for some item that meets it (`conditionHolds_any`), and one whose operators
are all opposites asks it of every item (`conditionHolds_all`). The complement of
an elementary condition is elementary again or no test of one field
(`complement_test_cases`).
-/
import DocQuery.Filter.Predicate
import DocQuery.Proofs.Filter.Meaning

namespace DocQuery.Filter

/-- Whether an operator is the opposite of another test. -/
def isOpposite (op : String) (x : Value) : Bool :=
  match op, x with
  | "$ne", _ => true
  | "$nin", _ => true
  | "$not", _ => true
  | "$exists", .bool false => true
  | _, _ => false

/-- Whether a filter is one condition whose operators are all opposites of other tests. -/
def isComplementary (d : Document) : Bool :=
  match d with
  | [(_, .document ops)] => isOperators ops && ops.all fun (op, x) => isOpposite op x
  | _ => false

/-- Whether a condition is a single test that is not the opposite of another. -/
def isPositive : Value → Bool
  | .document ops =>
    if isOperators ops then
      match ops with
      | [(op, x)] => !isOpposite op x && op ≠ "$type"
      | _ => false
    else true
  | _ => true

/-- Whether a condition has only opposites of tests that are positive. -/
def isNegative : Value → Bool
  | .document ops =>
    isOperators ops && ops.all fun (op, x) =>
      isOpposite op x && (op ≠ "$ne" || isPlain x) && (op ≠ "$not" || isPositive x)
  | _ => false

theorem isPositive_of_isPlain {x : Value} (h : isPlain x = true) : isPositive x = true := by
  cases x <;> simp_all [isPlain, isPositive]

theorem isPositive_single {op : String} {x : Value} (ho : isOpposite op x = false)
    (ht : op ≠ "$type") : isPositive (.single op x) = true := by
  simp [Value.single, isPositive, ho, ht]

theorem isComplementary_of_isNegative {name : String} {c : Value} (h : isNegative c = true) :
    isComplementary (test name c) = true := by
  cases c with
  | document ops =>
    simp only [isNegative, Bool.and_eq_true, List.all_eq_true] at h
    simp only [isComplementary, test, Bool.and_eq_true, List.all_eq_true]
    exact ⟨h.1, fun e he => (h.2 e he).1.1⟩
  | _ => cases h

theorem isComplementary_of_isPositive {name : String} {c : Value} (h : isPositive c = true) :
    isComplementary (test name c) = false := by
  cases c with
  | document ops =>
    by_cases ho : isOperators ops = true
    · simp only [isPositive, ho, if_true] at h
      split at h
      · rename_i op x
        simp only [Bool.and_eq_true, Bool.not_eq_true'] at h
        simp [isComplementary, test, h.1]
      · cases h
    · simp [isComplementary, test, ho]
  | _ => rfl

/-! ## Some item and every item -/

section Items

variable {α : Type} {items : List α} {w : α → Valuation} {v : Valuation} {name inner : String}

theorem operatorHolds_of_positive {op : String} {x : Value} (ho : isOpposite op x = false)
    (ht : op ≠ "$type") (v : Valuation) (name : String) :
    op ≠ "$not" ∧ operatorHolds v name op x = v.field name op x := by
  have hne : op ≠ "$ne" := by rintro rfl; simp [isOpposite] at ho
  have hnin : op ≠ "$nin" := by rintro rfl; simp [isOpposite] at ho
  have hnot : op ≠ "$not" := by rintro rfl; simp [isOpposite] at ho
  refine ⟨hnot, ?_⟩
  unfold operatorHolds
  rw [if_neg hne, if_neg hnin]
  split
  · rename_i b
    cases b with
    | true => simp
    | false => simp [isOpposite] at ho
  · exact absurd rfl ht
  · rfl

/-- Some item meets a positive condition. -/
theorem conditionHolds_any
    (h : ∀ op x, v.field name op x = items.any fun i => (w i).field inner op x) {c : Value}
    (hc : isPositive c = true) :
    conditionHolds v name c = items.any fun i => conditionHolds (w i) inner c := by
  cases c with
  | document ops =>
    by_cases ho : isOperators ops = true
    · simp only [isPositive, ho, if_true] at hc
      split at hc
      · rename_i op x
        simp only [Bool.and_eq_true, Bool.not_eq_true', decide_eq_true_eq] at hc
        have hop := operatorHolds_of_positive hc.1 hc.2
        simp [conditionHolds, ho, operatorsHold, (hop v name).1, (hop _ _).2, h]
      · cases hc
    · simp [conditionHolds, ho, h]
  | regex pattern options => simp [conditionHolds, h]
  | _ => simp [conditionHolds, h]

theorem all_and_all (p q : α → Bool) :
    (items.all p && items.all q) = items.all fun i => p i && q i := by
  induction items with
  | nil => rfl
  | cons i rest ih =>
    simp only [List.all_cons, ← ih]
    cases p i <;> cases q i <;> simp

/-- Every item meets a condition of opposites. -/
theorem conditionHolds_all
    (h : ∀ op x, v.field name op x = items.any fun i => (w i).field inner op x) {c : Value}
    (hc : isNegative c = true) :
    conditionHolds v name c = items.all fun i => conditionHolds (w i) inner c := by
  cases c with
  | document ops =>
    simp only [isNegative, Bool.and_eq_true] at hc
    obtain ⟨ho, hall⟩ := hc
    simp only [conditionHolds, ho, if_true]
    clear ho
    induction ops with
    | nil => simp [operatorsHold]
    | cons e rest ih =>
      obtain ⟨op, x⟩ := e
      simp only [List.all_cons, Bool.and_eq_true] at hall
      obtain ⟨⟨⟨hop, -⟩, hnot⟩, hrest⟩ := hall
      rw [operatorsHold, ih hrest]
      simp only [operatorsHold, ← all_and_all]
      congr 1
      unfold isOpposite at hop
      split at hop
      · simp [operatorHolds, h, List.all_eq_not_any_not]
      · simp [operatorHolds, h, List.all_eq_not_any_not]
      · simp [conditionHolds_any h (by simpa using hnot), List.all_eq_not_any_not]
      · simp [operatorHolds, h, List.all_eq_not_any_not]
      · cases hop
  | _ => cases hc

end Items

/-! ## Complements -/

theorem isFieldTest_nor (d : Document) : isFieldTest (nor d) = false := by
  simp [nor, test, isFieldTest, isOperator]

/-- The complement of a filter that is not the test of one field is no such test either. -/
theorem isFieldTest_complement {d : Document} (h : isFieldTest d = false) :
    isFieldTest (complement d) = false := by
  unfold complement
  split
  · rename_i name c
    split
    · split
      · simp [test, isFieldTest, isOperator]
      · simp [test, isFieldTest, isOperator]
      · exact isFieldTest_nor _
    · rename_i hn
      have hname : name = "" := by simpa [isFieldTest, hn] using h
      subst hname
      split
      · split
        · unfold complementOperators
          split
          · split <;> rfl
          · exact isFieldTest_nor _
        · rfl
      · rfl
      · rfl
  · exact isFieldTest_nor _

/-- A condition that is positive or negative. -/
def IsElementary (c : Value) : Prop := isPositive c = true ∨ isNegative c = true

theorem isElementary_ne {x : Value} (hx : isPlain x = true) : IsElementary (.single "$ne" x) :=
  .inr (by simp [Value.single, isNegative, isOperators, isOperator, isOpposite, hx])

theorem isElementary_not {c : Value} (hc : isPositive c = true) :
    IsElementary (.single "$not" c) :=
  .inr (by simp [Value.single, isNegative, isOperators, isOperator, isOpposite, hc])

theorem isElementary_nin (x : Value) : IsElementary (.single "$nin" x) :=
  .inr (by simp [Value.single, isNegative, isOperators, isOperator, isOpposite])

theorem isElementary_exists (b : Bool) : IsElementary (.single "$exists" (.bool b)) := by
  cases b with
  | true => exact .inl rfl
  | false => exact .inr rfl

/-- Complement of operators that make an elementary condition. -/
theorem complementOperators_cases {ops : Document} (ho : isOperators ops = true)
    (hc : IsElementary (.document ops)) :
    (∃ c, IsElementary c ∧ ∀ name, complementOperators name ops = test name c) ∨
      ∀ name, isFieldTest (complementOperators name ops) = false := by
  by_cases hone : ∃ op x, ops = [(op, x)]
  · obtain ⟨op, x, rfl⟩ := hone
    left
    by_cases hop : isOpposite op x = true
    · have hneg : isNegative (.document [(op, x)]) = true := by
        rcases hc with hpos | hneg
        · simp [isPositive, ho, hop] at hpos
        · exact hneg
      simp only [isNegative, List.all_cons, List.all_nil, Bool.and_true, Bool.and_eq_true] at hneg
      obtain ⟨-, ⟨-, hne⟩, hnot⟩ := hneg
      unfold isOpposite at hop
      split at hop
      · exact ⟨x, .inl (isPositive_of_isPlain (by simpa using hne)), fun _ => rfl⟩
      · exact ⟨_, .inl (isPositive_single rfl (by decide)), fun _ => rfl⟩
      · exact ⟨x, .inl (by simpa using hnot), fun _ => rfl⟩
      · exact ⟨_, isElementary_exists true, fun _ => rfl⟩
      · cases hop
    · have hpos : isPositive (.document [(op, x)]) = true := by
        rcases hc with hpos | hneg
        · exact hpos
        · simp [isNegative, hop] at hneg
      unfold complementOperators
      split
      · rename_i heq
        cases heq
        split
        · exact ⟨_, isElementary_exists _, fun _ => rfl⟩
        · exact ⟨_, isElementary_nin _, fun _ => rfl⟩
        · simp [isOpposite] at hop
        · simp [isOpposite] at hop
        · simp [isOpposite] at hop
        · exact ⟨_, isElementary_not hpos, fun _ => rfl⟩
      · rename_i hmany
        exact absurd rfl (hmany op x)
  · right
    intro name
    unfold complementOperators
    split
    · rename_i op x
      exact absurd ⟨op, x, rfl⟩ hone
    · exact isFieldTest_nor _

theorem complement_test_of_isPlain {c : Value} (hc : isPlain c = true) {name : String}
    (hn : isOperator name = false) : complement (test name c) = testOp name "$ne" c := by
  cases c <;> simp_all [isPlain, complement, test, testOp]

/-- The complement of an elementary condition is elementary, or no test of one field. -/
theorem complement_test_cases {c : Value} (hc : IsElementary c) :
    (∃ c', IsElementary c' ∧
      ∀ name, isOperator name = false → complement (test name c) = test name c') ∨
    ∀ name, isOperator name = false → isFieldTest (complement (test name c)) = false := by
  by_cases hplain : isPlain c = true
  · exact .inl ⟨_, isElementary_ne hplain, fun _ hn => complement_test_of_isPlain hplain hn⟩
  · cases c with
    | document ops =>
      have ho : isOperators ops = true := by simpa [isPlain] using hplain
      have hcomplement (name : String) (hn : isOperator name = false) :
          complement (test name (.document ops)) = complementOperators name ops := by
        simp [complement, test, hn, ho]
      rcases complementOperators_cases ho hc with ⟨c', hc', heq⟩ | hnone
      · exact .inl ⟨c', hc', fun name hn => (hcomplement name hn).trans (heq name)⟩
      · exact .inr fun name hn => hcomplement name hn ▸ hnone name
    | regex pattern options =>
      refine .inl ⟨_, isElementary_not (c := .regex pattern options) rfl, fun name hn => ?_⟩
      simp [complement, test, testOp, hn]
    | _ => simp [isPlain] at hplain

end DocQuery.Filter
