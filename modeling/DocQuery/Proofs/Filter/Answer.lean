/-
Filters that a rule for comparisons answers with, and what they ask of one field.

A comparison with a constant has the same filter in either order of its sides, and
this is the answer of the first rule that has one (`filter_of_answer`); if none has one,
only tests and stored places can be compared (`filter_of_unstored`). What a filter asks
of a field is read with every name taken for that of a field, whatever it begins
with (`Valuation.ofFields`).
-/
import DocQuery.Proofs.Filter.Literal
import DocQuery.Proofs.Filter.TextMatch
import DocQuery.Proofs.Scope.Stored

namespace DocQuery

open DocQuery.Filter

/-! ## Relations -/

namespace BinaryOp

/-- The relation between two numbers that an operator asks for. -/
def Relates : BinaryOp → Int → Int → Prop
  | equal, a, b => a = b
  | notEqual, a, b => a ≠ b
  | greater, a, b => a > b
  | greaterOrEqual, a, b => a ≥ b
  | less, a, b => a < b
  | lessOrEqual, a, b => a ≤ b
  | _, _, _ => False

@[simp] theorem flip_flip (op : BinaryOp) : op.flip.flip = op := by
  cases op <;> rfl

theorem relates_flip (op : BinaryOp) (a b : Int) : op.flip.Relates a b ↔ op.Relates b a := by
  cases op <;> simp [Relates, flip, eq_comm]

theorem isComparison_flip (op : BinaryOp) : op.flip.isComparison = op.isComparison := by
  cases op <;> rfl

end BinaryOp

/-! ## Answers of rules -/

namespace Comparison

variable {c : Comparison} {s : Scope}

/-- Rules without an answer can be left out. -/
theorem firstAnswer_append {before after : List Rule} (h : ∀ r ∈ before, r c s = .ok none) :
    c.firstAnswer s (before ++ after) = c.firstAnswer s after := by
  induction before with
  | nil => rfl
  | cons r before ih =>
    simp only [List.cons_append, firstAnswer, h r (by simp)]
    exact ih fun r' hr' => h r' (by simp [hr'])

/-- The answer of a rule, if those before it have none. -/
theorem firstAnswer_of_rule {before after : List Rule} {rule : Rule} {q : Document}
    (hbefore : ∀ r ∈ before, r c s = .ok none) (hrule : rule c s = .ok (some q)) :
    c.firstAnswer s (before ++ rule :: after) = .ok (some q) := by
  rw [firstAnswer_append hbefore]
  simp only [firstAnswer, hrule]
  rfl

theorem firstAnswer_singleton (rule : Rule) : c.firstAnswer s [rule] = rule c s := by
  simp only [firstAnswer]
  cases rule c s with
  | error e => rfl
  | ok answer => cases answer <;> rfl

/-- What is not known is compared with what is, on whichever side it stands. -/
theorem of?_of_unknown {left : Expr} (h : left.known? = none) (op : BinaryOp) (right : Expr) :
    of? op left right = right.known?.map (mk op left) ∧
      of? op.flip right left = right.known?.map (mk op left) := by
  cases hright : right.known? <;> simp [of?, h, hright]

end Comparison

namespace Mapping

variable {m : Mapping} {p : Param} {left right : Expr} {l : Literal} {op : BinaryOp} {q : Document}

theorem comparison_of_answer {sub : Expr → Scope → Result Document} {node : Expr} {s : Scope}
    {c : Comparison} (hof : Comparison.of? op left right = some c)
    (h : c.firstAnswer s m.comparisonRules = .ok (some q)) :
    m.comparison sub node op left right s = .ok q := by
  unfold comparison
  simp only [hof, h]
  rfl

/-- What is compared with a constant has the filter that the rules answer with, on whichever side
the constant stands. -/
theorem filter_of_answer (hop : op.isComparison = true) (hknown : left.known? = none)
    (hcheck : (Scope.root p.name).check left = .ok ())
    (hright : (Scope.root p.name).Constant right l)
    (h : (Comparison.mk op left l).firstAnswer (.root p.name) m.comparisonRules = .ok (some q)) :
    m.filter (.lambda [p] (.binary op left right)) = .ok q ∧
      m.filter (.lambda [p] (.binary op.flip right left)) = .ok q := by
  obtain ⟨hof, hof'⟩ := Comparison.of?_of_unknown hknown op right
  rw [hright.known, Option.map_some] at hof hof'
  constructor
  · rw [filter_of_check (check_binary op hcheck hright.check), filterOf_comparison hop]
    exact comparison_of_answer hof h
  · rw [filter_of_check (check_binary op.flip hright.check hcheck),
      filterOf_comparison ((BinaryOp.isComparison_flip op).trans hop)]
    exact comparison_of_answer hof' h

theorem comparison_of_unstored {sub : Expr → Scope → Result Document} {node : Expr} {s : Scope}
    (h : ∀ c, Comparison.of? op left right = some c →
      c.firstAnswer s m.comparisonRules = .ok none ∧ c.left.isTest = false ∧
        m.schema.fieldPath? c.left = .ok none) :
    m.comparison sub node op left right s = .error (.unsupported node) := by
  cases hof : Comparison.of? op left right with
  | none =>
    unfold comparison
    simp only [hof]
    rfl
  | some c =>
    obtain ⟨hrules, htest, hfield⟩ := h c hof
    rw [comparison_of_firstAnswer hof hrules (.inl htest)]
    unfold plainComparison targetOr target?
    simp only [hfield]
    rfl

/-- What is neither known nor a test nor a stored place, and what no rule has an answer for, cannot
be compared, on whichever side it stands. -/
theorem filter_of_unstored (hop : op.isComparison = true) (hknown : left.known? = none)
    (htest : left.isTest = false) (hfield : m.schema.fieldPath? left = .ok none)
    (hcheck : (Scope.root p.name).check left = .ok ())
    (hright : (Scope.root p.name).check right = .ok ())
    (h : ∀ l, right.known? = some l →
      (Comparison.mk op left l).firstAnswer (.root p.name) m.comparisonRules = .ok none) :
    m.filter (.lambda [p] (.binary op left right)) =
        .error (.unsupported (.binary op left right)) ∧
      m.filter (.lambda [p] (.binary op.flip right left)) =
        .error (.unsupported (.binary op.flip right left)) := by
  obtain ⟨hof, hof'⟩ := Comparison.of?_of_unknown hknown op right
  have hunstored (c : Comparison) (hc : right.known?.map (Comparison.mk op left) = some c) :
      c.firstAnswer (.root p.name) m.comparisonRules = .ok none ∧ c.left.isTest = false ∧
        m.schema.fieldPath? c.left = .ok none := by
    obtain ⟨l, hl, rfl⟩ := Option.map_eq_some_iff.1 hc
    exact ⟨h l hl, htest, hfield⟩
  constructor
  · rw [filter_of_check (check_binary op hcheck hright), filterOf_comparison hop]
    exact comparison_of_unstored (hof ▸ hunstored)
  · rw [filter_of_check (check_binary op.flip hright hcheck),
      filterOf_comparison ((BinaryOp.isComparison_flip op).trans hop)]
    exact comparison_of_unstored (hof' ▸ hunstored)

end Mapping

/-! ## Expressions around the compared one -/

/-- Quotations and conversions do not make an expression known. -/
theorem Expr.known?_strip (e : Expr) : e.strip.known? = e.known? := by
  fun_induction Expr.strip e with
  | case1 inner ih => exact ih
  | case2 operand type ih => exact ih
  | case3 => rfl

/-- Nor do they matter to the check where no parameter is that of an enclosing lambda. -/
theorem Scope.check_strip {s : Scope} (hs : ∀ name, s.isForeign name = false) (e : Expr) :
    s.check e.strip = s.check e := by
  fun_induction Expr.strip e with
  | case1 inner ih =>
    simp only [ih, check, Mapping.checkChain_of_isForeign hs]
    rfl
  | case2 operand type ih =>
    simp only [ih, check, Mapping.checkChain_of_isForeign hs]
    rfl
  | case3 => rfl

/-- And they do not change the place that is read. -/
theorem Schema.fieldPath?_strip (s : Schema) (e : Expr) :
    s.fieldPath? e.strip = s.fieldPath? e := by
  fun_induction Expr.strip e with
  | case1 inner ih => rw [ih, fieldPath?]
  | case2 operand type ih => rw [ih, fieldPath?]
  | case3 => rfl

/-! ## Lengths -/

section Length
variable {left e : Expr}

/-- A length is a member of the sequence, or a count of it. -/
theorem Expr.strip_of_lengthOf? (h : left.lengthOf? = some e) :
    (∃ name, left.strip = .member e name) ∨ left.strip = .call e "Count" [] := by
  unfold Expr.lengthOf? at h
  split at h
  · rename_i target name hstrip
    split at h
    · cases h
      exact .inl ⟨name, hstrip⟩
    · cases h
  · rename_i target method hstrip
    split at h
    · rename_i hmethod
      cases h
      exact .inr (hmethod ▸ hstrip)
    · cases h
  · cases h

theorem Expr.known?_of_lengthOf? (h : left.lengthOf? = some e) : left.known? = none := by
  rw [← Expr.known?_strip]
  rcases Expr.strip_of_lengthOf? h with ⟨name, hstrip⟩ | hstrip <;> rw [hstrip] <;> rfl

/-- The length of what reads a stored place passes the check. -/
theorem Scope.check_of_lengthOf? {schema : Schema} {f : FieldPath} (param : String)
    (hf : schema.fieldPath? e = .ok (some f)) (h : left.lengthOf? = some e) :
    (root param).check left = .ok () := by
  have hforeign := Mapping.isForeign_root param
  have he := check_of_fieldPath? hf (hforeign f.param)
  rw [← check_strip hforeign]
  rcases Expr.strip_of_lengthOf? h with ⟨name, hstrip⟩ | hstrip
  · rw [hstrip]
    simp only [check, Mapping.checkChain_of_isForeign hforeign, he]
    rfl
  · rw [hstrip]
    simp only [check, he, checkArgs]
    rfl

end Length

/-! ## Tests of one field -/

namespace Filter

/-- Answers to the tests of fields, every name being that of one. -/
def Valuation.ofFields (field : String → String → Value → Bool) : Valuation where
  field := field
  whole name c := conditionHolds ⟨field, fun _ _ => false⟩ name c

variable {field : String → String → Value → Bool} {name : String}

/-- A condition is one on the field that its name stands for. -/
theorem holds_test_ofFields {c : Value} (hc : ∀ items, c ≠ .array items) :
    holds (.ofFields field) (test name c) = conditionHolds (.ofFields field) name c := by
  have hagree : AgreeBelow (sizeOf c + 1) name ⟨field, fun _ _ => false⟩ (.ofFields field) :=
    fun _ _ _ => rfl
  have hsame := conditionHolds_congr hagree c (by omega)
  rw [test, holds_singleton]
  cases hop : isOperator name with
  | false => exact entryHolds_field hop c
  | true =>
    -- The name begins like that of an operator, but is asked about as a field all the same.
    rw [← hsame]
    cases c with
    | array items => exact absurd rfl (hc items)
    | _ => simp [entryHolds, hop, Valuation.ofFields]

theorem holds_testOp_ofFields {op : String} (hop : isOperator op = true) (hnot : op ≠ "$not")
    (x : Value) :
    holds (.ofFields field) (testOp name op x) = operatorHolds (.ofFields field) name op x := by
  rw [testOp, holds_test_ofFields (by simp [Value.single])]
  simp [Value.single, conditionHolds, isOperators, hop, operatorsHold, hnot]

theorem holds_never {v : Valuation} : holds v never = false := by
  have hid : isOperator "_id" = false := rfl
  have htype : isOperator "$type" = true := rfl
  rw [never, holds_singleton, entryHolds_field hid]
  simp [Value.single, conditionHolds, isOperators, htype, operatorsHold, operatorHolds]

/-- The complement of a pattern test, whatever the name of the field. -/
theorem holds_complement_regex {v : Valuation} (pattern options : String) :
    holds v (complement (test name (.regex pattern options))) =
      !holds v (test name (.regex pattern options)) := by
  have hnot : isOperator "$not" = true := rfl
  cases hop : isOperator name with
  | false =>
    simp [test, complement, hop, testOp, Value.single, entryHolds_field hop, conditionHolds,
      isOperators, hnot, operatorsHold]
  | true => simp [test, complement, hop, nor, someHolds]

/-! ## Strings -/

/-- A pattern with the letter `s` has a reading, and this is found in a string. -/
def FindsIn (x : Value) (subject : String) : Prop :=
  ∃ pattern r, x = .regex pattern "s" ∧ Pattern.Regex.read? pattern = some r ∧
    r.FoundIn subject.toList

noncomputable instance (x : Value) (subject : String) : Decidable (FindsIn x subject) :=
  Classical.propDecidable _

/-- Answers about a document in which a field has a string. -/
noncomputable def Valuation.ofText (name subject : String) : Valuation :=
  .ofFields fun tested op x => decide (tested = name ∧ op = "$regex" ∧ FindsIn x subject)

theorem holds_ofText {pattern : String} {r : Pattern.Regex}
    (h : Pattern.Regex.read? pattern = some r) (subject : String) :
    holds (.ofText name subject) (test name (.regex pattern "s")) = true ↔
      r.FoundIn subject.toList := by
  rw [Valuation.ofText, holds_test_ofFields (by simp), conditionHolds, Valuation.ofFields,
    decide_eq_true_iff]
  constructor
  · intro hfinds
    obtain ⟨-, -, pattern', r', heq, hr, hfound⟩ := hfinds
    cases heq
    cases h.symm.trans hr
    exact hfound
  · intro hfound
    exact ⟨rfl, rfl, pattern, r, rfl, h, hfound⟩

end Filter
end DocQuery
