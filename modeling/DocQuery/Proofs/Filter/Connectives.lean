/-
The filter of a predicate that is put together with "and", "or" and "not" is the
conjunction, disjunction or complement of the filters of its parts
(`holds_filter_connectives`). A test that is compared with false has the
complement of its filter too.

Two predicates that translate can always be joined. The negation of one may be
refused, since `!` also stands for the complement of an integer's bits.
-/
import DocQuery.Proofs.Filter.Emitted

namespace DocQuery.Mapping

open DocQuery.Filter

variable {m : Mapping} {s : Scope} {p : Param}

/-- A predicate is checked first and translated then. -/
theorem filter_eq_ok {e : Expr} {d : Document} :
    m.filter (.lambda [p] e) = .ok d ↔
      (Scope.root p.name).check e = .ok () ∧ m.filterOf e (.root p.name) = .ok d := by
  change (Scope.root p.name).check e >>= (fun _ => m.filterOf e (.root p.name)) = .ok d ↔ _
  rw [bind_eq_ok]
  constructor
  · rintro ⟨⟨⟩, hcheck, hfilter⟩
    exact ⟨hcheck, hfilter⟩
  · rintro ⟨hcheck, hfilter⟩
    exact ⟨(), hcheck, hfilter⟩

theorem filter_of_check {e : Expr} (h : (Scope.root p.name).check e = .ok ()) :
    m.filter (.lambda [p] e) = m.filterOf e (.root p.name) := by
  change (Scope.root p.name).check e >>= (fun _ => m.filterOf e (.root p.name)) = _
  rw [h]
  rfl

/-- Quotations and conversions do not change a filter. -/
theorem filterOf_strip (m : Mapping) (e : Expr) (s : Scope) :
    m.filterOf e.strip s = m.filterOf e s := by
  fun_induction Expr.strip e with
  | case1 inner ih => rw [ih, filterOf_eq m (.quote inner)]; rfl
  | case2 operand type ih => rw [ih, filterOf_eq m (.convert operand type)]; rfl
  | case3 e => rfl

theorem filterOf_andAlso {l r : Expr} {dl dr : Document} (hl : m.filterOf l s = .ok dl)
    (hr : m.filterOf r s = .ok dr) : m.filterOf (.binary .andAlso l r) s = .ok (conj [dl, dr]) := by
  rw [filterOf_eq]
  simp only [filterNode, hl, hr]
  rfl

theorem filterOf_orElse {l r : Expr} {dl dr : Document} (hl : m.filterOf l s = .ok dl)
    (hr : m.filterOf r s = .ok dr) : m.filterOf (.binary .orElse l r) s = .ok (disj [dl, dr]) := by
  rw [filterOf_eq]
  simp only [filterNode, hl, hr]
  rfl

/-- The filter of a negation is the filter of what is negated twice, or a complement. -/
theorem filterOf_not_cases {e : Expr} {d : Document} (h : m.filterOf (.not e) s = .ok d) :
    (∃ inner, e.strip = .not inner ∧ m.filterOf inner s = .ok d) ∨
      ∃ d', m.filterOf e s = .ok d' ∧ d = complement d' := by
  rw [filterOf_eq] at h
  simp only [filterNode, negation] at h
  split at h
  · rename_i inner hstrip
    exact .inl ⟨inner, hstrip, h⟩
  · split at h
    · cases h
    · cases he : m.filterOf e s with
      | error err => rw [he] at h; cases h
      | ok d' => rw [he] at h; cases h; exact .inr ⟨d', rfl, rfl⟩

theorem filterOf_not {e : Expr} {d : Document} (h : m.filterOf e s = .ok d)
    (hnot : ∀ inner, e.strip ≠ .not inner) (htype : (m.schema.typeOf e).isInteger = false) :
    m.filterOf (.not e) s = .ok (complement d) := by
  rw [filterOf_eq]
  simp only [filterNode, negation]
  rw [if_neg (by simp [htype]), h]
  rfl

/-- A negation means the complement, however many negations it removes. -/
theorem holds_filterOf_not (hm : m.IsPlain) (hs : s.IsPlain) (v : Valuation) (e : Expr)
    (he : e.isPlain m.schema = true) {d d' : Document} (h : m.filterOf e s = .ok d)
    (h' : m.filterOf (.not e) s = .ok d') : holds v d' = !holds v d := by
  rcases filterOf_not_cases h' with ⟨inner, hstrip, hinner⟩ | ⟨d₁, hd₁, rfl⟩
  · have hplain := Expr.isPlain_strip he
    have hsize := e.size_strip_le
    rw [hstrip] at hplain hsize
    have hlt : inner.size < e.size := hsize
    -- `e` is the negation of `inner`, so its filter is the complement of that of `inner`.
    rw [← filterOf_strip, hstrip] at h
    rw [holds_filterOf_not hm hs v inner hplain hinner h, Bool.not_not]
  · rw [h] at hd₁
    cases hd₁
    exact (complement_spec ((isValid_filterOf hm e hs he).of_ok h)).1
termination_by e.size

/-! ## Tests compared with a truth value -/

theorem known?_of_isTest {e : Expr} (h : e.isTest = true) : e.known? = none := by
  have hstrip : e.known? = e.strip.known? := by
    fun_induction Expr.strip e with
    | case1 inner ih => exact ih h
    | case2 operand type ih => exact ih h
    | case3 e => rfl
  unfold Expr.isTest at h
  rw [hstrip]
  split at h <;> first | (rename_i he; rw [he]; rfl) | cases h

/-- A call that translates does not put a string in a case. -/
theorem letterCaseRule_of_filterOf {op : BinaryOp} {e : Expr} {d : Document}
    (hd : m.filterOf e s = .ok d) (l : Literal) : m.letterCaseRule ⟨op, e, l⟩ s = .ok none := by
  unfold letterCaseRule
  split
  · rename_i source method he
    simp only at he
    rw [← filterOf_strip, he, filterOf_eq] at hd
    simp only [filterNode, callFilter] at hd
    split at hd
    · rename_i hany
      subst hany
      rfl
    · cases hd
  · rfl

/-- Only the rule for letter case can have an answer for a test and a value that is no number. -/
theorem firstAnswer_eq_letterCaseRule {op : BinaryOp} {e : Expr} (h : e.isTest = true) {l : Literal}
    (hl : l.asInt? = none) :
    (Comparison.mk op e l).firstAnswer s m.comparisonRules = m.letterCaseRule ⟨op, e, l⟩ s := by
  have harrayLength : m.arrayLengthRule ⟨op, e, l⟩ s = .ok none := by
    unfold arrayLengthRule
    simp only [hl]
    cases e.lengthOf? <;> rfl
  have hmodulo : m.moduloRule ⟨op, e, l⟩ s = .ok none := by
    unfold moduloRule
    split
    · rename_i he
      simp only at he
      simp [Expr.isTest, he] at h
    · rfl
  have hordering : m.orderingRule ⟨op, e, l⟩ s = .ok none := by
    unfold orderingRule
    simp only [hl]
    split
    · rename_i arg _
      cases arg.known? <;> rfl
    · rfl
  have hindexOf : m.indexOfRule ⟨op, e, l⟩ s = .ok none := by
    unfold indexOfRule
    simp only [Literal.asInt64?, hl, Option.map_none]
    split
    · split <;> rfl
    · rfl
  have hcharAt : m.charAtRule ⟨op, e, l⟩ s = .ok none := by
    unfold charAtRule
    split
    · rename_i he
      simp only at he
      simp [Expr.isTest, he] at h
    · rfl
  have hstringLength : m.stringLengthRule ⟨op, e, l⟩ s = .ok none := by
    unfold stringLengthRule
    simp only [Literal.asInt64?, hl, Option.map_none, Option.bind_none]
    cases e.stringLengthOf? <;> rfl
  have hbits : m.bitsRule ⟨op, e, l⟩ s = .ok none := by
    unfold bitsRule
    split
    · rename_i he
      simp only at he
      simp [Expr.isTest, he] at h
    · rfl
  simp only [comparisonRules, Comparison.firstAnswer, harrayLength, hmodulo, hordering, hindexOf,
    hcharAt, hstringLength, hbits, bind, Except.bind, pure, Except.pure]
  cases m.letterCaseRule ⟨op, e, l⟩ s with
  | error cause => rfl
  | ok answer => cases answer <;> rfl

/-- No rule for comparisons has an answer for a test that translates and a value that is no
number. -/
theorem firstAnswer_of_isTest {op : BinaryOp} {e : Expr} (h : e.isTest = true) {d : Document}
    (hd : m.filterOf e s = .ok d) {l : Literal} (hl : l.asInt? = none) :
    (Comparison.mk op e l).firstAnswer s m.comparisonRules = .ok none := by
  rw [firstAnswer_eq_letterCaseRule h hl]
  exact letterCaseRule_of_filterOf hd l

theorem asInt?_of_asBool? {l : Literal} {x : Bool} (h : l.asBool? = some x) : l.asInt? = none := by
  obtain ⟨value, type⟩ := l
  cases value <;> simp_all [Literal.asBool?, Literal.asInt?, Value.asBool?, Value.asInt?]

/-- A test that is compared with false has the complement of its filter. -/
theorem filterOf_equal_false {e : Expr} (h : e.isTest = true) {d : Document}
    (hd : m.filterOf e s = .ok d) {l : Literal} (hl : l.asBool? = some false) :
    m.filterOf (.binary .equal e (.literal l)) s = .ok (complement d) := by
  have hint : l.asInt? = none := asInt?_of_asBool? hl
  have hof : Comparison.of? .equal e (.literal l) = some ⟨.equal, e, l⟩ := by
    simp [Comparison.of?, known?_of_isTest h, Expr.known?]
  rw [filterOf_eq]
  simp only [filterNode, BinaryOp.isComparison, if_true, comparison, hof,
    firstAnswer_of_isTest h hd hint]
  simp only [hl, h, if_true, hd]
  rfl

/-! ## Predicates -/

theorem check_binary {s : Scope} {e e' : Expr} (op : BinaryOp) (h : s.check e = .ok ())
    (h' : s.check e' = .ok ()) : s.check (.binary op e e') = .ok () := by
  simp only [Scope.check, h, h']
  rfl

/-- **Filters are built along the connectives.** Two predicates that translate can be joined by
"and" and by "or", and the filters mean that. The negation of a predicate, if it translates, means
the complement, and it does unless the predicate is a negation itself or is taken for an integer. A
test that translates can be compared with false, which means the complement too. -/
theorem holds_filter_connectives (hm : m.IsPlain) {P Q : Expr} (hP : P.isPlain m.schema = true)
    (hQ : Q.isPlain m.schema = true) {dP dQ : Document} (hdP : m.filter (.lambda [p] P) = .ok dP)
    (hdQ : m.filter (.lambda [p] Q) = .ok dQ) :
    (∃ d, m.filter (.lambda [p] (.binary .andAlso P Q)) = .ok d ∧
      ∀ v, holds v d = (holds v dP && holds v dQ)) ∧
    (∃ d, m.filter (.lambda [p] (.binary .orElse P Q)) = .ok d ∧
      ∀ v, holds v d = (holds v dP || holds v dQ)) ∧
    (∀ d, m.filter (.lambda [p] (.not P)) = .ok d → ∀ v, holds v d = !holds v dP) ∧
    ((∀ e, P.strip ≠ .not e) → (m.schema.typeOf P).isInteger = false →
      ∃ d, m.filter (.lambda [p] (.not P)) = .ok d) ∧
    (P.isTest = true → ∀ l : Literal, l.asBool? = some false →
      ∃ d, m.filter (.lambda [p] (.binary .equal P (.literal l))) = .ok d ∧
        ∀ v, holds v d = !holds v dP) := by
  have hs := Scope.isPlain_root p.name
  obtain ⟨hcP, hfP⟩ := filter_eq_ok.1 hdP
  obtain ⟨hcQ, hfQ⟩ := filter_eq_ok.1 hdQ
  have hvP : isValid dP = true := (isValid_filterOf hm P hs hP).of_ok hfP
  have hvQ : isValid dQ = true := (isValid_filterOf hm Q hs hQ).of_ok hfQ
  have hboth : ∀ c ∈ [dP, dQ], isValid c = true := by simp [hvP, hvQ]
  refine ⟨?_, ?_, ?_, ?_, ?_⟩
  · refine ⟨conj [dP, dQ], filter_eq_ok.2 ⟨check_binary _ hcP hcQ, filterOf_andAlso hfP hfQ⟩, ?_⟩
    intro v
    simpa using (conj_spec (v := v) hboth).1
  · refine ⟨disj [dP, dQ], filter_eq_ok.2 ⟨check_binary _ hcP hcQ, filterOf_orElse hfP hfQ⟩, ?_⟩
    intro v
    simpa using (disj_spec (v := v) hboth).1
  · intro d hd v
    exact holds_filterOf_not hm hs v P hP hfP (filter_eq_ok.1 hd).2
  · intro hnot htype
    exact ⟨complement dP, filter_eq_ok.2 ⟨hcP, filterOf_not hfP hnot htype⟩⟩
  · intro htest l hl
    refine ⟨complement dP, filter_eq_ok.2 ⟨check_binary _ hcP rfl, ?_⟩, ?_⟩
    · exact filterOf_equal_false htest hfP hl
    · intro v
      exact (complement_spec hvP).1

/-- The field `S` of `x` begins with a text. -/
def beginsWith (text : String) : Expr :=
  .call (.member (.param ⟨"x", .any⟩) "S") "StartsWith" [.literal ⟨.string text, .string⟩]

/-- Two tests of one field that cannot share an entry, joined, negated and compared with false. -/
theorem holds_filter_connectives_beginsWith :
    (mk {} {}).IsPlain ∧
    (mk {} {}).filter (.lambda [⟨"x", .any⟩] (beginsWith "a")) = .ok [("S", .regex "^a" "s")] ∧
    (mk {} {}).filter (.lambda [⟨"x", .any⟩] (beginsWith "b")) = .ok [("S", .regex "^b" "s")] ∧
    (∃ d, (mk {} {}).filter (.lambda [⟨"x", .any⟩]
        (.binary .andAlso (beginsWith "a") (beginsWith "b"))) = .ok d ∧
      ∀ v, holds v d = (holds v [("S", .regex "^a" "s")] && holds v [("S", .regex "^b" "s")])) ∧
    (∃ d, (mk {} {}).filter (.lambda [⟨"x", .any⟩] (.not (beginsWith "a"))) = .ok d ∧
      ∀ v, holds v d = !holds v [("S", .regex "^a" "s")]) ∧
    (∃ d, (mk {} {}).filter (.lambda [⟨"x", .any⟩]
        (.binary .equal (beginsWith "a") (.literal ⟨.bool false, .boolean⟩))) = .ok d ∧
      ∀ v, holds v d = !holds v [("S", .regex "^a" "s")]) := by
  have hm : (mk {} {}).IsPlain := by constructor <;> simp [isOperator]
  obtain ⟨hand, -, hnot, htranslates, hfalse⟩ :=
    holds_filter_connectives (p := ⟨"x", .any⟩) (P := beginsWith "a") (Q := beginsWith "b") hm rfl
      rfl rfl rfl
  obtain ⟨d, hd⟩ := htranslates (by rintro e ⟨⟩) rfl
  exact ⟨hm, rfl, rfl, hand, ⟨d, hd, hnot d hd⟩, hfalse rfl _ rfl⟩

end DocQuery.Mapping
