/-
The same test in two scopes: one in which the parameter stands for the tested
document, and one in which it stands for what is below a path.

The filters differ in the name of the tested field only (`Relocated`), and the
condition on it is elementary. This holds of tests that ask nothing about the
items of a collection (`relocated_filterOf`); there is one lemma for each way to
build such a filter.
-/
import DocQuery.Proofs.Filter.Emitted
import DocQuery.Proofs.Filter.Quantified

namespace DocQuery

open DocQuery.Filter

/-- The same place below a path. -/
def Target.below (base : List String) (t : Target) : Target := { t with path := base ++ t.path }

@[simp] theorem Target.type_below (base : List String) (t : Target) :
    (t.below base).type = t.type := rfl

theorem Target.child_eq (t : Target) (element : String) :
    t.child element = String.intercalate "." (t.path ++ [element]) := by
  unfold child
  split
  · rename_i hpath
    simp [List.isEmpty_iff.1 hpath]
  · rename_i hpath
    rw [String.intercalate_append_of_ne_nil (by simpa using hpath) (by simp)]
    simp [name]

namespace Filter

/-- Two filters that are the same elementary condition on a field and on that field below `base`,
or both nothing or both everything. What the second is does not matter if the first is not the
test of one field. -/
inductive Relocated (base : List String) : Document → Document → Prop
  | test {path : List String} {c : Value} : PlainPath path → IsElementary c →
    Relocated base (test (String.intercalate "." path) c)
      (test (String.intercalate "." (base ++ path)) c)
  | never : Relocated base never never
  | notNever : Relocated base (complement never) (complement never)
  | other {d d' : Document} : isFieldTest d = false → Relocated base d d'

variable {base : List String}

theorem Relocated.complement {d d' : Document} (hb : PlainPath base) (h : Relocated base d d') :
    Relocated base (complement d) (complement d') := by
  cases h with
  | test hp hc =>
    rcases complement_test_cases hc with ⟨c', hc', heq⟩ | hnone
    · rw [heq _ hp.isOperator, heq _ (hb.append hp).isOperator]
      exact .test hp hc'
    · exact .other (hnone _ hp.isOperator)
  | never => exact .notNever
  | notNever => exact .never
  | other hd => exact .other (isFieldTest_complement hd)

theorem Relocated.always {d : Document} : Relocated base always d := .other rfl

theorem Relocated.ofBool (b : Bool) : Relocated base (ofBool b) (ofBool b) := by
  cases b with
  | true => exact .always
  | false => exact .never

theorem Relocated.child {t : Target} {element : String} {c : Value} (ht : PlainPath t.path)
    (he : isOperator element = false) (hc : IsElementary c) :
    Relocated base (Filter.test (t.child element) c)
      (Filter.test ((t.below base).child element) c) := by
  have happ : (t.below base).path ++ [element] = base ++ (t.path ++ [element]) :=
    List.append_assoc ..
  rw [Target.child_eq, Target.child_eq, happ]
  exact .test (ht.append (.singleton he)) hc

theorem isElementary_single {op : String} {x : Value} (ho : isOpposite op x = false)
    (ht : op ≠ "$type") : IsElementary (.single op x) :=
  .inl (isPositive_single ho ht)

theorem isElementary_regex (pattern options : String) :
    IsElementary (Pattern.regex pattern options) :=
  .inl rfl

theorem relocated_arrayLength (base : List String) {t : Target} (ht : PlainPath t.path)
    (op : BinaryOp) (n : Int) (x : Value) :
    Option.Rel (Relocated base) (arrayLength t op n x) (arrayLength (t.below base) op n x) := by
  have hitem (i : Int) (b : Bool) :
      Relocated base (testOp (t.child (toString i)) "$exists" (.bool b))
        (testOp ((t.below base).child (toString i)) "$exists" (.bool b)) :=
    .child ht (isOperator_toString i) (isElementary_exists b)
  cases op <;> simp only [arrayLength]
  case equal =>
    refine .some ?_
    split
    · exact .never
    · exact .test ht (isElementary_single rfl (by decide))
  case notEqual =>
    refine .some ?_
    split
    · exact .always
    · exact .test ht (isElementary_not (isPositive_single rfl (by decide)))
  case greater | greaterOrEqual =>
    refine .some ?_
    split
    · exact .always
    · exact hitem _ _
  case less | lessOrEqual =>
    refine .some ?_
    split
    · exact .never
    · exact hitem _ _
  all_goals exact .none

theorem relocated_comparison? (base : List String) {t : Target} (ht : PlainPath t.path)
    (op : BinaryOp) {x : Value} (hx : isPlain x = true) :
    Option.Rel (Relocated base) (comparison? t.name op x)
      (comparison? (t.below base).name op x) := by
  cases op <;> simp only [comparison?]
  case equal => exact .some (.test ht (.inl (isPositive_of_isPlain hx)))
  case notEqual => exact .some (.test ht (isElementary_ne hx))
  case greater | greaterOrEqual | less | lessOrEqual =>
    exact .some (.test ht (isElementary_single rfl (by decide)))
  all_goals exact .none

theorem isOpposite_bitOperator? {op : BinaryOp} {mask compared : Int} {name : String}
    (h : bitOperator? op mask compared = some name) (x : Value) :
    isOpposite name x = false ∧ name ≠ "$type" := by
  unfold bitOperator? at h
  split at h
  · split at h
    · cases h; exact ⟨rfl, by decide⟩
    · split at h <;> cases h; exact ⟨rfl, by decide⟩
  · split at h
    · cases h; exact ⟨rfl, by decide⟩
    · split at h <;> cases h; exact ⟨rfl, by decide⟩
  · cases h

end Filter

namespace Expr

mutual
/-- Whether a truth value is asked of the items of a collection. -/
def quantifies : Expr → Bool
  | .quote inner => quantifies inner
  | .convert operand _ => quantifies operand
  | .not operand => quantifies operand
  | .binary _ left right => quantifies left || quantifies right
  | .call target method args =>
    ((method = "Any" || method = "All") && !args.isEmpty) || quantifies target ||
      someQuantifies args
  | .staticCall _ method (source :: args) =>
    ((method = "Any" || method = "All") && !args.isEmpty) || quantifies source ||
      someQuantifies args
  | _ => false
def someQuantifies : List Expr → Bool
  | [] => false
  | e :: rest => quantifies e || someQuantifies rest
end

theorem quantifies_of_mem {es : List Expr} (h : someQuantifies es = false) {e : Expr}
    (he : e ∈ es) : e.quantifies = false := by
  induction es with
  | nil => cases he
  | cons x rest ih =>
    simp only [someQuantifies, Bool.or_eq_false_iff] at h
    rcases List.mem_cons.1 he with rfl | he
    · exact h.1
    · exact ih h.2 he

theorem quantifies_strip (e : Expr) : e.strip.quantifies = e.quantifies := by
  fun_induction strip e with
  | case1 inner ih => exact ih
  | case2 operand type ih => exact ih
  | case3 e => rfl

theorem collapsible_strip (e : Expr) : collapsible e.strip = collapsible e := by
  fun_induction strip e with
  | case1 inner ih => exact ih
  | case2 operand type ih => exact ih
  | case3 e => rfl

theorem quantifies_of_staticCall {owner method : String} {args : List Expr}
    (h : (Expr.staticCall owner method args).quantifies = false) {a : Expr} (ha : a ∈ args) :
    a.quantifies = false := by
  cases args with
  | nil => cases ha
  | cons source rest =>
    simp only [quantifies, Bool.or_eq_false_iff] at h
    rcases List.mem_cons.1 ha with rfl | ha
    · exact h.1.2
    · exact quantifies_of_mem h.2 ha

theorem quantifies_of_receiverForm? {e call : Expr} (h : e.quantifies = false)
    (hc : e.receiverForm? = some call) : call.quantifies = false ∧ call.isTest = true := by
  unfold receiverForm? at hc
  split at hc
  · split at hc
    · cases hc
      exact ⟨h, rfl⟩
    · cases hc
  · cases hc

theorem quantifies_of_comparison {op : BinaryOp} {left right : Expr} {c : Comparison}
    (h : Comparison.of? op left right = some c) (hl : left.quantifies = false)
    (hr : right.quantifies = false) : c.left.quantifies = false := by
  unfold Comparison.of? at h
  split at h <;> cases h <;> assumption

end Expr

namespace Mapping

variable {m : Mapping} {base : List String} {s s' : Scope} {c : Comparison}

/-- What is read in the scope `s` at some place is read in `s'` at that place below `base`. -/
def ReadsBelow (m : Mapping) (base : List String) (s s' : Scope) : Prop :=
  ∀ e : Expr, e.isPlain m.schema = true →
    Follows (fun o o' => o' = o.map (Target.below base) ∧ ∀ t ∈ o, PlainPath t.path)
      (m.target? e s) (m.target? e s')

theorem ReadsBelow.targetOr (h : m.ReadsBelow base s s') (node : Expr) {e : Expr}
    (he : e.isPlain m.schema = true) :
    Follows (fun t t' => t' = t.below base ∧ PlainPath t.path)
      (m.targetOr node e s) (m.targetOr node e s') := by
  refine Follows.bind (h e he) ?_
  rintro o _ ⟨rfl, ho⟩
  cases o with
  | none => exact .error
  | some t => exact .ok ⟨rfl, ho t rfl⟩

theorem ReadsBelow.target (h : m.ReadsBelow base s s') {e : Expr}
    (he : e.isPlain m.schema = true) :
    Follows (fun t t' => t' = t.below base ∧ PlainPath t.path) (m.target e s) (m.target e s') :=
  h.targetOr e he

/-- The filter in the one scope is the filter in the other, relocated. -/
abbrev EmitsRelocated (base : List String) (r r' : Result Document) : Prop :=
  Follows (Relocated base) r r'

/-- The answer of a rule in the one scope is the answer in the other, relocated. -/
abbrev AnswersRelocated (base : List String) (r r' : Result (Option Document)) : Prop :=
  Follows (Option.Rel (Relocated base)) r r'

/-! ## Comparisons -/

theorem relocated_plainComparison (hm : m.IsPlain) (hr : m.ReadsBelow base s s') (node : Expr)
    (hc : c.IsPlain m.schema) :
    EmitsRelocated base (m.plainComparison node c s) (m.plainComparison node c s') := by
  refine Follows.bind (hr.targetOr node hc.left) ?_
  rintro t _ ⟨rfl, ht⟩
  refine Follows.bind (plain_encodeFor hm t hc.value).follows ?_
  rintro _ x ⟨rfl, hx⟩
  have h := relocated_comparison? base ht c.op hx
  revert h
  generalize comparison? t.name c.op x = o
  generalize comparison? (t.below base).name c.op x = o'
  rintro (h | _)
  · exact .ok h
  · exact .error

theorem relocated_arrayLengthRule (hr : m.ReadsBelow base s s') (hc : c.IsPlain m.schema) :
    AnswersRelocated base (m.arrayLengthRule c s) (m.arrayLengthRule c s') := by
  unfold arrayLengthRule
  split
  · rename_i source n hsource _
    split
    · refine Follows.bind (hr.target (Expr.isPlain_of_lengthOf? hc.left hsource)) ?_
      rintro t _ ⟨rfl, ht⟩
      exact .ok (relocated_arrayLength base ht c.op n c.value.value)
    · exact .ok .none
  · exact .ok .none

theorem relocated_moduloRule (hr : m.ReadsBelow base s s') (hc : c.IsPlain m.schema) :
    AnswersRelocated base (m.moduloRule c s) (m.moduloRule c s') := by
  have hleft := Expr.isPlain_strip hc.left
  unfold moduloRule
  split
  · rename_i dividend divisor he
    simp only [he, Expr.isPlain, Bool.and_eq_true] at hleft
    split
    · refine Follows.bind (hr.target hleft.1) ?_
      rintro t _ ⟨rfl, ht⟩
      have hmod (x : Value) : isPositive (.single "$mod" x) = true :=
        isPositive_single rfl (by decide)
      dsimp only
      split
      · exact .ok (.some (.test ht (.inl (hmod _))))
      · exact .ok (.some (.test ht (isElementary_not (hmod _))))
      · exact .ok .none
    · exact .ok .none
  · exact .ok .none

theorem relocated_orderingRule (hm : m.IsPlain) (hr : m.ReadsBelow base s s')
    (hc : c.IsPlain m.schema) :
    AnswersRelocated base (m.orderingRule c s) (m.orderingRule c s') := by
  have hleft := Expr.isPlain_strip hc.left
  unfold orderingRule
  split
  · rename_i target arg he
    simp only [he, Expr.isPlain, Expr.arePlain, Bool.and_eq_true] at hleft
    split
    · rename_i operand hoperand _
      have hplain : Comparison.IsPlain m.schema ⟨c.op, target, operand⟩ :=
        ⟨hleft.1.1, Expr.isPlain_known? hleft.1.2.1 hoperand⟩
      exact (relocated_plainComparison hm hr c.left hplain).map fun d d' h => .some h
    · exact .ok .none
  · exact .ok .none

theorem relocated_indexOfRule (hr : m.ReadsBelow base s s') (hc : c.IsPlain m.schema) :
    AnswersRelocated base (m.indexOfRule c s) (m.indexOfRule c s') := by
  have hleft := Expr.isPlain_strip hc.left
  unfold indexOfRule
  split
  · rename_i source method args he
    simp only [he, Expr.isPlain, Bool.and_eq_true] at hleft
    split
    · split
      · split
        · exact .ok .none
        · refine Follows.bind (hr.target hleft.1.1) ?_
          rintro t _ ⟨rfl, ht⟩
          rename_i pattern _
          cases pattern with
          | none => exact .ok (.some .never)
          | some p => exact .ok (.some (.test ht (isElementary_regex p "s")))
      · exact .ok .none
    · exact .ok .none
  · exact .ok .none

theorem relocated_charAtRule (hr : m.ReadsBelow base s s') (hc : c.IsPlain m.schema) :
    AnswersRelocated base (m.charAtRule c s) (m.charAtRule c s') := by
  have hleft := Expr.isPlain_strip hc.left
  unfold charAtRule
  split
  · rename_i source position he
    simp only [he, Expr.isPlain, Bool.and_eq_true] at hleft
    split
    · split
      · refine Follows.bind (hr.target hleft.1.1) ?_
        rintro t _ ⟨rfl, ht⟩
        exact .ok (.some (.test ht (isElementary_regex _ "s")))
      · exact .ok .none
    · exact .ok .none
  · exact .ok .none

theorem relocated_stringLengthRule (hb : PlainPath base) (hr : m.ReadsBelow base s s')
    (hc : c.IsPlain m.schema) :
    AnswersRelocated base (m.stringLengthRule c s) (m.stringLengthRule c s') := by
  unfold stringLengthRule
  split
  · rename_i source pattern hsource _
    split
    · refine Follows.bind (hr.target (Expr.isPlain_of_stringLengthOf? hc.left hsource)) ?_
      rintro t _ ⟨rfl, ht⟩
      have hregex : Relocated base (test t.name (Pattern.regex pattern "s"))
          (test (t.below base).name (Pattern.regex pattern "s")) :=
        .test ht (isElementary_regex pattern "s")
      refine .ok (.some ?_)
      split
      · exact hregex.complement hb
      · exact hregex
    · exact .ok .none
  · exact .ok .none

theorem relocated_letterCaseRule (hb : PlainPath base) (hr : m.ReadsBelow base s s')
    (hc : c.IsPlain m.schema) :
    AnswersRelocated base (m.letterCaseRule c s) (m.letterCaseRule c s') := by
  have hleft := Expr.isPlain_strip hc.left
  unfold letterCaseRule
  split
  · rename_i source method he
    simp only [he, Expr.isPlain, Bool.and_eq_true] at hleft
    split
    · split
      · refine Follows.bind (hr.target hleft.1.1) ?_
        rintro t _ ⟨rfl, ht⟩
        split
        · rename_i text _
          have hregex : Relocated base (test t.name (Pattern.regex (Pattern.exactly text) "i"))
              (test (t.below base).name (Pattern.regex (Pattern.exactly text) "i")) :=
            .test ht (isElementary_regex _ "i")
          split
          · refine .ok (.some ?_)
            split
            · exact hregex
            · exact hregex.complement hb
          · exact .ok (.some (.ofBool _))
        · refine .ok (.some ?_)
          split
          · exact .test ht (.inl rfl)
          · exact .test ht (isElementary_ne rfl)
        · exact .error
      · exact .ok .none
    · exact .ok .none
  · exact .ok .none

theorem relocated_bitsRule (hr : m.ReadsBelow base s s') (hc : c.IsPlain m.schema) :
    AnswersRelocated base (m.bitsRule c s) (m.bitsRule c s') := by
  have hleft := Expr.isPlain_strip hc.left
  unfold bitsRule
  split
  · rename_i operand right he
    simp only [he, Expr.isPlain, Bool.and_eq_true] at hleft
    split
    · split
      · split
        · split
          · rename_i op hop
            refine Follows.bind (hr.target hleft.1) ?_
            rintro t _ ⟨rfl, ht⟩
            obtain ⟨ho, htype⟩ := isOpposite_bitOperator? hop _
            exact .ok (.some (.test ht (isElementary_single ho htype)))
          · exact .ok .none
        · exact .ok .none
      · exact .ok .none
    · exact .ok .none
  · exact .ok .none

theorem relocated_firstAnswer {rules : List Comparison.Rule}
    (h : ∀ rule ∈ rules, AnswersRelocated base (rule c s) (rule c s')) :
    AnswersRelocated base (c.firstAnswer s rules) (c.firstAnswer s' rules) := by
  induction rules with
  | nil => exact .ok .none
  | cons rule rest ih =>
    refine Follows.bind (h rule (by simp)) ?_
    rintro o o' (hd | _)
    · exact .ok (.some hd)
    · exact ih fun r hr => h r (by simp [hr])

theorem relocated_comparisonRules (hm : m.IsPlain) (hb : PlainPath base)
    (hr : m.ReadsBelow base s s') (hc : c.IsPlain m.schema) :
    ∀ rule ∈ m.comparisonRules, AnswersRelocated base (rule c s) (rule c s') := by
  simp only [comparisonRules, List.mem_cons, List.not_mem_nil, or_false, forall_eq_or_imp,
    forall_eq]
  exact ⟨relocated_arrayLengthRule hr hc, relocated_moduloRule hr hc,
    relocated_orderingRule hm hr hc, relocated_indexOfRule hr hc, relocated_charAtRule hr hc,
    relocated_stringLengthRule hb hr hc, relocated_letterCaseRule hb hr hc,
    relocated_bitsRule hr hc⟩

/-! ## Strings and membership -/

theorem relocated_stringMatch (hr : m.ReadsBelow base s s') (node : Expr) {receiver : Expr}
    (h : receiver.isPlain m.schema = true) (place : TextPlace) (needle : Expr) :
    EmitsRelocated base (m.stringMatch node receiver place needle s)
      (m.stringMatch node receiver place needle s') := by
  unfold stringMatch
  split
  · exact .error
  · refine Follows.bind (isPlain_unwrap node _ h h).follows ?_
    rintro _ found ⟨rfl, hfound⟩
    refine Follows.bind (hr.target hfound) ?_
    rintro t _ ⟨rfl, ht⟩
    exact .ok (.test ht (isElementary_regex _ _))

theorem relocated_equalIgnoringCase (hr : m.ReadsBelow base s s') (node : Expr) {a b : Expr}
    (ha : a.isPlain m.schema = true) (hb : b.isPlain m.schema = true) :
    EmitsRelocated base (m.equalIgnoringCase node a b s) (m.equalIgnoringCase node a b s') := by
  unfold equalIgnoringCase
  split
  · exact .error
  · rename_i source l hsource
    refine Follows.bind (hr.target (isPlain_of_oneKnown? ha hb hsource)) ?_
    rintro t _ ⟨rfl, ht⟩
    split
    · exact .ok (.test ht (isElementary_regex _ _))
    · exact .ok (.test ht (.inl rfl))
    · exact .error

theorem relocated_regexMatch (hr : m.ReadsBelow base s s') (node : Expr) {input : Expr}
    (hi : input.isPlain m.schema = true) (pattern : Expr) (options : Option Expr) :
    EmitsRelocated base (m.regexMatch node input pattern options s)
      (m.regexMatch node input pattern options s') := by
  unfold regexMatch
  split
  · exact .error
  · refine Follows.bind (Post.of_total (regexLetters node options)).follows ?_
    rintro _ letters ⟨rfl, -⟩
    refine Follows.bind (hr.target hi) ?_
    rintro t _ ⟨rfl, ht⟩
    exact .ok (.test ht (isElementary_regex _ _))

theorem relocated_containsKey (hr : m.ReadsBelow base s s') (node : Expr) {dictionary key : Expr}
    (hd : dictionary.isPlain m.schema = true) (hk : key.isPlain m.schema = true)
    (hkey : key.isPlainKey = true) :
    EmitsRelocated base (m.containsKey node dictionary key s)
      (m.containsKey node dictionary key s') := by
  refine Follows.bind (hr.target hd) ?_
  rintro t _ ⟨rfl, ht⟩
  refine Follows.bind (plain_knownOr node hk).follows ?_
  rintro _ l ⟨rfl, hl⟩
  simp only [Target.type_below]
  split
  · split
    · rename_i name hname
      have hop := Expr.isOperator_of_isPlainKey hkey hl.2 hname
      exact .ok (.child ht hop (isElementary_exists true))
    · exact .error
  · exact .ok (.child ht rfl (.inl (isPositive_of_isPlain hl.1)))
  · exact .error

theorem relocated_isOneOf (hr : m.ReadsBelow base s s') (node : Expr) {item : Expr}
    (hi : item.isPlain m.schema = true) (values : Expr) :
    EmitsRelocated base (m.isOneOf node item values s) (m.isOneOf node item values s') := by
  refine Follows.bind (Post.of_total (knownOr node values)).follows ?_
  rintro _ l ⟨rfl, -⟩
  refine Follows.bind (hr.target hi) ?_
  rintro t _ ⟨rfl, ht⟩
  refine Follows.bind (Post.of_total (m.encodeItemsFor node t l)).follows ?_
  rintro _ items ⟨rfl, -⟩
  exact .ok (.test ht (isElementary_single rfl (by decide)))

theorem relocated_contains (hm : m.IsPlain) (hr : m.ReadsBelow base s s') (node : Expr)
    {collection item : Expr} (hc : collection.isPlain m.schema = true)
    (hi : item.isPlain m.schema = true)
    (hkey : (m.schema.typeOf collection).isDictionary = true → item.isPlainKey = true) :
    EmitsRelocated base (m.contains node collection item s)
      (m.contains node collection item s') := by
  unfold contains
  dsimp only
  split
  · rename_i hdict
    exact relocated_containsKey hr node hc hi (hkey hdict)
  · split
    · exact relocated_stringMatch hr node hc _ _
    · split
      · exact relocated_isOneOf hr node hi _
      · refine Follows.bind (hr.target hc) ?_
        rintro t _ ⟨rfl, ht⟩
        rw [Target.type_below]
        by_cases harray : t.type.isArray = true
        · rw [if_pos harray, if_pos harray]
          refine Follows.bind (plain_knownOr node hi).follows ?_
          rintro _ l ⟨rfl, hl⟩
          refine Follows.bind (plain_encodeFor hm t.item hl.1).follows ?_
          rintro _ x ⟨rfl, hx⟩
          exact .ok (.test ht (.inl (isPositive_of_isPlain hx)))
        · rw [if_neg harray, if_neg harray]
          exact .error

theorem addClause_test {d : Document} {name : String} (hn : isOperator name = false) (c : Value) :
    addClause d (test name c) = addTests d (test name c) := by
  have hand : name ≠ "$and" := by rintro rfl; simp [isOperator] at hn
  cases c <;> simp [test, addClause, hand]

/-- Tests of two fields are no test of one. -/
theorem isFieldTest_conj_pair {a b : String} (ha : isOperator a = false)
    (hb : isOperator b = false) (hab : a ≠ b) (x y : Value) :
    isFieldTest (conj [test a x, test b y]) = false := by
  have hand : a ≠ "$and" := by rintro rfl; simp [isOperator] at ha
  simp only [conj, List.foldl_cons, List.foldl_nil, addClause_test ha, addClause_test hb]
  simp [addTests, always, Document.only?, test, addTest, Document.get?, Document.insert, hand, hab,
    isFieldTest]

theorem relocated_typeTest (hm : m.IsPlain) (hr : m.ReadsBelow base s s') (node : Expr)
    {operand : Expr} (ho : operand.isPlain m.schema = true) (typeName : String) (exact : Bool) :
    EmitsRelocated base (m.typeTest node operand typeName exact s)
      (m.typeTest node operand typeName exact s') := by
  unfold typeTest
  split
  · rename_i nominal _
    refine Follows.bind (isPlain_discriminator m.schema nominal typeName).follows ?_
    rintro _ o ⟨rfl, hmark⟩
    cases o with
    | none => exact .ok .always
    | some mark =>
      refine Follows.bind (hr.target ho) ?_
      rintro t _ ⟨rfl, ht⟩
      have helement := isOperator_discriminatorElement hm nominal
      have hpath := Target.isOperator_child ht helement
      dsimp only
      split
      · refine .ok (.other (isFieldTest_conj_pair (isOperator_append hpath rfl) hpath ?_ _ _))
        intro heq
        simpa using congrArg String.length heq
      · exact .ok (.child ht helement (.inl (isPositive_of_isPlain (hmark mark rfl))))
  · exact .error

theorem relocated_nonEmpty (hr : m.ReadsBelow base s s') (node : Expr) {source : Expr}
    (hs : source.isPlain m.schema = true) :
    EmitsRelocated base (m.nonEmpty node source s) (m.nonEmpty node source s') := by
  refine Follows.bind (hr.target hs) ?_
  rintro t _ ⟨rfl, ht⟩
  rw [Target.type_below]
  by_cases harray : t.type.isArray = true
  · rw [if_pos harray, if_pos harray]
    exact .ok (.test ht (.inr rfl))
  · rw [if_neg harray, if_neg harray]
    exact .error

theorem relocated_hasBits (hr : m.ReadsBelow base s s') (node flag : Expr) {operand : Expr}
    (ho : operand.isPlain m.schema = true) :
    EmitsRelocated base (m.hasBits node operand flag s) (m.hasBits node operand flag s') := by
  refine Follows.bind (hr.target ho) ?_
  rintro t _ ⟨rfl, ht⟩
  refine Follows.bind (Post.of_total (knownOr node flag)).follows ?_
  rintro _ l ⟨rfl, -⟩
  exact .ok (.test ht (isElementary_single rfl (by decide)))

theorem relocated_truthTest (hr : m.ReadsBelow base s s') {node : Expr}
    (h : node.isPlain m.schema = true) :
    EmitsRelocated base (m.truthTest node s) (m.truthTest node s') := by
  refine Follows.bind (hr.target h) ?_
  rintro t _ ⟨rfl, ht⟩
  simp only [Target.type_below]
  split
  · exact .ok (.test ht (.inl rfl))
  · exact .ok (.test ht (.inl rfl))
  · exact .error

/-! ## Every test -/

section Node

variable {sub : Expr → Scope → Result Document} {n : Nat}

/-- A plain expression that is a test or may be written with a longer path, and asks nothing about
the items of a collection. -/
structure IsFieldQuestion (m : Mapping) (e : Expr) : Prop where
  plain : e.isPlain m.schema = true
  quantifies : e.quantifies = false
  question : e.isTest = true ∨ collapsible e = true

/-- Filters of such expressions smaller than `n` are relocated. -/
def SubRelocated (m : Mapping) (base : List String) (s s' : Scope)
    (sub : Expr → Scope → Result Document) (n : Nat) : Prop :=
  ∀ e, e.size < n → m.IsFieldQuestion e → EmitsRelocated base (sub e s) (sub e s')

theorem relocated_comparison (hm : m.IsPlain) (hb : PlainPath base) (hr : m.ReadsBelow base s s')
    (hsub : m.SubRelocated base s s' sub n) (node : Expr) (op : BinaryOp) {left right : Expr}
    (hl : left.isPlain m.schema = true) (hr' : right.isPlain m.schema = true)
    (hlq : left.quantifies = false) (hrq : right.quantifies = false) (hln : left.size < n)
    (hrn : right.size < n) :
    EmitsRelocated base (m.comparison sub node op left right s)
      (m.comparison sub node op left right s') := by
  unfold comparison
  split
  · exact .error
  · rename_i c hc
    have hplain := Comparison.isPlain_of? hc hl hr'
    have hfield := relocated_plainComparison hm hr node hplain
    have htest (ht : c.left.isTest = true) :=
      hsub c.left (Comparison.size_left_lt hc hln hrn)
        ⟨hplain.left, Expr.quantifies_of_comparison hc hlq hrq, .inl ht⟩
    refine Follows.bind (relocated_firstAnswer (relocated_comparisonRules hm hb hr hplain)) ?_
    rintro o o' (hd | _)
    · exact .ok hd
    · dsimp only
      split
      · split
        · rename_i ht
          refine Follows.bind (htest ht) fun d d' hd => .ok ?_
          split
          · exact hd
          · exact hd.complement hb
        · exact hfield
      · split
        · rename_i ht
          refine Follows.bind (htest ht) fun d d' hd => .ok ?_
          split
          · exact hd.complement hb
          · exact hd
        · exact hfield
      · exact hfield

theorem relocated_stringEquality (hm : m.IsPlain) (hb : PlainPath base)
    (hr : m.ReadsBelow base s s') (hsub : m.SubRelocated base s s' sub n)
    (node comparison : Expr) {a b : Expr} (ha : a.isPlain m.schema = true)
    (hb' : b.isPlain m.schema = true) (haq : a.quantifies = false) (hbq : b.quantifies = false)
    (han : a.size < n) (hbn : b.size < n) :
    EmitsRelocated base (m.stringEquality sub node a b comparison s)
      (m.stringEquality sub node a b comparison s') := by
  unfold stringEquality
  split
  · exact relocated_comparison hm hb hr hsub node .equal ha hb' haq hbq han hbn
  · exact relocated_equalIgnoringCase hr node ha hb'
  · exact .error

theorem relocated_negation (hb : PlainPath base) (hsub : m.SubRelocated base s s' sub n)
    (node : Expr) {operand : Expr} (ho : operand.isPlain m.schema = true)
    (hq : operand.quantifies = false) (hc : collapsible operand = true)
    (hon : operand.size < n) :
    EmitsRelocated base (m.negation sub node operand s) (m.negation sub node operand s') := by
  unfold negation
  split
  · rename_i inner he
    have hsize := operand.size_strip_le
    have hstrip := Expr.isPlain_strip ho
    have hquant := operand.quantifies_strip
    have hcoll := operand.collapsible_strip
    simp only [he, Expr.size, Expr.isPlain, Expr.quantifies, collapsible]
      at hsize hstrip hquant hcoll
    exact hsub inner (by omega) ⟨hstrip, hquant.trans hq, .inr (hcoll.trans hc)⟩
  · split
    · exact .error
    · exact (hsub operand hon ⟨ho, hq, .inr hc⟩).map fun d d' hd => hd.complement hb

theorem relocated_callFilter (hm : m.IsPlain) (hb : PlainPath base) (hr : m.ReadsBelow base s s')
    (hsub : m.SubRelocated base s s' sub n) (node : Expr) {target : Expr} {method : String}
    {args : List Expr} (h : (Expr.call target method args).isPlain m.schema = true)
    (hq : (Expr.call target method args).quantifies = false)
    (hn : (Expr.call target method args).size ≤ n) :
    EmitsRelocated base (m.callFilter sub node target method args s)
      (m.callFilter sub node target method args s') := by
  simp only [Expr.isPlain, Bool.and_eq_true, Bool.or_eq_true, Bool.not_eq_true'] at h
  obtain ⟨⟨ht, ha⟩, hkey⟩ := h
  simp only [Expr.quantifies, Bool.or_eq_false_iff] at hq
  obtain ⟨⟨hmethod, htq⟩, haq⟩ := hq
  simp only [Expr.size] at hn
  unfold callFilter
  split
  · split
    · exact relocated_nonEmpty hr node ht
    · exact .error
  · rename_i arg
    simp only [Expr.arePlain, Bool.and_true] at ha
    simp only [Expr.someQuantifies, Bool.or_false] at haq
    simp only [Expr.sizes] at hn
    have htn : target.size < n := by omega
    have han : arg.size < n := by omega
    have hkey : Expr.takesKey m.schema target method = true → arg.isPlainKey = true := by
      intro htakes
      simpa [htakes] using hkey
    split
    · simp at hmethod
    · simp at hmethod
    · exact relocated_contains hm hr node ht ha fun hdict => hkey (by simp [Expr.takesKey, hdict])
    · exact relocated_stringMatch hr node ht _ _
    · exact relocated_stringMatch hr node ht _ _
    · exact relocated_containsKey hr node ht ha (hkey (by simp [Expr.takesKey]))
    · exact relocated_comparison hm hb hr hsub node .equal ht ha htq haq htn han
    · exact relocated_isOneOf hr node ht _
    · exact relocated_hasBits hr node _ ht
    · exact .error
  · rename_i other comparison
    simp only [Expr.arePlain, Bool.and_eq_true] at ha
    simp only [Expr.someQuantifies, Bool.or_eq_false_iff] at haq
    simp only [Expr.sizes] at hn
    split
    · exact relocated_stringEquality hm hb hr hsub node comparison ht ha.1 htq haq.1 (by omega)
        (by omega)
    · exact .error
  · exact .error

theorem relocated_staticCallFilter (hm : m.IsPlain) (hb : PlainPath base)
    (hr : m.ReadsBelow base s s') (hsub : m.SubRelocated base s s' sub n) (node : Expr)
    (owner method : String) {args : List Expr} (ha : ∀ a ∈ args, a.isPlain m.schema = true)
    (hq : ∀ a ∈ args, a.quantifies = false) (hn : ∀ a ∈ args, a.size < n) :
    EmitsRelocated base (m.staticCallFilter sub node owner method args s)
      (m.staticCallFilter sub node owner method args s') := by
  unfold staticCallFilter
  split
  · refine Follows.bind (hr.target (ha _ (by simp))) ?_
    rintro t _ ⟨rfl, ht⟩
    exact .ok (.test ht (isElementary_single rfl (by decide)))
  · exact relocated_regexMatch hr node (ha _ (by simp)) _ _
  · exact relocated_regexMatch hr node (ha _ (by simp)) _ _
  · exact relocated_comparison hm hb hr hsub node .equal (ha _ (by simp)) (ha _ (by simp))
      (hq _ (by simp)) (hq _ (by simp)) (hn _ (by simp)) (hn _ (by simp))
  · exact relocated_comparison hm hb hr hsub node .equal (ha _ (by simp)) (ha _ (by simp))
      (hq _ (by simp)) (hq _ (by simp)) (hn _ (by simp)) (hn _ (by simp))
  · exact relocated_stringEquality hm hb hr hsub node _ (ha _ (by simp)) (ha _ (by simp))
      (hq _ (by simp)) (hq _ (by simp)) (hn _ (by simp)) (hn _ (by simp))
  · exact .error

theorem relocated_filterNode (hm : m.IsPlain) (hb : PlainPath base) (hr : m.ReadsBelow base s s')
    {node : Expr} (hsub : m.SubRelocated base s s' sub node.size) (h : m.IsFieldQuestion node) :
    EmitsRelocated base (m.filterNode sub node s) (m.filterNode sub node s') := by
  obtain ⟨hplain, hquant, hquestion⟩ := h
  cases node with
  | quote inner => exact hsub inner (by simp [Expr.size]) ⟨hplain, hquant, hquestion⟩
  | convert operand type => exact hsub operand (by simp [Expr.size]) ⟨hplain, hquant, hquestion⟩
  | not operand =>
    have hc : collapsible operand = true := by
      simpa [Expr.isTest, Expr.strip, collapsible] using hquestion
    exact relocated_negation hb hsub _ hplain hquant hc (by simp [Expr.size])
  | binary op left right =>
    have hop : op.isComparison = true := by
      simpa [Expr.isTest, Expr.strip, collapsible] using hquestion
    simp only [Expr.isPlain, Bool.and_eq_true] at hplain
    simp only [Expr.quantifies, Bool.or_eq_false_iff] at hquant
    have hcomparison : ∀ s, m.filterNode sub (.binary op left right) s =
        m.comparison sub (.binary op left right) op left right s := by
      intro s
      cases op <;> first | rfl | cases hop
    rw [hcomparison, hcomparison]
    exact relocated_comparison hm hb hr hsub _ op hplain.1 hplain.2 hquant.1 hquant.2
      (by simp only [Expr.size]; omega) (by simp only [Expr.size]; omega)
  | call target method args =>
    exact relocated_callFilter hm hb hr hsub _ hplain hquant (Nat.le_refl _)
  | staticCall owner method args =>
    simp only [filterNode]
    cases hc : (Expr.staticCall owner method args).receiverForm? with
    | some call =>
      obtain ⟨hcall, htest⟩ := Expr.quantifies_of_receiverForm? hquant hc
      exact hsub call (Expr.size_lt_of_receiverForm? hc)
        ⟨Expr.isPlain_of_receiverForm? hplain hc, hcall, .inl htest⟩
    | none =>
      refine relocated_staticCallFilter hm hb hr hsub _ owner method ?_ ?_ fun a ha => ?_
      · exact fun a ha => Expr.isPlain_of_staticCall hplain ha
      · exact fun a ha => Expr.quantifies_of_staticCall hquant ha
      · have := Expr.size_le_sizes ha
        simp only [Expr.size]; omega
  | typeTest operand typeName exact =>
    simp only [Expr.isPlain] at hplain
    exact relocated_typeTest hm hr _ hplain typeName exact
  | member target name =>
    simp only [filterNode]
    split
    · simp only [Expr.isPlain, Bool.and_eq_true] at hplain
      refine Follows.bind (hr.target hplain.2) ?_
      rintro t _ ⟨rfl, ht⟩
      exact .ok (.test ht (isElementary_ne rfl))
    · exact relocated_truthTest hr hplain
  | _ => simp [Expr.isTest, Expr.strip, collapsible] at hquestion

end Node

/-- **A test that asks nothing about the items of a collection is relocated as a whole.** -/
theorem relocated_filterOf (hm : m.IsPlain) (hb : PlainPath base) (hr : m.ReadsBelow base s s')
    (e : Expr) (h : m.IsFieldQuestion e) :
    EmitsRelocated base (m.filterOf e s) (m.filterOf e s') := by
  rw [filterOf_eq, filterOf_eq]
  exact relocated_filterNode hm hb hr (fun e' _ h' => relocated_filterOf hm hb hr e' h') h
termination_by e.size

end Mapping
end DocQuery
