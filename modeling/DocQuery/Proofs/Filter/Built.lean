/-
What filters are built of (`Built`): conditions on fields, conjunctions,
disjunctions and complements of filters, and filters on array items as operands of
`$elemMatch`.

There is one lemma for each way to build a filter, and every filter of a plain
expression is built so (`built_filterOf`). What holds of all such filters is then
proved by induction over the ways to build one. Which values stand in the
conditions is left open (`Keeps`): any kind of values that the expression brings
and the mapping keeps when it stores them.
-/
import DocQuery.Proofs.Filter.Plain
import DocQuery.Proofs.Keys

namespace DocQuery

open DocQuery.Filter

/-- Whether a value has no parts and is no pattern. -/
def Value.isScalar : Value → Bool
  | .array _ | .document _ | .regex .. => false
  | _ => true

namespace Filter

/-- Operators on a field that have one value. -/
def valueOperators : List String :=
  ["$ne", "$gt", "$gte", "$lt", "$lte", "$size", "$exists", "$type", "$bitsAllSet",
    "$bitsAllClear", "$bitsAnySet", "$bitsAnyClear"]

/-- Operators on a field that have a list of values. -/
def listOperators : List String := ["$in", "$nin", "$all", "$mod"]

/-- An operator with an operand made of values of a kind. -/
inductive Operation (V : Value → Prop) : String → Value → Prop
  | value {op : String} {x : Value} (ho : op ∈ valueOperators) (hx : V x) : Operation V op x
  | list {op : String} {items : List Value} (ho : op ∈ listOperators) (hx : V (.array items)) :
    Operation V op (.array items)

/-- A condition that a rule puts on a field. -/
inductive Leaf (V : Value → Prop) : Value → Prop
  | equal {x : Value} (hx : V x) : Leaf V x
  | regex (pattern options : String) : Leaf V (.regex pattern options)
  | operation {op : String} {x : Value} (h : Operation V op x) : Leaf V (.single op x)
  | refused {op : String} {x : Value} (h : Operation V op x) :
    Leaf V (.single "$not" (.single op x))
  | nonEmpty : Leaf V (.document [("$ne", .null), ("$not", .single "$size" (.int32 0))])

/-- A filter built from conditions with values of a kind, and from filters that the expression
takes over as they are. -/
inductive Built (q : Expr → Bool) (V : Value → Prop) : Document → Prop
  | always : Built q V always
  | test {name : String} {c : Value} (hn : isOperator name = false) (hc : Leaf V c) :
    Built q V (test name c)
  | inject {d : Document} (hd : isValid d = true) (hq : q (.inject d) = true) : Built q V d
  | conj {a b : Document} (ha : Built q V a) (hb : Built q V b) : Built q V (conj [a, b])
  | disj {a b : Document} (ha : Built q V a) (hb : Built q V b) : Built q V (disj [a, b])
  | complement {d : Document} (hd : Built q V d) : Built q V (complement d)
  | someItem {name : String} {node : Expr} {d operand : Document} (hn : isOperator name = false)
    (hd : Built q V d) (ho : itemCondition node d = .ok operand) :
    Built q V (testOp name "$elemMatch" (.document operand))
  | noItem {name : String} {node : Expr} {d operand : Document} (hn : isOperator name = false)
    (hd : Built q V d) (ho : itemCondition node d = .ok operand) :
    Built q V (testOp name "$not" (.single "$elemMatch" (.document operand)))

end Filter

/-- An expression that is plain, and all nodes of which pass a test. -/
structure Expr.Passes (s : Schema) (q : Expr → Bool) (e : Expr) : Prop where
  plain : e.isPlain s = true
  every : e.every q = true

/-- A mapping that stores values of a kind as such values, for expressions whose known values are
of that kind. -/
structure Mapping.Keeps (m : Mapping) (q : Expr → Bool) (V : Value → Prop) : Prop
    extends m.IsPlain where
  scalar : ∀ x, x.isScalar = true → V x
  scalars : ∀ items, (items.all Value.isScalar) = true → V (.array items)
  known : ∀ {e : Expr} {l : Literal}, e.Passes m.schema q → e.known? = some l → V l.value
  stored : ∀ (t : Target) {l : Literal}, V l.value → Post V (fun _ => True) (m.encodeFor t l)
  listed : ∀ (node : Expr) (t : Target) {l : Literal}, V l.value →
    Post (fun items => V (.array items)) (fun _ => True) (m.encodeItemsFor node t l)
  receiver : ∀ {e call : Expr}, e.receiverForm? = some call → q e = true → q call = true

/-! ## Parts of an expression -/

namespace Expr.Passes

variable {s : Schema} {q : Expr → Bool} {e : Expr}

theorem strip (h : e.Passes s q) : e.strip.Passes s q :=
  ⟨isPlain_strip h.plain, every_strip h.every⟩

theorem body {p : Param} {body : Expr} (h : e.Passes s q) (hl : e.asUnaryLambda? = some (p, body)) :
    body.Passes s q :=
  ⟨isPlain_of_asUnaryLambda? h.plain hl, every_of_asUnaryLambda? h.every hl⟩

theorem quote (h : (Expr.quote e).Passes s q) : e.Passes s q := by
  obtain ⟨hp, he⟩ := h
  simp only [Expr.isPlain, Expr.every, Bool.and_eq_true] at hp he
  exact ⟨hp, he.2⟩

theorem convert {type : ValueType} (h : (Expr.convert e type).Passes s q) : e.Passes s q := by
  obtain ⟨hp, he⟩ := h
  simp only [Expr.isPlain, Expr.every, Bool.and_eq_true] at hp he
  exact ⟨hp, he.2⟩

theorem not (h : (Expr.not e).Passes s q) : e.Passes s q := by
  obtain ⟨hp, he⟩ := h
  simp only [Expr.isPlain, Expr.every, Bool.and_eq_true] at hp he
  exact ⟨hp, he.2⟩

theorem typeTest {name : String} {exact : Bool} (h : (Expr.typeTest e name exact).Passes s q) :
    e.Passes s q := by
  obtain ⟨hp, he⟩ := h
  simp only [Expr.isPlain, Expr.every, Bool.and_eq_true] at hp he
  exact ⟨hp, he.2⟩

theorem member {name : String} (h : (Expr.member e name).Passes s q) : e.Passes s q := by
  obtain ⟨hp, he⟩ := h
  simp only [Expr.isPlain, Expr.every, Bool.and_eq_true] at hp he
  exact ⟨hp.2, he.2⟩

theorem index {position : Expr} (h : (Expr.index e position).Passes s q) : e.Passes s q := by
  obtain ⟨hp, he⟩ := h
  simp only [Expr.isPlain, Expr.every, Bool.and_eq_true] at hp he
  exact ⟨hp.1.1, he.1.2⟩

theorem binary {op : BinaryOp} {left right : Expr} (h : (Expr.binary op left right).Passes s q) :
    left.Passes s q ∧ right.Passes s q := by
  obtain ⟨hp, he⟩ := h
  simp only [Expr.isPlain, Expr.every, Bool.and_eq_true] at hp he
  exact ⟨⟨hp.1, he.1.2⟩, hp.2, he.2⟩

theorem call {target : Expr} {method : String} {args : List Expr}
    (h : (Expr.call target method args).Passes s q) :
    target.Passes s q ∧ ∀ a ∈ args, a.Passes s q := by
  obtain ⟨hp, he⟩ := h
  simp only [Expr.isPlain, Expr.every, Bool.and_eq_true] at hp he
  exact ⟨⟨hp.1.1, he.1.2⟩, fun a ha => ⟨isPlain_of_mem hp.1.2 ha, every_of_mem he.2 ha⟩⟩

theorem staticCall {owner method : String} {args : List Expr}
    (h : (Expr.staticCall owner method args).Passes s q) : ∀ a ∈ args, a.Passes s q := by
  intro a ha
  have he := h.every
  simp only [Expr.every, Bool.and_eq_true] at he
  exact ⟨isPlain_of_staticCall h.plain ha, every_of_mem he.2 ha⟩

theorem lengthOf? {source : Expr} (h : e.Passes s q) (hs : e.lengthOf? = some source) :
    source.Passes s q := by
  have hstrip := h.strip
  unfold Expr.lengthOf? at hs
  split at hs
  · rename_i target name he
    split at hs <;> cases hs
    rw [he] at hstrip
    exact hstrip.member
  · rename_i target method he
    split at hs <;> cases hs
    rw [he] at hstrip
    exact hstrip.call.1
  · cases hs

theorem stringLengthOf? {source : Expr} (h : e.Passes s q) (hs : e.stringLengthOf? = some source) :
    source.Passes s q := by
  refine h.lengthOf? ?_
  unfold Expr.stringLengthOf? at hs
  unfold Expr.lengthOf?
  split at hs
  · rename_i target name he
    split at hs <;> cases hs
    simp [*]
  · rename_i target method he
    split at hs <;> cases hs
    simp [*]
  · cases hs

theorem unwrap (node : Expr) (sm : StringMatch) (he : e.Passes s q)
    (hsm : sm.receiver.Passes s q) :
    Post (fun r => r.receiver.Passes s q) (fun _ => True) (sm.unwrap node e) := by
  rcases StringMatch.unwrap_cases (P := fun e => e.Passes s q) (fun _ h => h.quote)
    (fun _ _ h => h.convert) (fun _ _ _ h => h.call.1) node he hsm with ⟨r, hr, hpasses⟩ | herror
  · rw [hr]
    exact hpasses
  · rw [herror]
    trivial

theorem oneKnown? {a b source : Expr} {l : Literal} (ha : a.Passes s q) (hb : b.Passes s q)
    (h : Mapping.oneKnown? a b = some (source, l)) : source.Passes s q := by
  unfold Mapping.oneKnown? at h
  split at h <;> cases h
  · exact ha
  · exact hb

theorem soughtIn? {k : Mapping.Quantifier} {param : String} {place : Expr} {throughArray : Bool}
    (h : e.Passes s q) (hsought : Mapping.soughtIn? k param e = some (place, throughArray)) :
    place.Passes s q := by
  have hstrip := h.strip
  unfold Mapping.soughtIn? at hsought
  split at hsought
  · rename_i target arg he
    rw [he] at hstrip
    split at hsought <;> cases hsought
    exact hstrip.call.1
  · rename_i left right he
    rw [he] at hstrip
    split at hsought
    · cases hsought
    · split at hsought
      · cases hsought
        exact hstrip.binary.1
      · split at hsought <;> cases hsought
        exact hstrip.binary.2
  · cases hsought

end Expr.Passes

/-- The left side of a comparison passes, and its value is of the kind. -/
structure Comparison.Passes (schema : Schema) (q : Expr → Bool) (V : Value → Prop)
    (c : Comparison) : Prop where
  left : c.left.Passes schema q
  value : V c.value.value

/-! ## Conditions -/

/-- The filter, if there is one, is built from conditions. -/
abbrev Builds (q : Expr → Bool) (V : Value → Prop) (r : Result Document) : Prop :=
  Post (Built q V) (fun _ => True) r

/-- The filter of a rule, if it has an answer, is built from conditions. -/
abbrev AnswersBuilt (q : Expr → Bool) (V : Value → Prop) (r : Result (Option Document)) : Prop :=
  Post (fun o => ∀ d ∈ o, Built q V d) (fun _ => True) r

variable {m : Mapping} {q : Expr → Bool} {V : Value → Prop} {s : Scope} {c : Comparison}

namespace Filter

theorem Built.testOp {name op : String} {x : Value} (hn : isOperator name = false)
    (h : Operation V op x) : Built q V (testOp name op x) :=
  .test hn (.operation h)

theorem Built.refused {name op : String} {x : Value} (hn : isOperator name = false)
    (h : Operation V op x) : Built q V (Filter.testOp name "$not" (.single op x)) :=
  .test hn (.refused h)

theorem built_never (hk : m.Keeps q V) : Built q V never :=
  .testOp rfl (.value (by decide) (hk.scalar _ rfl))

theorem built_ofBool (hk : m.Keeps q V) (b : Bool) : Built q V (ofBool b) := by
  cases b with
  | false => exact built_never hk
  | true => exact .always

theorem built_regex {name : String} (hn : isOperator name = false) (pattern options : String) :
    Built q V (Filter.test name (Pattern.regex pattern options)) :=
  .test hn (.regex _ _)

theorem built_arrayLength (hk : m.Keeps q V) {t : Target} (ht : PlainPath t.path) (op : BinaryOp)
    (n : Int) {x : Value} (hx : V x) : ∀ d ∈ arrayLength t op n x, Built q V d := by
  have hname := Target.isOperator_name ht
  have hsize : Operation V "$size" x := .value (by decide) hx
  have hitem (i : Int) (b : Bool) :
      Built q V (Filter.testOp (t.child (toString i)) "$exists" (.bool b)) :=
    .testOp (Target.isOperator_child ht (isOperator_toString i))
      (.value (by decide) (hk.scalar _ rfl))
  intro d hd
  cases op <;> simp only [arrayLength, Option.mem_def, Option.some.injEq, reduceCtorEq] at hd
  case equal =>
    split at hd <;> subst hd
    · exact built_never hk
    · exact .testOp hname hsize
  case notEqual =>
    split at hd <;> subst hd
    · exact .always
    · exact .refused hname hsize
  case greater | greaterOrEqual =>
    split at hd <;> subst hd
    · exact .always
    · exact hitem _ _
  case less | lessOrEqual =>
    split at hd <;> subst hd
    · exact built_never hk
    · exact hitem _ _

theorem built_comparison? {name : String} (hn : isOperator name = false) (op : BinaryOp)
    {x : Value} (hx : V x) : ∀ d ∈ comparison? name op x, Built q V d := by
  intro d hd
  cases op <;> simp only [comparison?, Option.mem_def, Option.some.injEq, reduceCtorEq] at hd
  case equal =>
    subst hd
    exact .test hn (.equal hx)
  all_goals
    subst hd
    exact .testOp hn (.value (by decide) hx)

theorem mem_of_bitOperator? {op : BinaryOp} {mask compared : Int} {name : String}
    (h : bitOperator? op mask compared = some name) : name ∈ valueOperators := by
  unfold bitOperator? at h
  split at h
  · split at h
    · cases h; decide
    · split at h <;> cases h; decide
  · split at h
    · cases h; decide
    · split at h <;> cases h; decide
  · cases h

end Filter

/-! ## Comparisons -/

theorem Comparison.passes_of? (hk : m.Keeps q V) {op : BinaryOp} {left right : Expr}
    (h : Comparison.of? op left right = some c) (hl : left.Passes m.schema q)
    (hr : right.Passes m.schema q) : c.Passes m.schema q V := by
  unfold Comparison.of? at h
  split at h
  · rename_i l hknown _
    cases h
    exact ⟨hr, hk.known hl hknown⟩
  · rename_i r hknown
    cases h
    exact ⟨hl, hk.known hr hknown⟩
  · cases h

namespace Mapping

theorem Keeps.target (hk : m.Keeps q V) (hs : s.IsPlain) {e : Expr} (he : e.Passes m.schema q) :
    Post (fun t => PlainPath t.path) (fun _ => True) (m.target e s) :=
  plain_target hk.toIsPlain hs he.plain

theorem Keeps.knownOr (hk : m.Keeps q V) (node : Expr) {e : Expr} (he : e.Passes m.schema q) :
    Post (fun l => V l.value ∧ e.known? = some l) (fun _ => True) (knownOr node e) := by
  unfold Mapping.knownOr
  split
  · rename_i l hl
    exact ⟨hk.known he hl, hl⟩
  · trivial

theorem built_plainComparison (hk : m.Keeps q V) (hs : s.IsPlain) (node : Expr)
    (hc : c.Passes m.schema q V) : Builds q V (m.plainComparison node c s) := by
  refine Post.bind (plain_targetOr hk.toIsPlain hs node hc.left.plain) fun t ht => ?_
  refine Post.bind (hk.stored t hc.value) fun x hx => ?_
  split
  · rename_i d hd
    exact built_comparison? (Target.isOperator_name ht) _ hx d hd
  · trivial

theorem built_arrayLengthRule (hk : m.Keeps q V) (hs : s.IsPlain) (hc : c.Passes m.schema q V) :
    AnswersBuilt q V (m.arrayLengthRule c s) := by
  unfold arrayLengthRule
  split
  · rename_i source n hsource _
    split
    · refine Post.bind (hk.target hs (hc.left.lengthOf? hsource)) fun t ht => ?_
      exact built_arrayLength hk ht _ _ hc.value
    · simp
  · simp

theorem built_moduloRule (hk : m.Keeps q V) (hs : s.IsPlain) (hc : c.Passes m.schema q V) :
    AnswersBuilt q V (m.moduloRule c s) := by
  have hleft := hc.left.strip
  unfold moduloRule
  split
  · rename_i dividend divisor he
    rw [he] at hleft
    split
    · rename_i n r _ _
      refine Post.bind (hk.target hs hleft.binary.1) fun t ht => ?_
      have hname := Target.isOperator_name ht
      have hmod : Operation V "$mod" (.array [.int64 (.ofInt n), .int64 (.ofInt r)]) :=
        .list (by decide) (hk.scalars _ rfl)
      dsimp only
      split
      · simpa using Built.test hname (.operation hmod)
      · simpa using Built.refused hname hmod
      · simp
    · simp
  · simp

theorem built_orderingRule (hk : m.Keeps q V) (hs : s.IsPlain) (hc : c.Passes m.schema q V) :
    AnswersBuilt q V (m.orderingRule c s) := by
  have hleft := hc.left.strip
  unfold orderingRule
  split
  · rename_i target arg he
    rw [he] at hleft
    split
    · rename_i operand hoperand _
      have hpasses : Comparison.Passes m.schema q V ⟨c.op, target, operand⟩ :=
        ⟨hleft.call.1, hk.known (hleft.call.2 arg (by simp)) hoperand⟩
      refine (built_plainComparison hk hs c.left hpasses).map fun d hd => ?_
      simpa using hd
    · simp
  · simp

theorem built_indexOfRule (hk : m.Keeps q V) (hs : s.IsPlain) (hc : c.Passes m.schema q V) :
    AnswersBuilt q V (m.indexOfRule c s) := by
  have hleft := hc.left.strip
  unfold indexOfRule
  split
  · rename_i source method args he
    rw [he] at hleft
    split
    · split
      · split
        · simp
        · refine Post.bind (hk.target hs hleft.call.1) fun t ht => ?_
          rename_i pattern _
          cases pattern with
          | none => simpa using built_never hk
          | some p => simpa using built_regex (Target.isOperator_name ht) p "s"
      · simp
    · simp
  · simp

theorem built_charAtRule (hk : m.Keeps q V) (hs : s.IsPlain) (hc : c.Passes m.schema q V) :
    AnswersBuilt q V (m.charAtRule c s) := by
  have hleft := hc.left.strip
  unfold charAtRule
  split
  · rename_i source position he
    rw [he] at hleft
    split
    · split
      · refine Post.bind (hk.target hs hleft.index) fun t ht => ?_
        simpa using built_regex (Target.isOperator_name ht) _ "s"
      · simp
    · simp
  · simp

theorem built_stringLengthRule (hk : m.Keeps q V) (hs : s.IsPlain) (hc : c.Passes m.schema q V) :
    AnswersBuilt q V (m.stringLengthRule c s) := by
  unfold stringLengthRule
  split
  · rename_i source pattern hsource _
    split
    · refine Post.bind (hk.target hs (hc.left.stringLengthOf? hsource)) fun t ht => ?_
      have hregex : Built q V (test t.name (Pattern.regex pattern "s")) :=
        built_regex (Target.isOperator_name ht) pattern "s"
      simp only [post_pure, Option.mem_def, Option.some.injEq, forall_eq']
      split
      · exact .complement hregex
      · exact hregex
    · simp
  · simp

theorem built_letterCaseRule (hk : m.Keeps q V) (hs : s.IsPlain) (hc : c.Passes m.schema q V) :
    AnswersBuilt q V (m.letterCaseRule c s) := by
  have hleft := hc.left.strip
  unfold letterCaseRule
  split
  · rename_i source method he
    rw [he] at hleft
    split
    · split
      · refine Post.bind (hk.target hs hleft.call.1) fun t ht => ?_
        have hname := Target.isOperator_name ht
        split
        · rename_i text _
          have hregex : Built q V (test t.name (Pattern.regex (Pattern.exactly text) "i")) :=
            built_regex hname _ "i"
          split
          · simp only [post_pure, Option.mem_def, Option.some.injEq, forall_eq']
            split
            · exact hregex
            · exact .complement hregex
          · simpa using built_ofBool hk _
        · simp only [post_pure, Option.mem_def, Option.some.injEq, forall_eq']
          split
          · exact .test hname (.equal (hk.scalar _ rfl))
          · exact .testOp hname (.value (by decide) (hk.scalar _ rfl))
        · trivial
      · simp
    · simp
  · simp

theorem built_bitsRule (hk : m.Keeps q V) (hs : s.IsPlain) (hc : c.Passes m.schema q V) :
    AnswersBuilt q V (m.bitsRule c s) := by
  have hleft := hc.left.strip
  unfold bitsRule
  split
  · rename_i operand right he
    rw [he] at hleft
    split
    · split
      · rename_i mask hmask
        split
        · split
          · rename_i op hop
            refine Post.bind (hk.target hs hleft.binary.1) fun t ht => ?_
            have hvalue : Operation V op mask.value :=
              .value (mem_of_bitOperator? hop) (hk.known hleft.binary.2 hmask)
            simpa using Built.testOp (Target.isOperator_name ht) hvalue
          · simp
        · simp
      · simp
    · simp
  · simp

theorem built_firstAnswer {rules : List Comparison.Rule}
    (h : ∀ rule ∈ rules, AnswersBuilt q V (rule c s)) :
    AnswersBuilt q V (c.firstAnswer s rules) := by
  induction rules with
  | nil => simp [Comparison.firstAnswer]
  | cons rule rest ih =>
    refine Post.bind (h rule (by simp)) fun o ho => ?_
    cases o with
    | none => exact ih fun r hr => h r (by simp [hr])
    | some d => exact ho

theorem built_comparisonRules (hk : m.Keeps q V) (hs : s.IsPlain) (hc : c.Passes m.schema q V) :
    ∀ rule ∈ m.comparisonRules, AnswersBuilt q V (rule c s) := by
  simp only [comparisonRules, List.mem_cons, List.not_mem_nil, or_false, forall_eq_or_imp,
    forall_eq]
  exact ⟨built_arrayLengthRule hk hs hc, built_moduloRule hk hs hc, built_orderingRule hk hs hc,
    built_indexOfRule hk hs hc, built_charAtRule hk hs hc, built_stringLengthRule hk hs hc,
    built_letterCaseRule hk hs hc, built_bitsRule hk hs hc⟩

/-! ## Strings and membership -/

theorem built_stringMatch (hk : m.Keeps q V) (hs : s.IsPlain) (node : Expr) {receiver : Expr}
    (hr : receiver.Passes m.schema q) (place : TextPlace) (needle : Expr) :
    Builds q V (m.stringMatch node receiver place needle s) := by
  unfold stringMatch
  split
  · trivial
  · refine Post.bind (hr.unwrap node _ hr) fun found hfound => ?_
    refine Post.bind (hk.target hs hfound) fun t ht => ?_
    exact built_regex (Target.isOperator_name ht) _ _

theorem built_equalIgnoringCase (hk : m.Keeps q V) (hs : s.IsPlain) (node : Expr) {a b : Expr}
    (ha : a.Passes m.schema q) (hb : b.Passes m.schema q) :
    Builds q V (m.equalIgnoringCase node a b s) := by
  unfold equalIgnoringCase
  split
  · trivial
  · rename_i source l hsource
    refine Post.bind (hk.target hs (.oneKnown? ha hb hsource)) fun t ht => ?_
    have hname := Target.isOperator_name ht
    split
    · exact built_regex hname _ _
    · exact .test hname (.equal (hk.scalar _ rfl))
    · trivial

theorem built_regexMatch (hk : m.Keeps q V) (hs : s.IsPlain) (node : Expr) {input : Expr}
    (hi : input.Passes m.schema q) (pattern : Expr) (options : Option Expr) :
    Builds q V (m.regexMatch node input pattern options s) := by
  unfold regexMatch
  split
  · trivial
  · refine Post.bind (Post.of_total (regexLetters node options)) fun letters _ => ?_
    refine Post.bind (hk.target hs hi) fun t ht => ?_
    exact built_regex (Target.isOperator_name ht) _ _

theorem built_containsKey (hk : m.Keeps q V) (hs : s.IsPlain) (node : Expr) {dictionary key : Expr}
    (hd : dictionary.Passes m.schema q) (hkey : key.Passes m.schema q)
    (hplain : key.isPlainKey = true) : Builds q V (m.containsKey node dictionary key s) := by
  refine Post.bind (hk.target hs hd) fun t ht => ?_
  refine Post.bind (hk.knownOr node hkey) fun l hl => ?_
  split
  · split
    · rename_i name hname
      have hop := Expr.isOperator_of_isPlainKey hplain hl.2 hname
      exact .testOp (Target.isOperator_child ht hop) (.value (by decide) (hk.scalar _ rfl))
    · trivial
  · exact .test (Target.isOperator_child ht rfl) (.equal hl.1)
  · trivial

theorem built_isOneOf (hk : m.Keeps q V) (hs : s.IsPlain) (node : Expr) {item values : Expr}
    (hi : item.Passes m.schema q) (hv : values.Passes m.schema q) :
    Builds q V (m.isOneOf node item values s) := by
  refine Post.bind (hk.knownOr node hv) fun l hl => ?_
  refine Post.bind (hk.target hs hi) fun t ht => ?_
  refine Post.bind (hk.listed node t hl.1) fun items hitems => ?_
  exact .testOp (Target.isOperator_name ht) (.list (by decide) hitems)

theorem built_contains (hk : m.Keeps q V) (hs : s.IsPlain) (node : Expr) {collection item : Expr}
    (hc : collection.Passes m.schema q) (hi : item.Passes m.schema q)
    (hplain : (m.schema.typeOf collection).isDictionary = true → item.isPlainKey = true) :
    Builds q V (m.contains node collection item s) := by
  unfold contains
  dsimp only
  split
  · rename_i hdict
    exact built_containsKey hk hs node hc hi (hplain hdict)
  · split
    · exact built_stringMatch hk hs node hc _ _
    · split
      · exact built_isOneOf hk hs node hi hc
      · refine Post.bind (hk.target hs hc) fun t ht => ?_
        split
        · refine Post.bind (hk.knownOr node hi) fun l hl => ?_
          refine Post.bind (hk.stored t.item hl.1) fun x hx => ?_
          exact .test (Target.isOperator_name (t := t.item) ht) (.equal hx)
        · trivial

theorem built_knownItems (hk : m.Keeps q V) (hs : s.IsPlain) (node : Expr) (k : Quantifier)
    {values : Literal} (hv : V values.value) (param : Param) {body : Expr}
    (hb : body.Passes m.schema q) : Builds q V (m.knownItems node k values param body s) := by
  unfold knownItems
  split
  · trivial
  · rename_i place throughArray hsought
    refine Post.bind (hk.target (hs.bindInner param.name) (hb.soughtIn? hsought)) fun t ht => ?_
    have hplain : PlainPath (if throughArray then t.item else t).path := by
      cases throughArray <;> exact ht
    have hop : k.operator ∈ listOperators := by cases k <;> decide
    refine Post.bind (hk.listed node _ hv) fun items hitems => ?_
    exact .testOp (Target.isOperator_name hplain) (.list hop hitems)

/-- The mark of a type is a text. -/
theorem scalar_discriminator (schema : Schema) (nominal actual : String) :
    Post (fun o => ∀ x ∈ o, x.isScalar = true) (fun _ => True)
      (schema.discriminator nominal actual) := by
  unfold Schema.discriminator
  split
  · simp
  · split <;> simp [Value.isScalar]

theorem built_typeTest (hk : m.Keeps q V) (hs : s.IsPlain) (node : Expr) {operand : Expr}
    (ho : operand.Passes m.schema q) (typeName : String) (exact : Bool) :
    Builds q V (m.typeTest node operand typeName exact s) := by
  unfold typeTest
  split
  · rename_i nominal _
    refine Post.bind (scalar_discriminator m.schema nominal typeName) fun o hmark => ?_
    cases o with
    | none => exact .always
    | some mark =>
      refine Post.bind (hk.target hs ho) fun t ht => ?_
      have hpath :=
        Target.isOperator_child ht (isOperator_discriminatorElement hk.toIsPlain nominal)
      have htest : Built q V (test (t.child (m.discriminatorElement nominal)) mark) :=
        .test hpath (.equal (hk.scalar mark (hmark mark rfl)))
      have hfirst : isOperator (t.child (m.discriminatorElement nominal) ++ ".0") = false :=
        isOperator_append hpath rfl
      dsimp only
      split
      · exact .conj (.testOp hfirst (.value (by decide) (hk.scalar _ rfl))) htest
      · exact htest
  · trivial

theorem built_typeSelection (hk : m.Keeps q V) (node source typeArg : Expr) :
    AnswersBuilt q V (m.typeSelection node source typeArg) := by
  unfold typeSelection
  split
  · rename_i actual nominal _ _
    refine Post.bind (scalar_discriminator m.schema nominal actual) fun o hmark => ?_
    cases o with
    | none => simp
    | some mark =>
      have hname := isOperator_discriminatorElement hk.toIsPlain nominal
      simpa using Built.test hname (.equal (hk.scalar mark (hmark mark rfl)))
  · trivial

/-! ## Every node -/

section Node

variable {sub : Expr → Scope → Result Document} {n : Nat}

/-- Filters of expressions smaller than `n` are built from conditions. -/
def SubBuilt (m : Mapping) (q : Expr → Bool) (V : Value → Prop)
    (sub : Expr → Scope → Result Document) (n : Nat) : Prop :=
  ∀ e s, e.size < n → e.Passes m.schema q → s.IsPlain → Builds q V (sub e s)

theorem built_comparison (hk : m.Keeps q V) (hs : s.IsPlain) (hsub : SubBuilt m q V sub n)
    (node : Expr) (op : BinaryOp) {left right : Expr} (hl : left.Passes m.schema q)
    (hr : right.Passes m.schema q) (hln : left.size < n) (hrn : right.size < n) :
    Builds q V (m.comparison sub node op left right s) := by
  unfold comparison
  split
  · trivial
  · rename_i c hc
    have hpasses := Comparison.passes_of? hk hc hl hr
    have htest := hsub c.left s (Comparison.size_left_lt hc hln hrn) hpasses.left hs
    have hfield := built_plainComparison hk hs node hpasses
    have hrules := built_comparisonRules hk hs hpasses
    refine Post.bind (built_firstAnswer hrules) fun o ho => ?_
    cases o with
    | some d => exact ho d rfl
    | none =>
      dsimp only
      split
      · split
        · refine Post.bind htest fun d hd => ?_
          rw [post_pure]
          split
          · exact hd
          · exact .complement hd
        · exact hfield
      · split
        · refine Post.bind htest fun d hd => ?_
          rw [post_pure]
          split
          · exact .complement hd
          · exact hd
        · exact hfield
      · exact hfield

theorem built_stringEquality (hk : m.Keeps q V) (hs : s.IsPlain) (hsub : SubBuilt m q V sub n)
    (node comparison : Expr) {a b : Expr} (ha : a.Passes m.schema q) (hb : b.Passes m.schema q)
    (han : a.size < n) (hbn : b.size < n) :
    Builds q V (m.stringEquality sub node a b comparison s) := by
  unfold stringEquality
  split
  · exact built_comparison hk hs hsub node .equal ha hb han hbn
  · exact built_equalIgnoringCase hk hs node ha hb
  · trivial

theorem built_negation (hs : s.IsPlain) (hsub : SubBuilt m q V sub n) (node : Expr)
    {operand : Expr} (ho : operand.Passes m.schema q) (hon : operand.size < n) :
    Builds q V (m.negation sub node operand s) := by
  unfold negation
  split
  · rename_i inner he
    have hsize := operand.size_strip_le
    have hstrip := ho.strip
    rw [he] at hstrip
    simp only [he, Expr.size] at hsize
    exact hsub inner s (by omega) hstrip.not hs
  · split
    · trivial
    · exact (hsub operand s hon ho hs).map fun d hd => .complement hd

theorem isPlain_itemFrame (hs : s.IsPlain) (param : Param) {base : List String}
    (hb : PlainPath base) :
    (s.push { Frame.of param.name (.path base) with elemMatch := true }).IsPlain := by
  refine hs.push fun b h base' hbase => ?_
  simp only [Frame.of, List.mem_singleton] at h
  subst h
  cases hbase
  exact hb

theorem built_collapsed? (hs : s.IsPlain) (hsub : SubBuilt m q V sub n) {stored : Target}
    (ht : PlainPath stored.path) (param : Param) {body : Expr} (hb : body.Passes m.schema q)
    (hbn : body.size < n) : AnswersBuilt q V (collapsed? sub stored param body s) := by
  unfold collapsed?
  split
  · refine Post.bind (hsub body _ hbn hb (isPlain_itemFrame hs param ht)) fun d hd => ?_
    rw [post_pure]
    split
    · simpa using hd
    · simp
  · simp

theorem built_someItem {name : String} (hn : isOperator name = false) (node : Expr)
    {body : Document} (hb : Built q V body) : Builds q V (do
      return testOp name "$elemMatch" (.document (← itemCondition node body))) :=
  Post.bind (Post.self (itemCondition node body)) fun _ ho => .someItem hn hb ho

/-- Of the short form of a condition on array items the filter of the body is the filter,
otherwise it is an operand. -/
theorem built_anyStored (hk : m.Keeps q V) (hs : s.IsPlain) (hsub : SubBuilt m q V sub n)
    (node : Expr) {array body : Expr} (ha : array.Passes m.schema q)
    {selection : Option Document} (hsel : ∀ d ∈ selection, Built q V d) (param : Param)
    (hb : body.Passes m.schema q) (hbn : body.size < n) :
    Builds q V (m.anyStored sub node array selection param body s) := by
  refine Post.bind (hk.target hs ha) fun t ht => ?_
  have hname := Target.isOperator_name ht
  have hitem : Builds q V (itemFilter sub param body s) :=
    hsub body _ hbn hb (isPlain_itemFrame hs param (by simp [PlainPath]))
  split
  · trivial
  · cases selection with
    | some mark =>
      exact Post.bind hitem fun d hd => built_someItem hname node (.conj (hsel mark rfl) hd)
    | none =>
      refine Post.bind (built_collapsed? hs hsub ht param hb hbn) fun o ho => ?_
      cases o with
      | some d => exact ho d rfl
      | none => exact Post.bind hitem fun d hd => built_someItem hname node hd

theorem built_anyItem (hk : m.Keeps q V) (hs : s.IsPlain) (hsub : SubBuilt m q V sub n)
    (node : Expr) {source predicate : Expr} (hsource : source.Passes m.schema q)
    (hp : predicate.Passes m.schema q) (hpn : predicate.size < n) :
    Builds q V (m.anyItem sub node source predicate s) := by
  unfold anyItem
  split
  · trivial
  · rename_i param body hlambda
    have hb := hp.body hlambda
    have hbn := Nat.lt_trans (Expr.size_lt_of_asUnaryLambda? hlambda) hpn
    split
    · rename_i values hknown
      exact built_knownItems hk hs node .any (hk.known hsource hknown) param hb
    · split
      · rename_i inner typeArg he
        have hinner := hsource.strip
        rw [he] at hinner
        refine Post.bind (built_typeSelection hk node inner typeArg) fun selection hsel => ?_
        exact built_anyStored hk hs hsub node hinner.call.1 hsel param hb hbn
      · exact built_anyStored hk hs hsub node hsource (by simp) param hb hbn

theorem built_allItems (hk : m.Keeps q V) (hs : s.IsPlain) (hsub : SubBuilt m q V sub n)
    (node : Expr) {source predicate : Expr} (hsource : source.Passes m.schema q)
    (hp : predicate.Passes m.schema q) (hpn : predicate.size < n) :
    Builds q V (m.allItems sub node source predicate s) := by
  unfold allItems
  split
  · trivial
  · rename_i param body hlambda
    have hb := hp.body hlambda
    have hbn := Nat.lt_trans (Expr.size_lt_of_asUnaryLambda? hlambda) hpn
    split
    · rename_i values hknown
      exact built_knownItems hk hs node .all (hk.known hsource hknown) param hb
    · refine Post.bind (hk.target hs hsource) fun t ht => ?_
      have hitem : Builds q V (itemFilter sub param body s) :=
        hsub body _ hbn hb (isPlain_itemFrame hs param (by simp [PlainPath]))
      split
      · trivial
      · refine Post.bind hitem fun d hd => ?_
        refine Post.bind (Post.self (itemCondition node _)) fun operand ho => ?_
        exact .noItem (Target.isOperator_name ht) (.complement hd) ho

theorem built_nonEmpty (hk : m.Keeps q V) (hs : s.IsPlain) (node : Expr) {source : Expr}
    (hsource : source.Passes m.schema q) : Builds q V (m.nonEmpty node source s) := by
  refine Post.bind (hk.target hs hsource) fun t ht => ?_
  split
  · exact .test (Target.isOperator_name ht) .nonEmpty
  · trivial

theorem built_hasBits (hk : m.Keeps q V) (hs : s.IsPlain) (node : Expr) {operand flag : Expr}
    (ho : operand.Passes m.schema q) (hf : flag.Passes m.schema q) :
    Builds q V (m.hasBits node operand flag s) := by
  refine Post.bind (hk.target hs ho) fun t ht => ?_
  refine Post.bind (hk.knownOr node hf) fun l hl => ?_
  exact .testOp (Target.isOperator_name ht) (.value (by decide) hl.1)

theorem built_callFilter (hk : m.Keeps q V) (hs : s.IsPlain) (hsub : SubBuilt m q V sub n)
    (node : Expr) {target : Expr} {method : String} {args : List Expr}
    (h : (Expr.call target method args).Passes m.schema q)
    (hn : (Expr.call target method args).size ≤ n) :
    Builds q V (m.callFilter sub node target method args s) := by
  obtain ⟨ht, hargs⟩ := h.call
  simp only [Expr.size] at hn
  unfold callFilter
  split
  · split
    · exact built_nonEmpty hk hs node ht
    · trivial
  · rename_i arg
    have ha := hargs arg (by simp)
    simp only [Expr.sizes] at hn
    have htn : target.size < n := by omega
    have han : arg.size < n := by omega
    have hkey : Expr.takesKey m.schema target method = true → arg.isPlainKey = true := by
      intro htakes
      have hplain := h.plain
      simp only [Expr.isPlain, Bool.and_eq_true] at hplain
      simpa [htakes] using hplain.2
    split
    · exact built_anyItem hk hs hsub node ht ha han
    · exact built_allItems hk hs hsub node ht ha han
    · exact built_contains hk hs node ht ha fun hdict => hkey (by simp [Expr.takesKey, hdict])
    · exact built_stringMatch hk hs node ht _ _
    · exact built_stringMatch hk hs node ht _ _
    · exact built_containsKey hk hs node ht ha (hkey (by simp [Expr.takesKey]))
    · exact built_comparison hk hs hsub node .equal ht ha htn han
    · exact built_isOneOf hk hs node ht ha
    · exact built_hasBits hk hs node ht ha
    · trivial
  · rename_i other comparison
    have ha := hargs other (by simp)
    simp only [Expr.sizes] at hn
    split
    · exact built_stringEquality hk hs hsub node comparison ht ha (by omega) (by omega)
    · trivial
  · trivial

theorem built_staticCallFilter (hk : m.Keeps q V) (hs : s.IsPlain) (hsub : SubBuilt m q V sub n)
    (node : Expr) (owner method : String) {args : List Expr}
    (ha : ∀ a ∈ args, a.Passes m.schema q) (hn : ∀ a ∈ args, a.size < n) :
    Builds q V (m.staticCallFilter sub node owner method args s) := by
  unfold staticCallFilter
  split
  · refine Post.bind (hk.target hs (ha _ (by simp))) fun t ht => ?_
    exact .testOp (Target.isOperator_name ht) (.list (by decide) (hk.scalars _ rfl))
  · exact built_regexMatch hk hs node (ha _ (by simp)) _ _
  · exact built_regexMatch hk hs node (ha _ (by simp)) _ _
  · exact built_comparison hk hs hsub node .equal (ha _ (by simp)) (ha _ (by simp))
      (hn _ (by simp)) (hn _ (by simp))
  · exact built_comparison hk hs hsub node .equal (ha _ (by simp)) (ha _ (by simp))
      (hn _ (by simp)) (hn _ (by simp))
  · exact built_stringEquality hk hs hsub node _ (ha _ (by simp)) (ha _ (by simp))
      (hn _ (by simp)) (hn _ (by simp))
  · trivial

theorem built_truthTest (hk : m.Keeps q V) (hs : s.IsPlain) {node : Expr}
    (h : node.Passes m.schema q) : Builds q V (m.truthTest node s) := by
  refine Post.bind (hk.target hs h) fun t ht => ?_
  have htrue : Built q V (test t.name (.bool true)) :=
    .test (Target.isOperator_name ht) (.equal (hk.scalar _ rfl))
  split
  · exact htrue
  · exact htrue
  · trivial

theorem built_both (hs : s.IsPlain) (hsub : SubBuilt m q V sub n) {left right : Expr}
    (hl : left.Passes m.schema q) (hr : right.Passes m.schema q)
    (hln : left.size < n) (hrn : right.size < n) {join : List Document → Document}
    (hjoin : ∀ {a b}, Built q V a → Built q V b → Built q V (join [a, b])) :
    Builds q V (do return join [← sub left s, ← sub right s]) := by
  refine Post.bind (hsub left s hln hl hs) fun a ha => ?_
  exact Post.bind (hsub right s hrn hr hs) fun b hb => hjoin ha hb

theorem built_filterNode (hk : m.Keeps q V) (hs : s.IsPlain) {node : Expr}
    (hsub : SubBuilt m q V sub node.size) (h : node.Passes m.schema q) :
    Builds q V (m.filterNode sub node s) := by
  cases node with
  | quote inner => exact hsub inner s (by simp [Expr.size]) h.quote hs
  | convert operand type => exact hsub operand s (by simp [Expr.size]) h.convert hs
  | literal l =>
    simp only [filterNode]
    cases l.asBool? with
    | none => trivial
    | some b => exact built_ofBool hk b
  | inject filter => exact .inject h.plain (Expr.every_self h.every)
  | not operand => exact built_negation hs hsub _ h.not (by simp [Expr.size])
  | binary op left right =>
    obtain ⟨hl, hr⟩ := h.binary
    have hln : left.size < (Expr.binary op left right).size := by simp only [Expr.size]; omega
    have hrn : right.size < (Expr.binary op left right).size := by simp only [Expr.size]; omega
    have hconj := built_both hs hsub hl hr hln hrn .conj
    have hdisj := built_both hs hsub hl hr hln hrn .disj
    simp only [filterNode]
    split
    · exact hconj
    · exact hdisj
    · split
      · exact hconj
      · trivial
    · split
      · exact hdisj
      · trivial
    · split
      · exact built_comparison hk hs hsub _ _ hl hr hln hrn
      · trivial
  | call target method args => exact built_callFilter hk hs hsub _ h (Nat.le_refl _)
  | staticCall owner method args =>
    simp only [filterNode]
    cases hc : (Expr.staticCall owner method args).receiverForm? with
    | some call =>
      have hpasses : call.Passes m.schema q :=
        ⟨Expr.isPlain_of_receiverForm? h.plain hc,
          Expr.every_of_receiverForm? h.every hc (hk.receiver hc (Expr.every_self h.every))⟩
      exact hsub call s (Expr.size_lt_of_receiverForm? hc) hpasses hs
    | none =>
      refine built_staticCallFilter hk hs hsub _ owner method h.staticCall fun a ha => ?_
      have hsize := Expr.size_le_sizes ha
      simp only [Expr.size]
      omega
  | typeTest operand typeName exact => exact built_typeTest hk hs _ h.typeTest typeName exact
  | member target name =>
    simp only [filterNode]
    split
    · refine Post.bind (hk.target hs h.member) fun t ht => ?_
      exact .testOp (Target.isOperator_name ht) (.value (by decide) (hk.scalar _ rfl))
    · exact built_truthTest hk hs h
  | param p => exact built_truthTest hk hs h
  | index target position => exact built_truthTest hk hs h
  | _ => trivial

end Node

/-- **Every filter of a plain expression is built from conditions on fields.** -/
theorem built_filterOf (hk : m.Keeps q V) (e : Expr) {s : Scope} (hs : s.IsPlain)
    (h : e.Passes m.schema q) : Builds q V (m.filterOf e s) := by
  rw [filterOf_eq]
  exact built_filterNode hk hs (fun e' _ _ h' hs' => built_filterOf hk e' hs' h') h
termination_by e.size

end Mapping
end DocQuery
