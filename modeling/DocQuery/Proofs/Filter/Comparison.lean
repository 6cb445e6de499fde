/-
Filters of comparisons of a chain of stored members with a literal.

No rule for comparisons has an answer for a chain, so it is compared as a plain
field (`comparison_chain`), with the literal in the form in which the field stores
it. Only a member named `HasValue` is different: compared with a truth value, it
is taken for a test (`comparison_test`), and its filter is that of a stored truth
value (`filterOf_chain`).
-/
import DocQuery.Proofs.Chain
import DocQuery.Proofs.Filter.Connectives

namespace DocQuery

open DocQuery.Filter

/-- A comparison that no rule has an answer for. -/
theorem Comparison.firstAnswer_eq_none {c : Comparison} {s : Scope} {rules : List Rule}
    (h : ∀ rule ∈ rules, rule c s = .ok none) : c.firstAnswer s rules = .ok none := by
  induction rules with
  | nil => rfl
  | cons rule rest ih =>
    simp only [firstAnswer, h rule (by simp)]
    exact ih fun r hr => h r (by simp [hr])

/-! ## Members and positions -/

/-- Whether an expression is a parameter, or a member or an item at a position of such an
expression. -/
def Expr.isAccess : Expr → Bool
  | .param _ => true
  | .member target _ => target.isAccess
  | .index target _ => target.isAccess
  | _ => false

namespace Schema

variable {s : Schema} {e target : Expr} {name : String} {f : FieldPath}

theorem isAccess_of_chain? (h : s.chain? e = some f) : e.isAccess = true := by
  fun_induction chain? s e generalizing f with
  | case1 => rfl
  | case2 target name ih =>
    obtain ⟨g, hg, -⟩ := chain?_member h
    exact ih hg
  | case3 => cases h

theorem memberOf?_of_fieldPath? (h : s.fieldPath? (.member target name) = .ok (some f)) :
    ∃ g, s.fieldPath? target = .ok (some g) ∧ s.memberOf? g name = .ok (some f) := by
  rw [fieldPath?] at h
  obtain ⟨o, ho, h⟩ := bind_eq_ok.1 h
  cases o with
  | none => cases h
  | some g => exact ⟨g, ho, h⟩

theorem item?_of_fieldPath? {position : Expr}
    (h : s.fieldPath? (.index target position) = .ok (some f)) :
    ∃ g l, s.fieldPath? target = .ok (some g) ∧ position.asLiteral? = some l ∧
      g.item? l = some f := by
  rw [fieldPath?] at h
  obtain ⟨o, ho, h⟩ := bind_eq_ok.1 h
  cases o with
  | none => cases h
  | some g =>
    obtain ⟨l, hl, hitem⟩ := Option.bind_eq_some_iff.1 (Except.ok.inj h)
    exact ⟨g, l, ho, hl, hitem⟩

/-- A member of a stored place is the value of what may be null, or an element of a document. -/
theorem memberOf?_cases {g : FieldPath} (h : s.memberOf? g name = .ok (some f)) :
    (g.type.isNullable = true ∧ name = "Value" ∧ f = { g with type := g.type.underlying }) ∨
      ((g.type.isNullable && name = "Value") = false ∧
        ∃ stored, s.storedMember? g.type name = .ok (some stored) ∧
          f = g.step stored.element stored.type stored.representation) := by
  unfold memberOf? at h
  split at h
  · rename_i hvalue
    simp only [Bool.and_eq_true, decide_eq_true_eq] at hvalue
    cases h
    exact .inl ⟨hvalue.1, hvalue.2, rfl⟩
  · rename_i hvalue
    obtain ⟨o, ho, h⟩ := bind_eq_ok.1 h
    obtain ⟨stored, rfl, rfl⟩ := Option.map_eq_some_iff.1 (Except.ok.inj h)
    exact .inr ⟨by simpa using hvalue, stored, ho, rfl⟩

/-- What has an item at a position or under a key is an array or a dictionary. -/
theorem underlying_of_fieldItem? {g : FieldPath} {l : Literal} (h : g.item? l = some f) :
    g.type.underlying = .array f.type ∨
      ∃ layout, g.type.underlying = .dictionary f.type layout := by
  unfold FieldPath.item? at h
  split at h
  · rename_i item ht
    obtain ⟨n, -, hn⟩ := Option.bind_eq_some_iff.1 h
    cases hn
    exact .inl ht
  · rename_i value ht
    obtain ⟨key, -, hkey⟩ := Option.bind_eq_some_iff.1 h
    cases hkey
    exact .inr ⟨_, ht⟩
  · cases h

/-- The declared type of members and positions is that of their place. Below what has the name
`HasValue` and is declared to be a test, nothing is known. -/
theorem typeOf_of_isAccess (he : e.isAccess = true) (h : s.fieldPath? e = .ok (some f)) :
    s.typeOf e = f.type ∨ s.typeOf e = .boolean ∨ s.typeOf e = .any := by
  fun_induction Expr.isAccess e generalizing f with
  | case1 p =>
    cases h
    exact .inl rfl
  | case2 target name ih =>
    obtain ⟨g, hg, hmember⟩ := memberOf?_of_fieldPath? h
    rw [typeOf]
    rcases ih he hg with ht | ht | ht
    · rw [ht]
      rcases memberOf?_cases hmember with ⟨hnull, rfl, rfl⟩ | ⟨hvalue, stored, hstored, rfl⟩
      · exact .inl (by simp [memberType, hnull])
      · cases hhas : (g.type.isNullable && name = "HasValue") with
        | true => exact .inr (.inl (by simp [memberType, hvalue, hhas]))
        | false => exact .inl (memberType_of_storedMember? hvalue hhas hstored)
    · rw [ht]
      exact .inr (.inr rfl)
    · rw [ht]
      exact .inr (.inr rfl)
  | case3 target position ih =>
    obtain ⟨g, l, hg, -, hitem⟩ := item?_of_fieldPath? h
    rw [typeOf]
    rcases ih he hg with ht | ht | ht
    · rcases underlying_of_fieldItem? hitem with hu | ⟨layout, hu⟩
      · exact .inl (by rw [ht, hu])
      · exact .inl (by rw [ht, hu])
    · rw [ht]
      exact .inr (.inr rfl)
    · rw [ht]
      exact .inr (.inr rfl)
  | case4 => cases he

/-- What has a stored member is no sequence. -/
theorem typeOf_of_member (he : (Expr.member target name).isAccess = true) (hname : name ≠ "Value")
    (h : s.fieldPath? (.member target name) = .ok (some f)) :
    (s.typeOf target).isArray = false ∧ (s.typeOf target).isString = false := by
  obtain ⟨g, hg, hmember⟩ := memberOf?_of_fieldPath? h
  have htarget : target.isAccess = true := he
  rcases typeOf_of_isAccess htarget hg with ht | ht | ht
  · rw [ht]
    rcases memberOf?_cases hmember with ⟨-, rfl, -⟩ | ⟨-, stored, hstored, -⟩
    · exact absurd rfl hname
    · rcases underlying_of_storedMember? hstored with ⟨typeName, hu⟩ | hu
      · simp [ValueType.isArray, ValueType.item?, ValueType.isString, hu]
      · simp [ValueType.isArray, ValueType.item?, ValueType.isString, hu]
  · rw [ht]
    exact ⟨rfl, rfl⟩
  · rw [ht]
    exact ⟨rfl, rfl⟩

/-- What has a stored item is no string. -/
theorem typeOf_of_index {position : Expr} (he : (Expr.index target position).isAccess = true)
    (h : s.fieldPath? (.index target position) = .ok (some f)) :
    (s.typeOf target).isString = false := by
  obtain ⟨g, l, hg, -, hitem⟩ := item?_of_fieldPath? h
  have htarget : target.isAccess = true := he
  rcases typeOf_of_isAccess htarget hg with ht | ht | ht
  · rcases underlying_of_fieldItem? hitem with hu | ⟨layout, hu⟩
    · simp [ht, ValueType.isString, hu]
    · simp [ht, ValueType.isString, hu]
  · rw [ht]
    rfl
  · rw [ht]
    rfl

end Schema

namespace Mapping

variable {m : Mapping} {e : Expr} {f : FieldPath} {p : Param} {l : Literal} {op : BinaryOp}
  {s : Scope}

/-- No rule for comparisons has an answer for members and positions that are stored. -/
theorem firstAnswer_of_isAccess (he : e.isAccess = true)
    (h : m.schema.fieldPath? e = .ok (some f)) :
    (Comparison.mk op e l).firstAnswer s m.comparisonRules = .ok none := by
  refine Comparison.firstAnswer_eq_none fun rule hrule => ?_
  simp only [comparisonRules, List.mem_cons, List.not_mem_nil, or_false] at hrule
  cases e with
  | param q => rcases hrule with rfl | rfl | rfl | rfl | rfl | rfl | rfl | rfl <;> rfl
  | member target name =>
    rcases hrule with rfl | rfl | rfl | rfl | rfl | rfl | rfl | rfl
    case inl =>
      unfold arrayLengthRule
      simp only [Expr.lengthOf?, Expr.strip]
      by_cases hname : name = "Length" ∨ name = "Count"
      · have hvalue : name ≠ "Value" := by
          rintro rfl
          simp at hname
        have hsequence := Schema.typeOf_of_member he hvalue h
        cases l.asInt? <;> simp [hname, hsequence.1, pure, Except.pure]
      · simp [hname, pure, Except.pure]
    case inr.inr.inr.inr.inr.inl =>
      unfold stringLengthRule
      simp only [Expr.stringLengthOf?, Expr.strip]
      by_cases hname : name = "Length"
      · have hvalue : name ≠ "Value" := by
          rintro rfl
          simp at hname
        have hsequence := Schema.typeOf_of_member he hvalue h
        cases l.asInt64?.bind (Pattern.length? op) <;>
          simp [hname, hsequence.2, pure, Except.pure]
      · simp [hname, pure, Except.pure]
    all_goals rfl
  | index target position =>
    rcases hrule with rfl | rfl | rfl | rfl | rfl | rfl | rfl | rfl
    case inr.inr.inr.inr.inl =>
      simp only [charAtRule, Expr.strip, Schema.typeOf_of_index he h, Bool.false_and,
        Bool.false_eq_true, if_false]
      rfl
    all_goals rfl
  | _ => cases he

/-- No rule for comparisons has an answer for a chain. -/
theorem firstAnswer_of_chain (h : m.schema.chain? e = some f) :
    (Comparison.mk op e l).firstAnswer s m.comparisonRules = .ok none :=
  firstAnswer_of_isAccess (Schema.isAccess_of_chain? h) (Schema.fieldPath?_of_chain? h)

/-- A lambda over whole documents is in no other lambda. -/
theorem isForeign_root (param q : String) : (Scope.root param).isForeign q = false := by
  by_cases hq : param = q
  · simp [Scope.isForeign, Scope.classify, Scope.root, Scope.push, Frame.of, Frame.binding?, hq]
  · simp [Scope.isForeign, Scope.classify, Scope.root, Scope.push, Frame.of, Frame.binding?, hq]

theorem checkChain_of_isForeign (hs : ∀ q, s.isForeign q = false) (e : Expr) :
    s.checkChain e = .ok () := by
  unfold Scope.checkChain
  split
  · rw [hs]
    rfl
  · rfl

/-- A chain may be read where no parameter is that of an enclosing lambda. -/
theorem check_of_chain? (hs : ∀ q, s.isForeign q = false) (h : m.schema.chain? e = some f) :
    s.check e = .ok () := by
  fun_induction Schema.chain? m.schema e generalizing f with
  | case1 p => exact checkChain_of_isForeign hs _
  | case2 target name ih =>
    obtain ⟨g, hg, -⟩ := Schema.chain?_member h
    simp only [Scope.check, checkChain_of_isForeign hs, ih hg]
    rfl
  | case3 => cases h

theorem check_chain (h : m.schema.chain? e = some f) (param : String) :
    (Scope.root param).check e = .ok () :=
  check_of_chain? (isForeign_root param) h

/-- A chain is compared with the stored form of the literal. -/
theorem plainComparison_chain (h : m.schema.chain? e = some f) (hp : f.param = p.name)
    (node : Expr) :
    m.plainComparison node ⟨op, e, l⟩ (.root p.name) =
      (m.schema.storedForm f l >>= fun v =>
        match comparison? f.dotted op v with
        | some q => .ok q
        | none => .error (.unsupported node)) := by
  unfold plainComparison targetOr
  simp only [target?_chain h hp]
  rfl

theorem filterOf_comparison (hop : op.isComparison = true) (left right : Expr) :
    m.filterOf (.binary op left right) s =
      m.comparison m.filterOf (.binary op left right) op left right s := by
  rw [filterOf_eq]
  cases op <;> first | rfl | cases hop

/-- The filter of a chain as a stored truth value. -/
theorem filterOf_chain (h : m.schema.chain? e = some f) (hp : f.param = p.name) :
    m.filterOf e (.root p.name) =
      if f.type.isBoolean = true ∨ f.type.underlying = .any then
        .ok (test f.dotted (.bool true))
      else .error (.unsupported e) := by
  have htruth : m.filterOf e (.root p.name) = m.truthTest e (.root p.name) := by
    rw [filterOf_eq]
    cases e with
    | param q => rfl
    | member target name =>
      -- What may be null has no member `HasValue` that is stored.
      obtain ⟨g, hg, hmember⟩ := Schema.chain?_member h
      have hhas : (name = "HasValue" && (m.schema.typeOf target).isNullable) = false := by
        rw [Schema.typeOf_of_chain? hg, Bool.and_comm]
        rcases hmember with ⟨-, rfl, -⟩ | ⟨-, hhas, -⟩
        · simp
        · exact hhas
      simp only [filterNode, hhas, Bool.false_eq_true, if_false]
    | _ => cases h
  rw [htruth]
  unfold truthTest target targetOr ValueType.isBoolean
  rw [target?_chain h hp]
  dsimp only [bind, Except.bind, pure, Except.pure]
  split
  · rename_i htype
    rw [if_pos (.inl (by simp [htype]))]
    rfl
  · rename_i htype
    rw [if_pos (.inr htype)]
    rfl
  · rename_i hboolean hany
    rw [if_neg (by simpa using ⟨hboolean, hany⟩)]
    rfl

theorem eq_of_filterOf_chain (h : m.schema.chain? e = some f) (hp : f.param = p.name)
    {q : Document} (hq : m.filterOf e (.root p.name) = .ok q) :
    q = test f.dotted (.bool true) ∧ (f.type.isBoolean = true ∨ f.type.underlying = .any) := by
  rw [filterOf_chain h hp] at hq
  split at hq
  · rename_i htype
    cases hq
    exact ⟨rfl, htype⟩
  · cases hq

variable {sub : Expr → Scope → Result Document} {node left right : Expr} {op' : BinaryOp}

/-- What no rule has an answer for is compared as a plain field, unless it is a test. -/
theorem comparison_of_firstAnswer (hof : Comparison.of? op left right = some ⟨op', e, l⟩)
    (hrules : (Comparison.mk op' e l).firstAnswer s m.comparisonRules = .ok none)
    (htest : e.isTest = false ∨ l.asBool? = none ∨ op' ≠ .equal ∧ op' ≠ .notEqual) :
    m.comparison sub node op left right s = m.plainComparison node ⟨op', e, l⟩ s := by
  unfold comparison
  simp only [hof, hrules]
  rcases htest with htest | hbool | ⟨heq, hne⟩
  · simp only [htest, Bool.false_eq_true, if_false]
    cases l.asBool? <;> cases op' <;> rfl
  · simp only [hbool]
    rfl
  · cases l.asBool? with
    | none => rfl
    | some b =>
      cases op' with
      | equal => exact absurd rfl heq
      | notEqual => exact absurd rfl hne
      | _ => rfl

/-- A test that no rule has an answer for is compared with true or false by its filter. -/
theorem comparison_of_isTest (hof : Comparison.of? op left right = some ⟨op', e, l⟩)
    (hrules : (Comparison.mk op' e l).firstAnswer s m.comparisonRules = .ok none)
    (htest : e.isTest = true) {b : Bool} (hl : l.asBool? = some b)
    (hop : op' = .equal ∨ op' = .notEqual) :
    m.comparison sub node op left right s =
      (sub e s >>= fun q => .ok (if b == (op' = .equal) then q else complement q)) := by
  unfold comparison
  simp only [hof, hrules]
  rcases hop with rfl | rfl
  · simp only [hl, htest, if_true]
    cases b <;> rfl
  · simp only [hl, htest, if_true]
    cases b <;> rfl

/-- A chain is compared as a plain field, unless it is a member that is taken for a test. -/
theorem comparison_chain (h : m.schema.chain? e = some f)
    (hof : Comparison.of? op left right = some ⟨op', e, l⟩)
    (htest : e.isTest = false ∨ l.asBool? = none ∨ op' ≠ .equal ∧ op' ≠ .notEqual) :
    m.comparison sub node op left right s = m.plainComparison node ⟨op', e, l⟩ s :=
  comparison_of_firstAnswer hof (firstAnswer_of_chain h) htest

/-- A member that is taken for a test is compared with true or false by its filter. -/
theorem comparison_test (h : m.schema.chain? e = some f)
    (hof : Comparison.of? op left right = some ⟨op', e, l⟩) (htest : e.isTest = true) {b : Bool}
    (hl : l.asBool? = some b) (hop : op' = .equal ∨ op' = .notEqual) :
    m.comparison sub node op left right s =
      (sub e s >>= fun q => .ok (if b == (op' = .equal) then q else complement q)) :=
  comparison_of_isTest hof (firstAnswer_of_chain h) htest hl hop

end Mapping
end DocQuery
