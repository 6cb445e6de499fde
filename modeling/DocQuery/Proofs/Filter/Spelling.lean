/-
Filters of an expression in two spellings of its calls.

What the filter of a respelled expression is, the filter of the expression is too
(`refinesBelow`). Each rule is compared step by step. A rule that reads a stored
field finds nothing respelled in it (`refines_targetOr`). A rule for comparisons
looks for a call on a receiver, so that one on a class has to be a test
(`firstAnswer_staticCall`, `comparison_eq_ok`), and a string is not read through a
call on a class (`sameMatch_unwrap`).
-/
import DocQuery.Filter.Unfolding
import DocQuery.Proofs.Filter.Comparison
import DocQuery.Proofs.Spelling

namespace DocQuery.Mapping

open DocQuery.Filter DocQuery.Expr

variable {m : Mapping} {b : Bool} {e e' l l' : Expr} {s : Scope} {n : Nat}

/-! ## Targets -/

/-- What has a target is not respelled. -/
theorem refines_targetOr (node node' : Expr) (h : Respelled true b e e') :
    Refines (m.targetOr node e s) (m.targetOr node' e' s) := by
  intro target ht
  unfold targetOr at ht ⊢
  obtain ⟨r, hr, ht⟩ := bind_eq_ok.1 ht
  cases r with
  | none => cases ht
  | some t =>
    have hr' := hr
    unfold target? at hr'
    obtain ⟨f, hf, -⟩ := exists_of_bind_eq_some hr' rfl
    rw [h.eq_of_fieldPath? m.schema f hf, hr]
    exact ht

/-- A call on a class is no stored field. -/
theorem fieldPath?_staticCall {schema : Schema} {owner method : String} {args : List Expr}
    (h : e.strip = .staticCall owner method args) : schema.fieldPath? e = .ok none := by
  induction e using Expr.strip.induct with
  | case1 inner ih => simpa only [Schema.fieldPath?] using ih h
  | case2 operand type ih => simpa only [Schema.fieldPath?] using ih h
  | case3 e hq hc =>
    rw [Expr.strip.eq_3 e hq hc] at h
    rw [h]
    simp only [Schema.fieldPath?]

theorem not_targetOr_staticCall {node : Expr} {owner method : String} {args : List Expr}
    {target : Target} (h : e.strip = .staticCall owner method args) :
    m.targetOr node e s ≠ .ok target := by
  simp [targetOr, target?, fieldPath?_staticCall h, bind, Except.bind, pure, Except.pure, throw,
    throwThe, MonadExceptOf.throw]

theorem refines_target (h : Respelled true b e e') : Refines (m.target e s) (m.target e' s) :=
  refines_targetOr e e' h

theorem refines_knownOr (node node' : Expr) (h : Respelled true b e e') :
    Refines (knownOr node e) (knownOr node' e') := by
  unfold knownOr
  rw [h.known?_eq]
  split
  · exact .refl _
  · exact .of_error

theorem refines_encodeItemsFor (node node' : Expr) (target : Target) (values : Literal) :
    Refines (m.encodeItemsFor node target values) (m.encodeItemsFor node' target values) := by
  unfold encodeItemsFor
  split
  · exact .refl _
  · exact .of_error

/-! ## Comparisons -/

theorem refines_plainComparison (node node' : Expr) (op : BinaryOp) (v : Literal)
    (h : Respelled true b l l') :
    Refines (m.plainComparison node ⟨op, l, v⟩ s) (m.plainComparison node' ⟨op, l', v⟩ s) := by
  unfold plainComparison
  refine (refines_targetOr node node' h).bind fun target => (Refines.refl _).bind fun value => ?_
  dsimp only
  split
  · exact .refl _
  · exact .of_error

/-- The sequence whose length an expression is, written as a member with one of some names or as a
count. -/
def lengthBy (names : String → Prop) [DecidablePred names] (e : Expr) : Option Expr :=
  match e.strip with
  | .member target name => if names name then some target else none
  | .call target method [] => if method = "Count" then some target else none
  | _ => none

/-- Neither is a length, or both are lengths of the same sequence, unless the second is a call on a
class. -/
theorem lengthBy_cases (names : String → Prop) [DecidablePred names] (h : Respelled true b l l')
    (hne : ∀ owner method args, l'.strip ≠ .staticCall owner method args) :
    (lengthBy names l = none ∧ lengthBy names l' = none) ∨
      ∃ t t', lengthBy names l = some t ∧ lengthBy names l' = some t' ∧ Respelled true b t t' := by
  have hs := h.strip
  unfold lengthBy
  generalize l.strip = x at hs
  generalize l'.strip = x' at hs hne
  cases hs
  case member name ht =>
    by_cases hn : names name
    · exact .inr ⟨_, _, if_pos hn, if_pos hn, ht⟩
    · exact .inl ⟨if_neg hn, if_neg hn⟩
  case call method _ _ ht ha _ =>
    cases ha with
    | cons _ _ => exact .inl ⟨rfl, rfl⟩
    | nil =>
      by_cases hn : method = "Count"
      · exact .inr ⟨_, _, if_pos hn, if_pos hn, ht⟩
      · exact .inl ⟨if_neg hn, if_neg hn⟩
  case onClass => exact absurd rfl (hne _ _ _)
  all_goals exact .inl ⟨rfl, rfl⟩

section Rules

variable {op : BinaryOp} {v : Literal} (h : Respelled true b l l')
  (hne : ∀ owner method args, l'.strip ≠ .staticCall owner method args)
include h hne

theorem refines_arrayLengthRule :
    Refines (m.arrayLengthRule ⟨op, l, v⟩ s) (m.arrayLengthRule ⟨op, l', v⟩ s) := by
  have hcases := lengthBy_cases (fun name => name = "Length" || name = "Count") h hne
  have hlength (e : Expr) :
      lengthBy (fun name => name = "Length" || name = "Count") e = e.lengthOf? := rfl
  rw [hlength, hlength] at hcases
  unfold arrayLengthRule
  rcases hcases with ⟨hn, hn'⟩ | ⟨t, t', hl, hl', ht⟩
  · simp only [hn, hn']
    exact .refl _
  · simp only [hl, hl']
    cases v.asInt? with
    | none => exact .refl _
    | some i =>
      dsimp only
      rw [ht.typeOf_eq]
      split
      · exact (refines_target ht).bind fun _ => .refl _
      · exact .refl _

theorem refines_moduloRule :
    Refines (m.moduloRule ⟨op, l, v⟩ s) (m.moduloRule ⟨op, l', v⟩ s) := by
  have hs := h.strip
  unfold moduloRule
  dsimp only
  generalize l.strip = x at hs
  generalize l'.strip = x' at hs hne
  cases hs
  case binary _ _ _ divisor op' hd hr =>
    cases op'
    case modulo =>
      simp only [hr.known?_eq]
      cases divisor.known?.bind Literal.asInt? with
      | none => exact .refl _
      | some i =>
        cases v.asInt? with
        | none => exact .refl _
        | some j => exact (refines_target hd).bind fun _ => .refl _
    all_goals exact .refl _
  case onClass => exact absurd rfl (hne _ _ _)
  all_goals exact .refl _

theorem refines_orderingRule :
    Refines (m.orderingRule ⟨op, l, v⟩ s) (m.orderingRule ⟨op, l', v⟩ s) := by
  have hs := h.strip
  unfold orderingRule
  dsimp only
  generalize l.strip = x at hs
  generalize l'.strip = x' at hs hne
  cases hs
  case call method _ _ ht ha _ =>
    by_cases hm : method = "CompareTo"
    · subst hm
      cases ha with
      | nil => exact .refl _
      | cons harg hr =>
        cases hr with
        | cons _ _ => exact .refl _
        | nil =>
          simp only [harg.known?_eq]
          split
          · exact (refines_plainComparison l l' op _ ht).map some
          · exact .refl _
    · split
      · rename_i hcall
        cases hcall
        exact absurd rfl hm
      · split
        · rename_i hcall
          cases hcall
          exact absurd rfl hm
        · exact .refl _
  case onClass => exact absurd rfl (hne _ _ _)
  all_goals exact .refl _

theorem refines_indexOfRule :
    Refines (m.indexOfRule ⟨op, l, v⟩ s) (m.indexOfRule ⟨op, l', v⟩ s) := by
  have hs := h.strip
  unfold indexOfRule
  dsimp only
  generalize l.strip = x at hs
  generalize l'.strip = x' at hs hne
  cases hs
  case call method _ _ ht ha _ =>
    simp only [ht.typeOf_eq, Respelled.knownItems?_eq ha]
    split
    · split
      · split
        · exact .refl _
        · exact (refines_target ht).bind fun _ => .refl _
      · exact .refl _
    · exact .refl _
  case onClass => exact absurd rfl (hne _ _ _)
  all_goals exact .refl _

theorem refines_charAtRule :
    Refines (m.charAtRule ⟨op, l, v⟩ s) (m.charAtRule ⟨op, l', v⟩ s) := by
  have hs := h.strip
  unfold charAtRule
  dsimp only
  generalize l.strip = x at hs
  generalize l'.strip = x' at hs hne
  cases hs
  case index _ _ _ position ht hi =>
    simp only [ht.typeOf_eq, hi.known?_eq]
    split
    · cases position.known?.bind Literal.asInt? with
      | none => exact .refl _
      | some i =>
        cases v.char? with
        | none => exact .refl _
        | some c => exact (refines_target ht).bind fun _ => .refl _
    · exact .refl _
  case onClass => exact absurd rfl (hne _ _ _)
  all_goals exact .refl _

theorem refines_stringLengthRule :
    Refines (m.stringLengthRule ⟨op, l, v⟩ s) (m.stringLengthRule ⟨op, l', v⟩ s) := by
  have hcases := lengthBy_cases (fun name => name = "Length") h hne
  have hlength (e : Expr) : lengthBy (fun name => name = "Length") e = e.stringLengthOf? := rfl
  rw [hlength, hlength] at hcases
  unfold stringLengthRule
  rcases hcases with ⟨hn, hn'⟩ | ⟨t, t', hl, hl', ht⟩
  · simp only [hn, hn']
    exact .refl _
  · simp only [hl, hl']
    cases v.asInt64?.bind (Pattern.length? op) with
    | none => exact .refl _
    | some pattern =>
      dsimp only
      rw [ht.typeOf_eq]
      split
      · exact (refines_target ht).bind fun _ => .refl _
      · exact .refl _

theorem refines_letterCaseRule :
    Refines (m.letterCaseRule ⟨op, l, v⟩ s) (m.letterCaseRule ⟨op, l', v⟩ s) := by
  have hs := h.strip
  unfold letterCaseRule
  dsimp only
  generalize l.strip = x at hs
  generalize l'.strip = x' at hs hne
  cases hs
  case call method _ _ ht ha _ =>
    cases ha with
    | cons _ _ => exact .refl _
    | nil =>
      dsimp only
      split
      · split
        · refine (refines_target ht).bind fun target => ?_
          split
          · exact .refl _
          · exact .refl _
          · exact .of_error
        · exact .refl _
      · exact .refl _
  case onClass => exact absurd rfl (hne _ _ _)
  all_goals exact .refl _

theorem refines_bitsRule :
    Refines (m.bitsRule ⟨op, l, v⟩ s) (m.bitsRule ⟨op, l', v⟩ s) := by
  have hs := h.strip
  unfold bitsRule
  dsimp only
  generalize l.strip = x at hs
  generalize l'.strip = x' at hs hne
  cases hs
  case binary op' hd hr =>
    cases op'
    case and =>
      simp only [hd.typeOf_eq, hr.known?_eq]
      split
      · split
        · split
          · split
            · exact (refines_target hd).bind fun _ => .refl _
            · exact .refl _
          · exact .refl _
        · exact .refl _
      · exact .refl _
    all_goals exact .refl _
  case onClass => exact absurd rfl (hne _ _ _)
  all_goals exact .refl _

/-- Rules that agree one by one have the same first answer. -/
theorem refines_firstAnswer :
    Refines (Comparison.firstAnswer ⟨op, l, v⟩ s m.comparisonRules)
      (Comparison.firstAnswer ⟨op, l', v⟩ s m.comparisonRules) := by
  have hrules : ∀ rule ∈ m.comparisonRules, Refines (rule ⟨op, l, v⟩ s) (rule ⟨op, l', v⟩ s) := by
    intro rule hrule
    simp only [comparisonRules, List.mem_cons, List.not_mem_nil, or_false] at hrule
    rcases hrule with rfl | rfl | rfl | rfl | rfl | rfl | rfl | rfl
    · exact refines_arrayLengthRule h hne
    · exact refines_moduloRule h hne
    · exact refines_orderingRule h hne
    · exact refines_indexOfRule h hne
    · exact refines_charAtRule h hne
    · exact refines_stringLengthRule h hne
    · exact refines_letterCaseRule h hne
    · exact refines_bitsRule h hne
  generalize m.comparisonRules = rules at hrules
  induction rules with
  | nil => exact .refl _
  | cons rule rest ih =>
    refine (hrules rule (by simp)).bind fun answer => ?_
    cases answer with
    | some filter => exact .refl _
    | none => exact ih fun r hr => hrules r (by simp [hr])

end Rules

/-- No rule for comparisons has an answer for a call on a class. -/
theorem firstAnswer_staticCall {op : BinaryOp} {v : Literal} {owner method : String}
    {args : List Expr} (h : l.strip = .staticCall owner method args) :
    Comparison.firstAnswer ⟨op, l, v⟩ s m.comparisonRules = .ok none := by
  have hlength : l.lengthOf? = none := by simp [Expr.lengthOf?, h]
  have hstring : l.stringLengthOf? = none := by simp [Expr.stringLengthOf?, h]
  simp only [comparisonRules, Comparison.firstAnswer, arrayLengthRule, moduloRule, orderingRule,
    indexOfRule, charAtRule, stringLengthRule, letterCaseRule, bitsRule, hlength, hstring, h]
  rfl

theorem not_plainComparison_staticCall {op : BinaryOp} {v : Literal} {owner method : String}
    {args : List Expr} {node : Expr} {d : Document} (h : l.strip = .staticCall owner method args) :
    m.plainComparison node ⟨op, l, v⟩ s ≠ .ok d := by
  intro hd
  obtain ⟨target, htarget, -⟩ := bind_eq_ok.1 hd
  exact not_targetOr_staticCall h htarget

theorem not_letterCaseRule_of_asBool? {op : BinaryOp} {v : Literal} {expected : Bool}
    {d : Document} (hv : v.asBool? = some expected) :
    m.letterCaseRule ⟨op, l, v⟩ s ≠ .ok (some d) := by
  obtain ⟨value, type⟩ := v
  have hvalue : value = .bool expected := by
    cases value <;> simp_all [Literal.asBool?, Value.asBool?]
  intro h
  unfold letterCaseRule at h
  simp only [hvalue] at h
  split at h
  · split at h
    · split at h
      · obtain ⟨target, -, h⟩ := bind_eq_ok.1 h
        cases h
      · cases h
    · cases h
  · cases h

/-- What a test that is compared with a truth value translates to. -/
theorem comparison_eq_ok {op op' : BinaryOp} {r x : Expr} {v : Literal} {expected : Bool}
    {d : Document} (node : Expr) (hof : Comparison.of? op l r = some ⟨op', x, v⟩)
    (hv : v.asBool? = some expected) (hop : op' = .equal ∨ op' = .notEqual)
    (htest : x.isTest = true) :
    m.comparison m.filterOf node op l r s = .ok d ↔
      ∃ filter, m.filterOf x s = .ok filter ∧
        (if expected == (op' = .equal) then filter else complement filter) = d := by
  have hint := asInt?_of_asBool? hv
  constructor
  · intro hd
    have hnone : Comparison.firstAnswer ⟨op', x, v⟩ s m.comparisonRules = .ok none := by
      rw [firstAnswer_eq_letterCaseRule htest hint]
      cases hrule : m.letterCaseRule ⟨op', x, v⟩ s with
      | error cause =>
        simp only [comparison, hof, firstAnswer_eq_letterCaseRule htest hint, hrule] at hd
        cases hd
      | ok answer =>
        cases answer with
        | none => rfl
        | some filter => exact absurd hrule (not_letterCaseRule_of_asBool? hv)
    rw [comparison_of_isTest hof hnone htest hv hop] at hd
    obtain ⟨filter, hfilter, hd⟩ := bind_eq_ok.1 hd
    exact ⟨filter, hfilter, Except.ok.inj hd⟩
  · intro hd
    obtain ⟨filter, hfilter, hd⟩ := hd
    rw [comparison_of_isTest hof (firstAnswer_of_isTest htest hfilter hint) htest hv hop]
    exact bind_eq_ok.2 ⟨filter, hfilter, congrArg _ hd⟩

/-- The two comparisons have the same known side. -/
theorem comparisonOf?_cases {r r' : Expr} (op : BinaryOp) (hl : Respelled true b l l')
    (hr : Respelled true b r r') (hln : l'.size < n) (hrn : r'.size < n) :
    (Comparison.of? op l r = none ∧ Comparison.of? op l' r' = none) ∨
      ∃ op' x x' v, Comparison.of? op l r = some ⟨op', x, v⟩ ∧
        Comparison.of? op l' r' = some ⟨op', x', v⟩ ∧ Respelled true b x x' ∧ x'.size < n := by
  unfold Comparison.of?
  rw [hl.known?_eq, hr.known?_eq]
  cases l'.known? with
  | none =>
    cases r'.known? with
    | none => exact .inl ⟨rfl, rfl⟩
    | some v => exact .inr ⟨op, l, l', v, rfl, rfl, hl, hln⟩
  | some v =>
    cases r'.known? with
    | none => exact .inr ⟨op.flip, r, r', v, rfl, rfl, hr, hrn⟩
    | some w => exact .inr ⟨op, l, l', w, rfl, rfl, hl, hln⟩

/-! ## Strings -/

/-- Two ways to read a string through the same calls. -/
structure SameMatch (b : Bool) (sm sm' : StringMatch) : Prop where
  receiver : Respelled true b sm.receiver sm'.receiver
  pattern : sm.pattern = sm'.pattern
  ignoreCase : sm.ignoreCase = sm'.ignoreCase

theorem SameMatch.untrim {sm sm' : StringMatch} (h : SameMatch b sm sm') (side : TrimSide)
    (chars : List Char) (he : Respelled true b e e') :
    SameMatch b (sm.untrim side chars e) (sm'.untrim side chars e') :=
  ⟨he, by simp only [StringMatch.untrim, h.pattern], h.ignoreCase⟩

theorem isEmpty_respelled {args args' : List Expr} (h : RespelledAll true b args args') :
    args.isEmpty = args'.isEmpty := by
  cases h <;> rfl

theorem trimChars?_respelled {args args' : List Expr} (h : RespelledAll true b args args') :
    StringMatch.trimChars? args = StringMatch.trimChars? args' := by
  cases h with
  | nil => rfl
  | cons h hr =>
    cases hr with
    | nil => simp only [StringMatch.trimChars?, h.known?_eq]
    | cons _ _ => rfl

/-- A string is read through the same calls, or its reading stops at a call on a class. -/
theorem sameMatch_unwrap (node node' : Expr) (h : Respelled true b e e') {sm sm' r' : StringMatch}
    (hm : SameMatch b sm sm') (hstrip : sm'.receiver.strip = e'.strip)
    (hr : sm'.unwrap node' e' = .ok r') :
    (∃ owner method args, r'.receiver.strip = .staticCall owner method args) ∨
      ∃ r, sm.unwrap node e = .ok r ∧ SameMatch b r r' := by
  induction sm', e' using StringMatch.unwrap.induct generalizing e sm with
  | case1 sm' inner ih =>
    cases h with
    | quote h => exact ih h hm hstrip hr
  | case2 sm' operand type ih =>
    cases h with
    | convert _ h => exact ih h hm hstrip hr
  | case3 sm' inner method args hcase ih =>
    cases h with
    | call ht ha _ =>
      simp only [StringMatch.unwrap, isEmpty_respelled ha, hcase, if_true] at hr ⊢
      exact ih ht ⟨ht, hm.pattern, rfl⟩ rfl hr
  | case4 sm' inner method args hcase side hside chars hchars ih =>
    cases h with
    | call ht ha _ =>
      simp only [StringMatch.unwrap, isEmpty_respelled ha, trimChars?_respelled ha, hcase, hside,
        hchars] at hr ⊢
      exact ih ht (hm.untrim _ _ ht) rfl hr
  | case5 sm' inner method args hcase side hside hchars =>
    simp only [StringMatch.unwrap, hcase, hside, hchars] at hr
    cases hr
  | case6 sm' inner method args hcase hside =>
    cases h with
    | call ht ha _ =>
      simp only [StringMatch.unwrap, isEmpty_respelled ha, hcase, hside] at hr ⊢
      cases hr
      exact .inr ⟨sm, rfl, hm⟩
  | case7 sm' e' hquote hconvert hcall =>
    cases h
    case quote => exact absurd rfl (hquote _)
    case convert => exact absurd rfl (hconvert _ _)
    case call => exact absurd rfl (hcall _ _ _)
    case onClass =>
      cases hr
      exact .inl ⟨_, _, _, hstrip⟩
    all_goals
      cases hr
      exact .inr ⟨sm, rfl, hm⟩

theorem refines_stringMatch {r r' : Expr} (node node' : Expr) (place : TextPlace)
    (he : Respelled true b e e') (hr : Respelled true b r r') :
    Refines (m.stringMatch node e place r s) (m.stringMatch node' e' place r' s) := by
  intro d hd
  unfold stringMatch at hd ⊢
  rw [hr.known?_eq]
  cases htext : r'.known?.bind Literal.asString? with
  | none =>
    simp only [htext] at hd
    cases hd
  | some text =>
    simp only [htext] at hd ⊢
    obtain ⟨found', hfound', hd⟩ := bind_eq_ok.1 hd
    obtain ⟨target, htarget, hd⟩ := bind_eq_ok.1 hd
    have hsame : SameMatch b ⟨e, place.pattern text, false⟩ ⟨e', place.pattern text, false⟩ :=
      ⟨he, rfl, rfl⟩
    rcases sameMatch_unwrap node node' he hsame rfl hfound' with
      ⟨owner, method, args, hclass⟩ | ⟨found, hfound, hsame⟩
    · exact absurd htarget (not_targetOr_staticCall hclass)
    · refine bind_eq_ok.2 ⟨found, hfound, bind_eq_ok.2
        ⟨target, refines_target hsame.receiver target htarget, ?_⟩⟩
      rw [hsame.ignoreCase, hsame.pattern]
      exact hd

/-- Of the two spellings the same side is known. -/
theorem oneKnown?_cases {r r' : Expr} (hl : Respelled true b l l') (hr : Respelled true b r r') :
    (oneKnown? l r = none ∧ oneKnown? l' r' = none) ∨
      ∃ x x' v, oneKnown? l r = some (x, v) ∧ oneKnown? l' r' = some (x', v) ∧
        Respelled true b x x' := by
  unfold oneKnown?
  rw [hl.known?_eq, hr.known?_eq]
  cases l'.known? with
  | none =>
    cases r'.known? with
    | none => exact .inl ⟨rfl, rfl⟩
    | some v => exact .inr ⟨l, l', v, rfl, rfl, hl⟩
  | some v =>
    cases r'.known? with
    | none => exact .inr ⟨r, r', v, rfl, rfl, hr⟩
    | some w => exact .inl ⟨rfl, rfl⟩

theorem refines_equalIgnoringCase {r r' : Expr} (node node' : Expr) (hl : Respelled true b l l')
    (hr : Respelled true b r r') :
    Refines (m.equalIgnoringCase node l r s) (m.equalIgnoringCase node' l' r' s) := by
  unfold equalIgnoringCase
  rcases oneKnown?_cases hl hr with ⟨hn, hn'⟩ | ⟨x, x', v, hx, hx', hrespelled⟩
  · rw [hn, hn']
    exact .of_error
  · simp only [hx, hx']
    refine (refines_target hrespelled).bind fun target => ?_
    split
    · exact .refl _
    · exact .refl _
    · exact .of_error

theorem refines_regexMatch {r r' : Expr} {options options' : Option Expr} (node node' : Expr)
    (he : Respelled true b e e') (hr : Respelled true b r r')
    (ho : options.map Expr.known? = options'.map Expr.known?) :
    Refines (m.regexMatch node e r options s) (m.regexMatch node' e' r' options' s) := by
  have hletters : Refines (regexLetters node options) (regexLetters node' options') := by
    unfold regexLetters
    cases options with
    | none =>
      cases options' with
      | none => exact .refl _
      | some o' => cases ho
    | some o =>
      cases options' with
      | none => cases ho
      | some o' =>
        have ho : o.known? = o'.known? := Option.some.inj ho
        simp only [ho]
        split
        · exact .refl _
        · exact .refl _
        · exact .refl _
        · exact .of_error
  unfold regexMatch
  rw [hr.known?_eq]
  split
  · exact .of_error
  · exact hletters.bind fun _ => (refines_target he).bind fun _ => .refl _

/-! ## Membership -/

theorem refines_containsKey {k k' : Expr} (node node' : Expr) (he : Respelled true b e e')
    (hk : Respelled true b k k') :
    Refines (m.containsKey node e k s) (m.containsKey node' e' k' s) := by
  unfold containsKey
  refine (refines_target he).bind fun target =>
    (refines_knownOr node node' hk).bind fun key => ?_
  split
  · split
    · exact .refl _
    · exact .of_error
  · exact .refl _
  · exact .of_error

theorem refines_isOneOf {v v' : Expr} (node node' : Expr) (he : Respelled true b e e')
    (hv : Respelled true b v v') :
    Refines (m.isOneOf node e v s) (m.isOneOf node' e' v' s) := by
  unfold isOneOf
  exact (refines_knownOr node node' hv).bind fun values => (refines_target he).bind fun target =>
    (refines_encodeItemsFor node node' target values).bind fun _ => .refl _

theorem refines_contains {i i' : Expr} (node node' : Expr) (he : Respelled true b e e')
    (hi : Respelled true b i i') :
    Refines (m.contains node e i s) (m.contains node' e' i' s) := by
  unfold contains
  simp only [he.typeOf_eq, Expr.isKnown, he.known?_eq]
  split
  · exact refines_containsKey node node' he hi
  · split
    · exact refines_stringMatch node node' .anywhere he hi
    · split
      · exact refines_isOneOf node node' hi he
      · refine (refines_target he).bind fun target => ?_
        split
        · exact (refines_knownOr node node' hi).bind fun _ => .refl _
        · exact .of_error

/-- What a respelled condition on known items asks for. -/
theorem soughtIn?_respelled {q : Quantifier} {param : String} {place' : Expr} {through : Bool}
    (h : Respelled true b e e') (hp : soughtIn? q param e' = some (place', through)) :
    ∃ place, soughtIn? q param e = some (place, through) ∧ Respelled true b place place' := by
  have hs := h.strip
  unfold soughtIn? at hp ⊢
  generalize e.strip = x at hs
  generalize e'.strip = x' at hs hp
  cases hs
  case call method _ _ ht ha _ =>
    by_cases hm : method = "Contains"
    · subst hm
      cases ha with
      | nil => cases hp
      | cons harg hr =>
        cases hr with
        | cons _ _ => cases hp
        | nil =>
          simp only [harg.isParam_eq] at hp ⊢
          split at hp
          · rename_i hparam
            cases hp
            exact ⟨_, if_pos hparam, ht⟩
          · cases hp
    · split at hp
      · rename_i hcall
        cases hcall
        exact absurd rfl hm
      · rename_i hcall
        cases hcall
      · cases hp
  case binary op hl hr =>
    cases op
    case equal =>
      simp only [hl.isParam_eq, hr.isParam_eq] at hp ⊢
      split at hp
      · cases hp
      · rename_i hq
        rw [if_neg hq]
        split at hp
        · rename_i hparam
          cases hp
          exact ⟨_, if_pos hparam, hl⟩
        · rename_i hparam
          rw [if_neg hparam]
          split at hp
          · rename_i hparam'
            cases hp
            exact ⟨_, if_pos hparam', hr⟩
          · cases hp
    all_goals cases hp
  all_goals cases hp

theorem refines_knownItems (node node' : Expr) (q : Quantifier) (values : Literal) (param : Param)
    (h : Respelled true b e e') :
    Refines (m.knownItems node q values param e s) (m.knownItems node' q values param e' s) := by
  intro d hd
  unfold knownItems at hd ⊢
  cases hp : soughtIn? q param.name e' with
  | none =>
    rw [hp] at hd
    cases hd
  | some sought =>
    obtain ⟨place', through⟩ := sought
    obtain ⟨place, hplace, hrespelled⟩ := soughtIn?_respelled h hp
    simp only [hp] at hd
    simp only [hplace]
    refine Refines.bind (refines_target hrespelled) (fun stored => ?_) d hd
    exact (refines_encodeItemsFor node node' _ values).bind fun _ => .refl _

theorem refines_typeSelection {t t' : Expr} (node node' : Expr) (he : Respelled true b e e')
    (ht : Respelled true b t t') :
    Refines (m.typeSelection node e t) (m.typeSelection node' e' t') := by
  unfold typeSelection
  rw [ht.asLiteral?_eq, he.typeOf_eq]
  split
  · exact .refl _
  · exact .of_error

theorem refines_typeTest (node node' : Expr) (typeName : String) (exact : Bool)
    (he : Respelled true b e e') :
    Refines (m.typeTest node e typeName exact s) (m.typeTest node' e' typeName exact s) := by
  unfold typeTest
  rw [he.typeOf_eq]
  split
  · refine (Refines.refl _).bind fun mark => ?_
    cases mark with
    | none => exact .refl _
    | some mark => exact (refines_target he).bind fun _ => .refl _
  · exact .of_error

theorem refines_nonEmpty (node node' : Expr) (he : Respelled true b e e') :
    Refines (m.nonEmpty node e s) (m.nonEmpty node' e' s) := by
  unfold nonEmpty
  refine (refines_target he).bind fun target => ?_
  split
  · exact .refl _
  · exact .of_error

theorem refines_hasBits {f f' : Expr} (node node' : Expr) (he : Respelled true b e e')
    (hf : Respelled true b f f') :
    Refines (m.hasBits node e f s) (m.hasBits node' e' f' s) := by
  unfold hasBits
  exact (refines_target he).bind fun _ => (refines_knownOr node node' hf).bind fun _ => .refl _

theorem refines_itemCondition (node node' : Expr) (filter : Document) :
    Refines (itemCondition node filter) (itemCondition node' filter) := by
  unfold itemCondition
  split
  · split
    · exact .of_error
    · exact .refl _
  · exact .refl _
  · exact .refl _
  · exact .refl _
  · exact .of_error

/-! ## Conditions on items -/

section Condition

variable {body body' : Expr} (param : Param)
  (hbody : ∀ s, Refines (m.filterOf body s) (m.filterOf body' s))
include hbody

theorem refines_collapsed? (stored : Target)
    (hcollapse : s.inElemMatch = true → collapsible body = collapsible body') :
    Refines (collapsed? m.filterOf stored param body s)
      (collapsed? m.filterOf stored param body' s) := by
  unfold collapsed?
  by_cases hin : s.inElemMatch = true
  · rw [hcollapse hin]
    split
    · exact (hbody _).bind fun _ => .refl _
    · exact .refl _
  · simp only [hin, Bool.false_and, Bool.false_eq_true, if_false]
    exact .refl _

theorem refines_anyStored (node node' : Expr) (selection : Option Document)
    (he : Refines (m.target e s) (m.target e' s))
    (hcollapse : s.inElemMatch = true → collapsible body = collapsible body') :
    Refines (m.anyStored m.filterOf node e selection param body s)
      (m.anyStored m.filterOf node' e' selection param body' s) := by
  have hitem : Refines (itemFilter m.filterOf param body s) (itemFilter m.filterOf param body' s) :=
    hbody _
  unfold anyStored
  refine he.bind fun stored => ?_
  split
  · exact .of_error
  · cases selection with
    | some mark =>
      exact hitem.bind fun filter => (refines_itemCondition node node' _).bind fun _ => .refl _
    | none =>
      refine (refines_collapsed? param hbody stored hcollapse).bind fun found => ?_
      cases found with
      | some filter => exact .refl _
      | none =>
        exact hitem.bind fun filter => (refines_itemCondition node node' _).bind fun _ => .refl _

end Condition

/-- Filters of respelled expressions smaller than `n` are filters of the expressions. -/
def RefinesBelow (m : Mapping) (n : Nat) : Prop :=
  ∀ {b : Bool} {e e' : Expr} {s : Scope}, e'.size < n → Respelled true b e e' →
    (s.inElemMatch = true → b = true) → Refines (m.filterOf e s) (m.filterOf e' s)

section Node

variable (hsub : m.RefinesBelow n) (node node' : Expr)
include hsub

theorem refines_comparison {r r' : Expr} (hb : s.inElemMatch = true → b = true) (op : BinaryOp)
    (hl : Respelled true b l l') (hr : Respelled true b r r') (hln : l'.size < n)
    (hrn : r'.size < n) :
    Refines (m.comparison m.filterOf node op l r s) (m.comparison m.filterOf node' op l' r' s) := by
  rcases comparisonOf?_cases op hl hr hln hrn with ⟨hc, hc'⟩ | ⟨op', x, x', v, hc, hc', hx, hxn⟩
  · unfold comparison
    rw [hc, hc']
    exact .of_error
  by_cases hclass : ∃ owner method args, x'.strip = .staticCall owner method args
  · -- Only as a test that is compared with a truth value does the call translate.
    obtain ⟨owner, method, args, hclass⟩ := hclass
    have htest' : x'.isTest = true := by simp [Expr.isTest, hclass]
    have htest : x.isTest = true := hx.isTest_eq.trans htest'
    intro d hd
    by_cases hv : ∃ expected, v.asBool? = some expected ∧ (op' = .equal ∨ op' = .notEqual)
    · obtain ⟨expected, hv, hop⟩ := hv
      obtain ⟨filter, hfilter, hd⟩ := (comparison_eq_ok node' hc' hv hop htest').1 hd
      exact (comparison_eq_ok node hc hv hop htest).2 ⟨filter, hsub hxn hx hb filter hfilter, hd⟩
    · have hfield : v.asBool? = none ∨ op' ≠ .equal ∧ op' ≠ .notEqual := by
        cases hbool : v.asBool? with
        | none => exact .inl rfl
        | some expected => exact .inr (not_or.1 fun hop => hv ⟨expected, hbool, hop⟩)
      rw [comparison_of_firstAnswer hc' (firstAnswer_staticCall hclass) (.inr hfield)] at hd
      exact absurd hd (not_plainComparison_staticCall hclass)
  · have hne : ∀ owner method args, x'.strip ≠ .staticCall owner method args := by
      intro owner method args h
      exact hclass ⟨owner, method, args, h⟩
    unfold comparison
    simp only [hc, hc']
    refine (refines_firstAnswer hx hne).bind fun answer => ?_
    cases answer with
    | some filter => exact .refl _
    | none =>
      dsimp only
      rw [hx.isTest_eq]
      split
      · split
        · exact (hsub hxn hx hb).bind fun _ => .refl _
        · exact refines_plainComparison node node' _ v hx
      · split
        · exact (hsub hxn hx hb).bind fun _ => .refl _
        · exact refines_plainComparison node node' _ v hx
      · exact refines_plainComparison node node' _ v hx

theorem refines_stringEquality {r r' c c' : Expr} (hb : s.inElemMatch = true → b = true)
    (hl : Respelled true b l l') (hr : Respelled true b r r') (hc : Respelled true b c c')
    (hln : l'.size < n) (hrn : r'.size < n) :
    Refines (m.stringEquality m.filterOf node l r c s)
      (m.stringEquality m.filterOf node' l' r' c' s) := by
  unfold stringEquality
  rw [hc.known?_eq]
  split
  · exact refines_comparison hsub node node' hb .equal hl hr hln hrn
  · exact refines_equalIgnoringCase node node' hl hr
  · exact .of_error

theorem refines_negation (hb : s.inElemMatch = true → b = true) (he : Respelled true b e e')
    (hen : e'.size < n) :
    Refines (m.negation m.filterOf node e s) (m.negation m.filterOf node' e' s) := by
  have hs := he.strip
  have hsize := e'.size_strip_le
  unfold negation
  rw [he.typeOf_eq]
  generalize e.strip = x at hs
  generalize e'.strip = x' at hs hsize
  cases hs
  case not hinner =>
    simp only [Expr.size] at hsize
    exact hsub (by omega) hinner hb
  all_goals
    dsimp only
    split
    · exact .of_error
    · exact (hsub hen he hb).map complement

/-! ### Quantifiers -/

theorem refines_anyItem {p p' : Expr} (hb : s.inElemMatch = true → b = true)
    (he : Respelled true b e e') (hp : Respelled true b p p') (hpn : p'.size < n)
    (hcollapse : SameCollapse b "Any" [p] [p']) :
    Refines (m.anyItem m.filterOf node e p s) (m.anyItem m.filterOf node' e' p' s) := by
  unfold anyItem
  rcases hp.asUnaryLambda? with ⟨hn, hn'⟩ | ⟨param, body, body', hl, hl', hbody⟩
  · rw [hn, hn']
    exact .of_error
  have hfilter : ∀ s, Refines (m.filterOf body s) (m.filterOf body' s) := fun _ =>
    hsub (Nat.lt_trans (Expr.size_lt_of_asUnaryLambda? hl') hpn) hbody fun _ => rfl
  have hcollapse : s.inElemMatch = true → collapsible body = collapsible body' := by
    intro hin
    simpa [itemsCollapse, hl, hl'] using hcollapse (hb hin) rfl
  simp only [hl, hl', he.known?_eq]
  split
  · exact refines_knownItems node node' .any _ param hbody
  · have hs := he.strip
    have hstored := refines_anyStored param hfilter node node' none (refines_target he) hcollapse
    by_cases hclass : ∃ owner method args, e'.strip = .staticCall owner method args
    · obtain ⟨owner, method, args, hclass⟩ := hclass
      intro d hd
      simp only [hclass] at hd
      obtain ⟨target, htarget, -⟩ := bind_eq_ok.1 hd
      exact absurd htarget (not_targetOr_staticCall hclass)
    · generalize e.strip = x at hs
      generalize e'.strip = x' at hs hclass
      cases hs
      case call method _ _ ht ha _ =>
        by_cases hm : method = "OfType"
        · subst hm
          cases ha with
          | nil => exact hstored
          | cons harg hr =>
            cases hr with
            | cons _ _ => exact hstored
            | nil =>
              exact (refines_typeSelection node node' ht harg).bind fun selection =>
                refines_anyStored param hfilter node node' selection (refines_target ht) hcollapse
        · split
          · rename_i hcall
            cases hcall
            exact absurd rfl hm
          · split
            · rename_i hcall
              cases hcall
              exact absurd rfl hm
            · exact hstored
      case onClass => exact absurd ⟨_, _, _, rfl⟩ hclass
      all_goals exact hstored

theorem refines_allItems {p p' : Expr} (he : Respelled true b e e') (hp : Respelled true b p p')
    (hpn : p'.size < n) :
    Refines (m.allItems m.filterOf node e p s) (m.allItems m.filterOf node' e' p' s) := by
  unfold allItems
  rcases hp.asUnaryLambda? with ⟨hn, hn'⟩ | ⟨param, body, body', hl, hl', hbody⟩
  · rw [hn, hn']
    exact .of_error
  have hfilter : ∀ s, Refines (m.filterOf body s) (m.filterOf body' s) := fun _ =>
    hsub (Nat.lt_trans (Expr.size_lt_of_asUnaryLambda? hl') hpn) hbody fun _ => rfl
  simp only [hl, hl', he.known?_eq]
  split
  · exact refines_knownItems node node' .all _ param hbody
  · refine (refines_target he).bind fun stored => ?_
    split
    · exact .of_error
    · exact (hfilter _).bind fun filter =>
        (refines_itemCondition node node' _).bind fun _ => .refl _

/-! ### Calls -/

theorem refines_callFilter {args args' : List Expr} (hb : s.inElemMatch = true → b = true)
    (method : String) (he : Respelled true b e e') (ha : RespelledAll true b args args')
    (hcollapse : SameCollapse b method args args') (hen : e'.size < n)
    (han : ∀ a ∈ args', a.size < n) :
    Refines (m.callFilter m.filterOf node e method args s)
      (m.callFilter m.filterOf node' e' method args' s) := by
  unfold callFilter
  cases ha with
  | nil =>
    dsimp only
    split
    · exact refines_nonEmpty node node' he
    · exact .of_error
  | cons h₁ ha =>
    have hn₁ := han _ (.head _)
    cases ha with
    | nil =>
      dsimp only
      split
      · exact refines_anyItem hsub node node' hb he h₁ hn₁ hcollapse
      · exact refines_allItems hsub node node' he h₁ hn₁
      · exact refines_contains node node' he h₁
      · exact refines_stringMatch node node' .atStart he h₁
      · exact refines_stringMatch node node' .atEnd he h₁
      · exact refines_containsKey node node' he h₁
      · exact refines_comparison hsub node node' hb .equal he h₁ hen hn₁
      · exact refines_isOneOf node node' he h₁
      · exact refines_hasBits node node' he h₁
      · exact .of_error
    | cons h₂ ha =>
      cases ha with
      | nil =>
        dsimp only
        split
        · exact refines_stringEquality hsub node node' hb he h₁ h₂ hen hn₁
        · exact .of_error
      | cons h₃ ha => exact .of_error

theorem refines_staticCallFilter {args args' : List Expr} (hb : s.inElemMatch = true → b = true)
    (owner method : String) (ha : RespelledAll true b args args') (han : ∀ a ∈ args', a.size < n) :
    Refines (m.staticCallFilter m.filterOf node owner method args s)
      (m.staticCallFilter m.filterOf node' owner method args' s) := by
  intro d hd
  unfold staticCallFilter at hd
  split at hd
  · obtain _ | ⟨h₁, _ | _⟩ := ha
    exact Refines.bind (refines_target h₁) (fun _ => .refl _) d hd
  · obtain _ | ⟨h₁, _ | ⟨h₂, _ | _⟩⟩ := ha
    exact refines_regexMatch node node' h₁ h₂ rfl d hd
  · obtain _ | ⟨h₁, _ | ⟨h₂, _ | ⟨h₃, _ | _⟩⟩⟩ := ha
    have hoptions : Option.map Expr.known? (some _) = Option.map Expr.known? (some _) :=
      congrArg some h₃.known?_eq
    exact refines_regexMatch node node' h₁ h₂ hoptions d hd
  · obtain _ | ⟨h₁, _ | ⟨h₂, _ | _⟩⟩ := ha
    have hn₁ := han _ (.head _)
    have hn₂ := han _ (.tail _ (.head _))
    exact refines_comparison hsub node node' hb .equal h₁ h₂ hn₁ hn₂ d hd
  · obtain _ | ⟨h₁, _ | ⟨h₂, _ | _⟩⟩ := ha
    have hn₁ := han _ (.head _)
    have hn₂ := han _ (.tail _ (.head _))
    exact refines_comparison hsub node node' hb .equal h₁ h₂ hn₁ hn₂ d hd
  · obtain _ | ⟨h₁, _ | ⟨h₂, _ | ⟨h₃, _ | _⟩⟩⟩ := ha
    have hn₁ := han _ (.head _)
    have hn₂ := han _ (.tail _ (.head _))
    exact refines_stringEquality hsub node node' hb h₁ h₂ h₃ hn₁ hn₂ d hd
  · cases hd

end Node

theorem refines_truthTest (he : Respelled true b e e') :
    Refines (m.truthTest e s) (m.truthTest e' s) := by
  unfold truthTest
  refine (refines_target he).bind fun target => ?_
  split
  · exact .refl _
  · exact .refl _
  · exact .of_error

/-- A call on a class is taken for the call on the receiver, if its first argument is one. -/
theorem filterOf_staticCall {owner method : String} (ho : takesSource owner method = true)
    (source : Expr) (args : List Expr) :
    m.filterOf (.staticCall owner method (source :: args)) s =
      m.filterOf (.call source method args) s := by
  rw [filterOf_eq m (.staticCall _ _ _)]
  simp only [filterNode, Expr.receiverForm?, ho, if_true]

theorem refines_staticCall (hsub : m.RefinesBelow n) (hb : s.inElemMatch = true → b = true)
    {owner method : String} {args args' : List Expr} (ha : RespelledAll true b args args')
    (hc : SameCollapse b method args.tail args'.tail)
    (hn : (Expr.staticCall owner method args').size ≤ n) :
    Refines (m.filterOf (.staticCall owner method args) s)
      (m.filterOf (.staticCall owner method args') s) := by
  simp only [Expr.size] at hn
  have hargs : ∀ a ∈ args', a.size < n := by
    intro a ha
    have := Expr.size_le_sizes ha
    omega
  have hstatic := refines_staticCallFilter hsub (.staticCall owner method args)
    (.staticCall owner method args') hb owner method ha hargs
  cases ha with
  | nil => exact .refl _
  | cons h hr =>
    by_cases ho : takesSource owner method = true
    · rw [filterOf_staticCall ho, filterOf_staticCall ho]
      refine hsub ?_ (.call h hr hc) hb
      simp only [Expr.size, Expr.sizes] at hn ⊢
      omega
    · rw [filterOf_eq m (.staticCall _ _ _), filterOf_eq m (.staticCall _ _ _)]
      simp only [filterNode, Expr.receiverForm?, ho]
      exact hstatic

/-- A connective joins the filters of its sides, and what else translates is a comparison. -/
theorem refines_binary {r r' : Expr} {op : BinaryOp}
    (htype : m.schema.typeOf l = m.schema.typeOf l')
    (hl : Refines (m.filterOf l s) (m.filterOf l' s))
    (hr : Refines (m.filterOf r s) (m.filterOf r' s))
    (hcompare : op.isComparison = true →
      Refines (m.comparison m.filterOf (.binary op l r) op l r s)
        (m.comparison m.filterOf (.binary op l' r') op l' r' s)) :
    Refines (m.filterOf (.binary op l r) s) (m.filterOf (.binary op l' r') s) := by
  have hjoin (join : List Document → Document) :
      Refines (do return join [← m.filterOf l s, ← m.filterOf r s])
        (do return join [← m.filterOf l' s, ← m.filterOf r' s]) :=
    hl.bind fun _ => hr.bind fun _ => .refl _
  rw [filterOf_eq m (.binary _ _ _), filterOf_eq m (.binary _ _ _)]
  simp only [filterNode, htype]
  split
  · exact hjoin conj
  · exact hjoin disj
  · split
    · exact hjoin conj
    · exact .of_error
  · split
    · exact hjoin disj
    · exact .of_error
  · split
    · rename_i hop
      exact hcompare hop
    · exact .of_error

/-- A filter of a respelled expression is the filter of the expression. The induction is on the size
of the respelled one, as a call on a class becomes one on its receiver. -/
theorem refinesBelow (m : Mapping) (n : Nat) : m.RefinesBelow n := by
  induction n with
  | zero =>
    intro b e e' s hn
    omega
  | succ n ih =>
    intro b e e' s hn h hb
    have hsub : m.RefinesBelow e'.size := fun hlt => ih (by omega)
    cases h with
    | onClass ho ht ha hc =>
      rw [filterOf_staticCall ho]
      refine hsub ?_ (.call ht ha hc) hb
      simp only [Expr.size, Expr.sizes]
      omega
    | staticCall ha hc => exact refines_staticCall hsub hb ha hc (Nat.le_refl _)
    | quote h =>
      rw [filterOf_eq m (.quote _), filterOf_eq m (.quote _)]
      exact hsub (by simp [Expr.size]) h hb
    | convert type h =>
      rw [filterOf_eq m (.convert _ _), filterOf_eq m (.convert _ _)]
      exact hsub (by simp [Expr.size]) h hb
    | not h =>
      rw [filterOf_eq m (.not _), filterOf_eq m (.not _)]
      exact refines_negation hsub _ _ hb h (by simp [Expr.size])
    | member name h =>
      rw [filterOf_eq m (.member _ _), filterOf_eq m (.member _ _)]
      simp only [filterNode, h.typeOf_eq]
      split
      · exact (refines_target h).bind fun _ => .refl _
      · exact refines_truthTest (.member name h)
    | index ht hi =>
      rw [filterOf_eq m (.index _ _), filterOf_eq m (.index _ _)]
      exact refines_truthTest (.index ht hi)
    | typeTest typeName exact h =>
      rw [filterOf_eq m (.typeTest _ _ _), filterOf_eq m (.typeTest _ _ _)]
      exact refines_typeTest _ _ typeName exact h
    | call ht ha hc =>
      rw [filterOf_eq m (.call _ _ _), filterOf_eq m (.call _ _ _)]
      refine refines_callFilter hsub _ _ hb _ ht ha hc (by simp only [Expr.size]; omega) ?_
      intro a ha
      have := Expr.size_le_sizes ha
      simp only [Expr.size]
      omega
    | @binary _ l l' r r' op hl hr =>
      have hln : l'.size < (Expr.binary op l' r').size := by simp only [Expr.size]; omega
      have hrn : r'.size < (Expr.binary op l' r').size := by simp only [Expr.size]; omega
      exact refines_binary (hl.typeOf_eq _) (hsub hln hl hb) (hsub hrn hr hb) fun _ =>
        refines_comparison hsub _ _ hb op hl hr hln hrn
    | literal l => exact .refl _
    | param p => exact .refl _
    | inject filter => exact .refl _
    | negate _ | conditional _ _ _ | object _ _ | copy _ _ _ | list _ _ | lambda _ _ =>
      exact .of_error

end DocQuery.Mapping
