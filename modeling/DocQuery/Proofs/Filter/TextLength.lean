/-
The length of a stored string, compared with a constant number.

The pattern for it repeats an arbitrary character from the start of the string to its
end, with a count that is the number or next to it (`length?_eq`). If the count is not
negative, the pattern has a reading, and this is found in just the strings whose length
is in the bounds; else the pattern has none (`read?_length`). So the filter is exact from
a least number on (`BinaryOp.leastLength`), in both orders of the sides, as long as the
count does not go beyond 64 bits.
-/
import DocQuery.Proofs.Filter.Answer
import DocQuery.Proofs.Pattern.Notation

namespace DocQuery

open DocQuery.Filter

/-! ## The pattern -/

namespace BinaryOp

/-- The least number that a length can be compared with so that no negative number of characters is
counted. -/
def leastLength : BinaryOp → Int
  | greater => -1
  | less => 1
  | _ => 0

/-- The number of characters that are counted, in 64 bits. -/
def countOf : BinaryOp → Int64 → Int64
  | greater, n => n + 1
  | less, n => n - 1
  | _, n => n

/-- How characters are counted. -/
def countText : BinaryOp → Int → String
  | greater, n | greaterOrEqual, n => Pattern.atLeast n
  | less, n | lessOrEqual, n => Pattern.atMost n
  | _, n => Pattern.times n

/-- Bounds for the number of characters that are counted. -/
def countBounds : BinaryOp → Nat → Nat × Option Nat
  | greater, n | greaterOrEqual, n => (n, none)
  | less, n | lessOrEqual, n => (0, some n)
  | _, n => (n, some n)

/-- The operator with the pattern, which is that of an equal length for one that differs. -/
def patternOp : BinaryOp → BinaryOp
  | notEqual => equal
  | op => op

theorem patternOp_of_ne {op : BinaryOp} (h : op ≠ notEqual) : op.patternOp = op := by
  cases op <;> first | rfl | exact absurd rfl h

theorem toInt_countOf {op : BinaryOp} {n : Int64}
    (h : Pattern.IsInt64 (n.toInt - op.leastLength)) :
    (op.countOf n).toInt = n.toInt - op.leastLength := by
  cases op with
  | greater => exact Pattern.toInt_add h
  | less => exact Pattern.toInt_sub h
  | _ => exact (Int.sub_zero _).symm

/-- A length in the bounds is one that compares as it should. -/
theorem relates_iff_bounds {op : BinaryOp} (hop : op.isComparison = true) {k : Nat} {n : Int}
    (h : n - op.leastLength = k) (length : Nat) :
    op.patternOp.Relates length n ↔
      (op.countBounds k).1 ≤ length ∧ ∀ high ∈ (op.countBounds k).2, length ≤ high := by
  cases op <;> simp only [leastLength] at h <;>
    simp [Relates, patternOp, countBounds, isComparison] at hop ⊢ <;> omega

end BinaryOp

namespace Pattern

variable {op : BinaryOp} {n : Int64}

theorem length?_eq (hop : op.isComparison = true) (n : Int64) :
    length? op n = some ("^." ++ op.countText (op.countOf n).toInt ++ "$") := by
  cases op <;> first | rfl | cases hop

theorem readAs_countText (op : BinaryOp) (k : Nat) :
    ReadAs (op.countText k).toList [.times (op.countBounds k).1 (op.countBounds k).2] := by
  cases op with
  | greater | greaterOrEqual => exact readAs_atLeast k
  | less | lessOrEqual => exact readAs_atMost k
  | _ => exact readAs_times k

theorem tokens?_countText_of_neg (op : BinaryOp) {k : Int} (h : k < 0) (rest : List Char) :
    tokens? .plain ((op.countText k).toList ++ rest) = none := by
  cases op with
  | greater | greaterOrEqual => exact tokens?_atLeast_of_neg h rest
  | less | lessOrEqual => exact tokens?_atMost_of_neg h rest
  | _ => exact tokens?_times_of_neg h rest

/-- **The pattern for a length** has a reading if the number of characters that it counts is not
negative, and this is found in the strings whose length is in the bounds. -/
theorem read?_length {pattern : String} (h : length? op n = some pattern) :
    ((op.countOf n).toInt < 0 → Regex.read? pattern = none) ∧
    ∀ k : Nat, (op.countOf n).toInt = k → ∃ r, Regex.read? pattern = some r ∧
      ∀ subject, r.FoundIn subject ↔ (op.countBounds k).1 ≤ subject.length ∧
        ∀ high ∈ (op.countBounds k).2, subject.length ≤ high := by
  have hop : op.isComparison = true := by cases op <;> first | rfl | cases h
  rw [length?_eq hop] at h
  obtain rfl := Option.some.inj h
  have htext (count : String) : ("^." ++ count ++ "$").toList =
      ['^', '.'] ++ (count.toList ++ ['$']) := by simp
  constructor
  · intro hn
    have hstart : Denotes ['^', '.'] [.start, .one .any] := Denotes.start.append (.one readAs_any)
    exact hstart.read?_eq_none (tokens?_countText_of_neg op hn _) (htext _)
  · intro k hk
    have hdenotes : Denotes ("^." ++ op.countText (op.countOf n).toInt ++ "$").toList
        ([.start] ++ [.times .any (op.countBounds k).1 (op.countBounds k).2] ++ [.stop]) := by
      rw [htext, hk]
      exact (Denotes.start.append (.repeated readAs_any (readAs_countText op k))).append .stop
    refine ⟨_, hdenotes.read?, fun subject => ?_⟩
    have hstop : (∃ j, Regex.Runs subject
        ([.times .any (op.countBounds k).1 (op.countBounds k).2] ++ [.stop]) 0 j) ↔ _ :=
      Regex.exists_runs_stop
    rw [List.append_assoc, List.singleton_append, Regex.foundIn_start, hstop]
    simp [Regex.Runs, Regex.goes_times_any]

end Pattern

/-! ## Filters -/

theorem Expr.lengthOf?_of_stringLengthOf? {left e : Expr} (h : left.stringLengthOf? = some e) :
    left.lengthOf? = some e := by
  unfold Expr.stringLengthOf? at h
  unfold Expr.lengthOf?
  split at h
  · rename_i target name hstrip
    split at h
    · rename_i hname
      simp [hname, Option.some.inj h]
    · cases h
  · exact h
  · cases h

theorem ValueType.isArray_of_isString {t : ValueType} (h : t.isString = true) :
    t.isArray = false := by
  have ht : t.underlying = .string := by simpa [ValueType.isString] using h
  simp [ValueType.isArray, ValueType.item?, ht]

namespace Mapping

variable {m : Mapping} {left right e : Expr} {f : FieldPath} {p : Param} {op : BinaryOp}
  {l : Literal} {n : Int}

/-- The rules before the one for lengths of strings have no answer for such a length. -/
theorem rules_of_textLength (hstring : (m.schema.typeOf e).isString = true)
    (hleft : left.lengthOf? = some e) (s : Scope) :
    ∀ rule ∈ [m.arrayLengthRule, m.moduloRule, m.orderingRule, m.indexOfRule, m.charAtRule],
      rule ⟨op, left, l⟩ s = .ok none := by
  intro rule hrule
  simp only [List.mem_cons, List.not_mem_nil, or_false] at hrule
  have hstrip := Expr.strip_of_lengthOf? hleft
  rcases hrule with rfl | rfl | rfl | rfl | rfl
  · unfold arrayLengthRule
    cases hn : l.asInt? <;>
      simp only [hleft, ValueType.isArray_of_isString hstring, Bool.false_eq_true, if_false] <;> rfl
  · unfold moduloRule
    rcases hstrip with ⟨name, hstrip⟩ | hstrip <;> simp only [hstrip] <;> rfl
  · unfold orderingRule
    rcases hstrip with ⟨name, hstrip⟩ | hstrip <;> simp only [hstrip] <;> rfl
  · unfold indexOfRule
    rcases hstrip with ⟨name, hstrip⟩ | hstrip <;> simp only [hstrip] <;> rfl
  · unfold charAtRule
    rcases hstrip with ⟨name, hstrip⟩ | hstrip <;> simp only [hstrip] <;> rfl

/-- The rule for lengths of strings answers with the pattern, or its complement. -/
theorem firstAnswer_textLength (hf : m.schema.fieldPath? e = .ok (some f)) (hp : f.param = p.name)
    (hstring : (m.schema.typeOf e).isString = true) (hleft : left.stringLengthOf? = some e)
    {k : Int64} (hk : l.asInt64? = some k) {pattern : String}
    (hpattern : Pattern.length? op k = some pattern) :
    (Comparison.mk op left l).firstAnswer (.root p.name) m.comparisonRules =
      .ok (some (if op = .notEqual then complement (test f.dotted (.regex pattern "s"))
        else test f.dotted (.regex pattern "s"))) := by
  have hlength := Expr.lengthOf?_of_stringLengthOf? hleft
  have hrules : m.comparisonRules =
      [m.arrayLengthRule, m.moduloRule, m.orderingRule, m.indexOfRule, m.charAtRule] ++
        m.stringLengthRule :: [m.letterCaseRule, m.bitsRule] := rfl
  rw [hrules]
  refine Comparison.firstAnswer_of_rule (rules_of_textLength hstring hlength _) ?_
  unfold stringLengthRule
  simp only [hleft, hk, Option.bind_some, hpattern, hstring, if_true, target_of_fieldPath? hf hp,
    Pattern.regex_s]
  rfl

/-- **The length of a stored string.** It is compared with a constant, by any of the six operators
and in either order of the sides. If the number is too small for the operator, the pattern of the
filter has no reading; else the filter accepts just the strings whose length compares with the
number as it should. Both hold if the count is an integer of 64 bits; that for a length below the
least integer wraps around to the greatest, and the filter accepts every string of up to that
length. -/
theorem filter_textLength (hf : m.schema.fieldPath? e = .ok (some f)) (hp : f.param = p.name)
    (hstring : (m.schema.typeOf e).isString = true) (hleft : left.stringLengthOf? = some e)
    (hright : (Scope.root p.name).Constant right l) (hn : l.asInt? = some n)
    (hop : op.isComparison = true) :
    ∃ pattern q,
      m.filter (.lambda [p] (.binary op left right)) = .ok q ∧
      m.filter (.lambda [p] (.binary op.flip right left)) = .ok q ∧
      q = (if op = .notEqual then complement (test f.dotted (.regex pattern "s"))
        else test f.dotted (.regex pattern "s")) ∧
      (Pattern.IsInt64 (n - op.leastLength) → n < op.leastLength →
        Pattern.Regex.read? pattern = none) ∧
      (Pattern.IsInt64 (n - op.leastLength) → op.leastLength ≤ n →
        (Pattern.Regex.read? pattern).isSome = true ∧ ∀ subject : String,
          (holds (.ofText f.dotted subject) q = true ↔ op.Relates subject.length n) ∧
          (holds (.ofText f.dotted subject) q = true ↔ op.flip.Relates n subject.length)) ∧
      (op = .less → n = -9223372036854775808 →
        (Pattern.Regex.read? pattern).isSome = true ∧ ∀ subject : String,
          holds (.ofText f.dotted subject) q = true ↔ subject.length ≤ 9223372036854775807) := by
  obtain ⟨k, hk, rfl⟩ := Literal.exists_asInt64? hn
  have hlength := Expr.lengthOf?_of_stringLengthOf? hleft
  have hpattern := Pattern.length?_eq hop k
  obtain ⟨hfilter, hflipped⟩ := filter_of_answer hop (Expr.known?_of_lengthOf? hlength)
    (Scope.check_of_lengthOf? p.name hf hlength) hright
    (firstAnswer_textLength hf hp hstring hleft hk hpattern)
  obtain ⟨hnone, hsome⟩ := Pattern.read?_length hpattern
  refine ⟨_, _, hfilter, hflipped, rfl, fun hcounted hleast => ?_, fun hcounted hleast => ?_, ?_⟩
  · exact hnone (by rw [BinaryOp.toInt_countOf hcounted]; omega)
  · obtain ⟨count, hcount⟩ := Int.eq_ofNat_of_zero_le (show 0 ≤ k.toInt - op.leastLength by omega)
    obtain ⟨r, hr, hfound⟩ := hsome count ((BinaryOp.toInt_countOf hcounted).trans hcount)
    refine ⟨by simp [hr], fun subject => ?_⟩
    have hholds : holds (.ofText f.dotted subject) (test f.dotted (.regex _ "s")) = true ↔ _ :=
      holds_ofText hr subject
    rw [hfound, ← BinaryOp.relates_iff_bounds hop hcount, String.length_toList] at hholds
    rw [BinaryOp.relates_flip, and_self]
    by_cases hne : op = .notEqual
    · subst hne
      rw [if_pos rfl, holds_complement_regex, Bool.not_eq_true', ← Bool.not_eq_true, hholds]
      rfl
    · rw [if_neg hne, hholds, BinaryOp.patternOp_of_ne hne]
  · rintro rfl hmin
    obtain rfl : k = Int64.minValue := Int64.toInt_inj.1 hmin
    obtain ⟨r, hr, hfound⟩ := hsome 9223372036854775807 rfl
    refine ⟨by simp [hr], fun subject => ?_⟩
    rw [if_neg (by decide), holds_ofText hr subject, hfound, String.length_toList]
    simp [BinaryOp.countBounds]

/-- An empty line, its length compared with a number that is negated. -/
theorem filter_textLength_emptyLine :
    (Scope.root "x").Constant (.negate (.literal ⟨.int32 (-1), .int32⟩)) ⟨.int32 1, .int32⟩ ∧
    ∃ q,
      linesMapping.filter (.lambda [⟨"x", .document "Root"⟩]
        (.binary .less (.member secondLine "Length")
          (.negate (.literal ⟨.int32 (-1), .int32⟩)))) = .ok q ∧
      linesMapping.filter (.lambda [⟨"x", .document "Root"⟩]
        (.binary .greater (.negate (.literal ⟨.int32 (-1), .int32⟩))
          (.member secondLine "Length"))) = .ok q ∧
      ∀ subject : String, holds (.ofText "lines.1" subject) q = true ↔
        (subject.length : Int) < 1 := by
  have hright : (Scope.root "x").Constant (.negate (.literal ⟨.int32 (-1), .int32⟩))
      ⟨.int32 1, .int32⟩ := (Scope.constant_literal _ _).negate rfl
  have hleft : (Expr.member secondLine "Length").stringLengthOf? = some secondLine := rfl
  have hcounted : Pattern.IsInt64 (1 - BinaryOp.less.leastLength) := ⟨by decide, by decide⟩
  obtain ⟨_, q, hfilter, hflipped, -, -, hexact, -⟩ :=
    filter_textLength (m := linesMapping) (p := ⟨"x", .document "Root"⟩)
      (f := ⟨"x", ["lines", "1"], .string, .natural, true⟩) (n := 1) rfl rfl rfl hleft hright rfl
      (show BinaryOp.less.isComparison = true from rfl)
  exact ⟨hright, q, hfilter, hflipped, fun subject =>
    ((hexact hcounted (by decide)).2 subject).1⟩

/-- Every line is longer than a negative number says, but the pattern has no reading. -/
theorem filter_textLength_negative :
    linesMapping.filter (.lambda [⟨"x", .document "Root"⟩]
        (.binary .greaterOrEqual (.member secondLine "Length")
          (.literal ⟨.int32 (-1), .int32⟩))) =
      .ok [("lines.1", .regex "^.\x7b-1,\x7d$" "s")] ∧
    Pattern.Regex.read? "^.\x7b-1,\x7d$" = none :=
  ⟨rfl, rfl⟩

end Mapping
end DocQuery
