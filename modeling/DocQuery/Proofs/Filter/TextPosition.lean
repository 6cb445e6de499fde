/-
The position of a text, or of one of some characters, in a stored string.

A call that looks for something has one to three known arguments (`TextSearch`), and its
pattern is the one for the position in the window that they say, if nothing that is
computed for it goes beyond 64 bits (`indexPattern?_eq`). So the filter for a position
that is compared with a constant is exact from a least number on, in both orders of the
sides; below it, its pattern has no reading, and beyond the window it refuses everything.
-/
import DocQuery.Proofs.Filter.Answer
import DocQuery.Proofs.Pattern.Position

namespace DocQuery

open DocQuery.Filter

/-! ## Calls -/

/-- What a literal says to look for. -/
def Needle.ofLiteral? (l : Literal) : Option Needle :=
  if l.type.underlying = .string then l.asString?.map .text else l.chars?.map .anyOf

/-- The arguments of a call that looks for something in a string. -/
structure TextSearch (s : Scope) where
  args : List Expr
  needle : Needle
  window : Window
  sought : Literal
  bounds : List Literal
  known : Expr.knownItems? args = some (sought :: bounds)
  check : ∀ arg ∈ args, s.check arg = .ok ()
  ofSought : Needle.ofLiteral? sought = some needle
  ofBounds : bounds.mapM Literal.asInt? = some window.bounds
  nonempty : needle.chars ≠ []

section Call
variable {sought : Literal} {bounds : List Literal} {needle : Needle} {w : Window}

/-- The bounds as words. -/
theorem exists_words {numbers : List Int} (h : bounds.mapM Literal.asInt? = some numbers) :
    ∃ words, bounds.mapM Literal.asInt64? = some words ∧ words.map Int64.toInt = numbers := by
  induction bounds generalizing numbers with
  | nil =>
    cases h
    exact ⟨[], rfl, rfl⟩
  | cons first more ih =>
    simp only [List.mapM_cons, Option.bind_eq_bind, Option.bind_eq_some_iff, Option.pure_def,
      Option.some.injEq] at h
    obtain ⟨n, hn, rest, hrest, rfl⟩ := h
    obtain ⟨k, hk, rfl⟩ := Literal.exists_asInt64? hn
    obtain ⟨words, hwords, rfl⟩ := ih hrest
    exact ⟨k :: words, by simp [hk, hwords], rfl⟩

/-- The words are read from left to right. -/
theorem asInt64?_bounds {k : Int64} {rest : List Int64}
    (h : bounds.mapM Literal.asInt64? = some (k :: rest)) :
    ∃ first more, bounds = first :: more ∧ first.asInt64? = some k ∧
      more.mapM Literal.asInt64? = some rest := by
  cases bounds with
  | nil => simp at h
  | cons first more =>
    simp only [List.mapM_cons, Option.bind_eq_bind, Option.bind_eq_some_iff, Option.pure_def,
      Option.some.injEq, List.cons.injEq] at h
    obtain ⟨k', hk, words, hwords, rfl, rfl⟩ := h
    exact ⟨first, more, rfl, hk, hwords⟩

theorem eq_nil_of_bounds (h : bounds.mapM Literal.asInt64? = some []) : bounds = [] := by
  cases bounds with
  | nil => rfl
  | cons first more => simp [Option.bind_eq_some_iff] at h

/-- The pattern of the call is the one for the position. -/
theorem indexPattern?_eq (hneedle : Needle.ofLiteral? sought = some needle)
    (hbounds : bounds.mapM Literal.asInt? = some w.bounds) {n : Int64}
    (hrange : ∀ k ∈ needle.computed w n.toInt, Pattern.IsInt64 k) :
    Mapping.indexPattern? n (sought :: bounds) = some (needle.pattern? w n.toInt) := by
  obtain ⟨words, hwords, hvalues⟩ := exists_words hbounds
  have hpattern : (if sought.type.underlying = .string then
      sought.asString?.map fun t => Pattern.indexOfString t n words[0]? words[1]?
      else sought.chars?.map fun chars => Pattern.indexOfChars chars n words[0]? words[1]?) =
        some (needle.pattern? w n.toInt) := by
    unfold Needle.ofLiteral? at hneedle
    split at hneedle
    · rename_i htype
      obtain ⟨t, ht, rfl⟩ := Option.map_eq_some_iff.1 hneedle
      simp [htype, ht, indexOfString_eq hvalues hrange]
    · rename_i htype
      obtain ⟨chars, hchars, rfl⟩ := Option.map_eq_some_iff.1 hneedle
      simp [htype, hchars, indexOfChars_eq hvalues hrange]
  rw [← hpattern]
  rcases words_cases hvalues with ⟨-, rfl⟩ | ⟨a, start, -, rfl, -⟩ |
    ⟨a, count, start, length, -, rfl, -, -⟩
  · rw [eq_nil_of_bounds hwords]
    rfl
  · obtain ⟨first, more, rfl, hfirst, hmore⟩ := asInt64?_bounds hwords
    obtain rfl := eq_nil_of_bounds hmore
    simp [Mapping.indexPattern?, hfirst]
  · obtain ⟨first, more, rfl, hfirst, hmore⟩ := asInt64?_bounds hwords
    obtain ⟨second, more, rfl, hsecond, hmore⟩ := asInt64?_bounds hmore
    obtain rfl := eq_nil_of_bounds hmore
    simp [Mapping.indexPattern?, hfirst, hsecond]

end Call

/-! ## Filters -/

namespace Mapping

variable {m : Mapping} {left right e : Expr} {f : FieldPath} {p : Param} {method : String}
  {search : TextSearch (.root p.name)} {l : Literal} {n : Int}

/-- The rules before the one for positions have no answer for a call that gives one. -/
theorem rules_of_textPosition {args : List Expr}
    (hmethod : method = "IndexOf" ∨ method = "IndexOfAny")
    (hleft : left.strip = .call e method args) (op : BinaryOp) (l : Literal) (s : Scope) :
    ∀ rule ∈ [m.arrayLengthRule, m.moduloRule, m.orderingRule],
      rule ⟨op, left, l⟩ s = .ok none := by
  intro rule hrule
  simp only [List.mem_cons, List.not_mem_nil, or_false] at hrule
  rcases hrule with rfl | rfl | rfl
  · have hlength : left.lengthOf? = none := by
      cases args <;> rcases hmethod with rfl | rfl <;> simp [Expr.lengthOf?, hleft]
    unfold arrayLengthRule
    simp only [hlength]
    rfl
  · unfold moduloRule
    simp only [hleft]
    rfl
  · unfold orderingRule
    rcases hmethod with rfl | rfl <;> simp only [hleft] <;> rfl

theorem firstAnswer_textPosition (hf : m.schema.fieldPath? e = .ok (some f)) (hp : f.param = p.name)
    (hstring : (m.schema.typeOf e).isString = true)
    (hmethod : method = "IndexOf" ∨ method = "IndexOfAny")
    (hleft : left.strip = .call e method search.args) (hn : l.asInt? = some n)
    (hrange : ∀ k ∈ search.needle.computed search.window n, Pattern.IsInt64 k) :
    (Comparison.mk .equal left l).firstAnswer (.root p.name) m.comparisonRules =
      .ok (some (match search.needle.pattern? search.window n with
        | some pattern => test f.dotted (.regex pattern "s")
        | none => never)) := by
  have hrules : m.comparisonRules = [m.arrayLengthRule, m.moduloRule, m.orderingRule] ++
      m.indexOfRule :: [m.charAtRule, m.stringLengthRule, m.letterCaseRule, m.bitsRule] := rfl
  rw [hrules]
  refine Comparison.firstAnswer_of_rule (rules_of_textPosition hmethod hleft _ _ _) ?_
  have hcall : (decide (method = "IndexOf") || decide (method = "IndexOfAny")) = true := by
    simpa using hmethod
  obtain ⟨k, hk, rfl⟩ := Literal.exists_asInt64? hn
  unfold indexOfRule
  simp only [hleft, hcall, hstring, decide_true, Bool.and_self, if_true, hk, search.known,
    indexPattern?_eq search.ofSought search.ofBounds hrange, target_of_fieldPath? hf hp]
  cases search.needle.pattern? search.window k.toInt with
  | none => rfl
  | some pattern =>
    simp only [Pattern.regex_s]
    rfl

/-- **The position of a text in a stored string.** It is asked for in any window and compared with
a constant, in either order of the sides, so that nothing that is computed goes beyond 64 bits. If
it would go beyond the end that the window has, the filter refuses everything, which is right but
for -1. Else, if the number is too small, the pattern of the filter has no reading; from a least
number on, the filter accepts just the strings with the position, of those that are long enough. -/
theorem filter_textPosition (hf : m.schema.fieldPath? e = .ok (some f)) (hp : f.param = p.name)
    (hstring : (m.schema.typeOf e).isString = true)
    (hmethod : method = "IndexOf" ∨ method = "IndexOfAny")
    (hleft : left.strip = .call e method search.args)
    (hright : (Scope.root p.name).Constant right l) (hn : l.asInt? = some n)
    (hrange : ∀ k ∈ search.needle.computed search.window n, Pattern.IsInt64 k) :
    ∃ q,
      m.filter (.lambda [p] (.binary .equal left right)) = .ok q ∧
      m.filter (.lambda [p] (.binary .equal right left)) = .ok q ∧
      (search.window.excludes search.needle.width n = true → q = never ∧
        ∀ subject, search.needle.IndexIs search.window subject n ↔ n = -1) ∧
      (search.window.excludes search.needle.width n = false →
        ∃ pattern, q = test f.dotted (.regex pattern "s") ∧
          (n < search.window.start + search.needle.leastOffset →
            Pattern.Regex.read? pattern = none) ∧
          (search.window.start + search.needle.leastOffset ≤ n →
            (Pattern.Regex.read? pattern).isSome = true ∧
            ∀ subject : String, search.window.Fits subject.length →
              (holds (.ofText f.dotted subject) q = true ↔
                search.needle.IndexIs search.window subject.toList n))) := by
  have hforeign := isForeign_root p.name
  have hknown : left.known? = none := by
    rw [← Expr.known?_strip, hleft]
    rfl
  have hcheck : (Scope.root p.name).check left = .ok () := by
    rw [← Scope.check_strip hforeign, hleft]
    simp only [Scope.check, Scope.check_of_fieldPath? hf (hforeign f.param),
      Scope.checkArgs_eq_ok (Expr.asLambda?_of_knownItems? search.known) search.check]
    rfl
  obtain ⟨hfilter, hflipped⟩ := filter_of_answer rfl hknown hcheck hright
    (firstAnswer_textPosition hf hp hstring hmethod hleft hn hrange)
  refine ⟨_, hfilter, hflipped, fun hexcludes => ?_, fun hexcludes => ?_⟩
  · have hpattern : search.needle.pattern? search.window n = none := by
      simp [Needle.pattern?, hexcludes]
    exact ⟨by rw [hpattern], fun subject => Needle.indexIs_of_excludes hexcludes⟩
  · have hpattern : search.needle.pattern? search.window n = some
        (search.window.lead ++ search.needle.body (n - search.window.start)) := by
      simp [Needle.pattern?, hexcludes]
    obtain ⟨hnone, hsome⟩ := Needle.read?_pattern search.nonempty hpattern
    rw [hpattern]
    refine ⟨_, rfl, hnone, fun hleast => ?_⟩
    obtain ⟨r, hr, hfound⟩ := hsome hleast
    refine ⟨by simp [hr], fun subject hfits => ?_⟩
    rw [← hfound subject.toList (by rwa [String.length_toList])]
    exact holds_ofText hr subject

/-- Two letters are looked for in five characters, from the second one on. -/
def twoLetters : TextSearch (.root "x") where
  args := [.literal ⟨.string "ab", .string⟩, .literal ⟨.int32 1, .int32⟩,
    .literal ⟨.int32 5, .int32⟩]
  needle := .text "ab"
  window := .within 1 5
  sought := ⟨.string "ab", .string⟩
  bounds := [⟨.int32 1, .int32⟩, ⟨.int32 5, .int32⟩]
  known := rfl
  check := by simp [Scope.check]
  ofSought := rfl
  ofBounds := rfl
  nonempty := by decide

/-- The two letters stand first at the fourth place. -/
theorem filter_textPosition_twoLetters :
    (Scope.root "x").Constant (.literal ⟨.int32 3, .int32⟩) ⟨.int32 3, .int32⟩ ∧
    ∃ q,
      linesMapping.filter (.lambda [⟨"x", .document "Root"⟩]
        (.binary .equal (.call secondLine "IndexOf" twoLetters.args)
          (.literal ⟨.int32 3, .int32⟩))) = .ok q ∧
      linesMapping.filter (.lambda [⟨"x", .document "Root"⟩]
        (.binary .equal (.literal ⟨.int32 3, .int32⟩)
          (.call secondLine "IndexOf" twoLetters.args))) = .ok q ∧
      ∀ subject : String, 6 ≤ subject.length → (holds (.ofText "lines.1" subject) q = true ↔
        (Needle.text "ab").IndexIs (.within 1 5) subject.toList 3) := by
  have hright : (Scope.root "x").Constant (.literal ⟨.int32 3, .int32⟩) ⟨.int32 3, .int32⟩ :=
    Scope.constant_literal _ _
  have hleft : (Expr.call secondLine "IndexOf" twoLetters.args).strip =
      .call secondLine "IndexOf" twoLetters.args := rfl
  have hrange : ∀ k ∈ twoLetters.needle.computed twoLetters.window 3, Pattern.IsInt64 k := by
    simp [twoLetters, Needle.computed, Pattern.IsInt64]
  obtain ⟨q, hfilter, hflipped, -, hpattern⟩ :=
    filter_textPosition (m := linesMapping) (p := ⟨"x", .document "Root"⟩)
      (f := ⟨"x", ["lines", "1"], .string, .natural, true⟩) (n := 3) rfl rfl rfl (.inl rfl) hleft
      hright rfl hrange
  obtain ⟨pattern, -, -, hexact⟩ := hpattern (by decide)
  refine ⟨hright, q, hfilter, hflipped, fun subject hlength => ?_⟩
  refine (hexact (by decide)).2 subject ?_
  change 1 ≤ subject.length ∧ 6 ≤ subject.length
  omega

/-- No string has the position -2, and a letter may stand at the start of one, but the patterns for
these positions have no reading. -/
theorem filter_textPosition_tooSmall :
    (linesMapping.filter (.lambda [⟨"x", .document "Root"⟩]
        (.binary .equal (.call secondLine "IndexOf" [.literal ⟨.string "b", .char⟩])
          (.literal ⟨.int32 (-2), .int32⟩))) =
      .ok [("lines.1", .regex "^[^b]\x7b-2\x7db" "s")] ∧
      Pattern.Regex.read? "^[^b]\x7b-2\x7db" = none ∧
      ∀ subject, ¬(Needle.anyOf ['b']).IndexIs .whole subject (-2)) ∧
    linesMapping.filter (.lambda [⟨"x", .document "Root"⟩]
        (.binary .equal (.call secondLine "IndexOf" [.literal ⟨.string "b", .string⟩])
          (.literal ⟨.int32 0, .int32⟩))) =
      .ok [("lines.1", .regex "^(?!.\x7b0,-1\x7db).\x7b0\x7db" "s")] ∧
      Pattern.Regex.read? "^(?!.\x7b0,-1\x7db).\x7b0\x7db" = none ∧
      (Needle.text "b").IndexIs .whole "b".toList 0 := by
  refine ⟨⟨rfl, rfl, fun subject hindex => ?_⟩, rfl, rfl, ?_⟩
  · rcases hindex with ⟨i, hi, -⟩ | ⟨hnone, -⟩ <;> omega
  · exact .inl ⟨0, rfl, ⟨by decide, by decide, List.prefix_rfl⟩, by simp⟩

end Mapping
end DocQuery
