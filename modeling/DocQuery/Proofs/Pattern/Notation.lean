/-
What the parts of a pattern are read as, and where they match.

Wherever a part of a pattern stands, the same items are read from it (`Denotes`), so
that the reading of a pattern is put together from those of its parts: sets of
characters, how often they are repeated, and what has to stand ahead. A count that
is negative is not one of a repetition, and a pattern with one has no reading
(`tokens?_times_of_neg` and those beside it). Counts are computed in 64 bits
(`IsInt64`).

Items match one after the other (`Runs`). A pattern from the start of the subject
runs from there (`foundIn_start`).
-/
import DocQuery.Proofs.Pattern.Regex

namespace DocQuery.Pattern

theorem regex_s (pattern : String) : regex pattern "s" = .regex pattern "s" := by
  simp [regex, insertLetter]

/-! ## Readings of parts -/

/-- A character that completes no token. -/
theorem tokens?_skip {mode next : Mode} {c : Char} (h : mode.step c = some ([], next))
    (rest : List Char) : tokens? mode (c :: rest) = tokens? next rest := by
  rw [tokens?_cons, h]
  simp

/-- A character that completes a token. -/
theorem tokens?_emit {mode : Mode} {c : Char} {t : Token} (h : mode.step c = some ([t], .plain))
    (rest : List Char) : tokens? mode (c :: rest) = (tokens? .plain rest).map (t :: ·) := by
  rw [tokens?_cons, h]
  rfl

/-- A text is read as tokens, whatever stands behind it. -/
def ReadAs (text : List Char) (tokens : List Token) : Prop :=
  ∀ rest, tokens? .plain (text ++ rest) = (tokens? .plain rest).map (tokens ++ ·)

/-- What a text is read as when nothing stands behind it. -/
theorem ReadAs.tokens?_eq {text : List Char} {tokens : List Token} (h : ReadAs text tokens) :
    tokens? .plain text = some tokens := by
  have hnil := h []
  rwa [List.append_nil, tokens?, Option.map_some, List.append_nil] at hnil

theorem ReadAs.append {a b : List Char} {s t : List Token} (ha : ReadAs a s) (hb : ReadAs b t) :
    ReadAs (a ++ b) (s ++ t) := by
  intro rest
  rw [List.append_assoc, ha, hb, Option.map_map]
  simp [Function.comp_def]

theorem readAs_ahead (negated : Bool) :
    ReadAs ['(', '?', if negated then '!' else '='] [.ahead negated] := by
  intro rest
  cases negated <;> simp [tokens?_cons, Mode.step, Function.comp_def]

/-- A text denotes items, the first one first, whatever has been read before it and stands behind
it. -/
def Denotes (text : List Char) (items : List Regex) : Prop :=
  ∃ tokens, ReadAs text tokens ∧
    ∀ r : Reading, tokens.foldlM Reading.take r = some { r with items := items.reverse ++ r.items }

namespace Denotes

variable {a b : List Char} {items : List Regex} {set : CharSet}

theorem nil : Denotes [] [] := by
  refine ⟨[], ?_, fun r => rfl⟩
  intro rest
  simp

theorem append {more : List Regex} (ha : Denotes a items) (hb : Denotes b more) :
    Denotes (a ++ b) (items ++ more) := by
  obtain ⟨s, hs, htake⟩ := ha
  obtain ⟨t, ht, htake'⟩ := hb
  refine ⟨s ++ t, hs.append ht, fun r => ?_⟩
  rw [List.foldlM_append, htake]
  change t.foldlM Reading.take _ = _
  rw [htake']
  simp

theorem one (h : ReadAs a [.one set]) : Denotes a [.one set] := ⟨_, h, fun _ => rfl⟩

/-- A set of characters, repeated. -/
theorem repeated {low : Nat} {high : Option Nat} (ha : ReadAs a [.one set])
    (hb : ReadAs b [.times low high]) : Denotes (a ++ b) [.times set low high] :=
  ⟨_, ha.append hb, fun _ => rfl⟩

/-- What is asked of the characters ahead. -/
theorem ahead (negated : Bool) (h : Denotes a items) :
    Denotes (['(', '?', if negated then '!' else '='] ++ a ++ [')'])
      [.ahead negated (.sequence items.reverse)] := by
  obtain ⟨tokens, htokens, htake⟩ := h
  have hclose : ReadAs [')'] [.close] := fun rest => tokens?_plain (by decide) rest
  refine ⟨[.ahead negated] ++ tokens ++ [.close],
    ((readAs_ahead negated).append htokens).append hclose, ?_⟩
  intro r
  rw [List.foldlM_append, List.foldlM_append]
  change (tokens.foldlM Reading.take ⟨[], (negated, r.items) :: r.outer⟩ >>= _) = _
  rw [htake]
  simp [Reading.take]

theorem start : Denotes ['^'] [.start] :=
  ⟨[.start], fun rest => tokens?_plain (by decide) rest, fun _ => rfl⟩

theorem stop : Denotes ['$'] [.stop] :=
  ⟨[.stop], fun rest => tokens?_plain (by decide) rest, fun _ => rfl⟩

/-- An escaped text denotes its characters. -/
theorem escape (text : List Char) :
    Denotes (text.flatMap escapeChar) (text.map fun c => .one (.only c)) := by
  refine ⟨text.map Token.char, tokens?_escape text, fun r => ?_⟩
  rw [foldlM_take_chars]
  rfl

/-- A pattern that denotes items has them as its reading. -/
theorem read? {pattern : String} (h : Denotes pattern.toList items) :
    Regex.read? pattern = some (.sequence items.reverse) := by
  obtain ⟨tokens, htokens, htake⟩ := h
  simp [Regex.read?, htokens.tokens?_eq, htake]

/-- A pattern has no reading if what stands behind some part of it has none. -/
theorem read?_eq_none {pattern : String} {rest : List Char} (h : Denotes a items)
    (hrest : tokens? .plain rest = none) (hpattern : pattern.toList = a ++ rest) :
    Regex.read? pattern = none := by
  obtain ⟨tokens, htokens, -⟩ := h
  simp [Regex.read?, hpattern, htokens rest, hrest]

end Denotes

/-! ## Sets of characters -/

theorem readAs_any : ReadAs ['.'] [.one .any] := fun rest => tokens?_plain (by decide) rest

theorem readAs_blank : ReadAs ['\\', 's'] [.one .blank] := by
  intro rest
  simp [tokens?_cons, Mode.step, Function.comp_def]

/-- A member of a class is written as itself, or with a backslash before it or before the letter
that stands for it. -/
theorem classMember_cases (c : Char) :
    (c ∉ '-' :: ']' :: metacharacters ∧ classMember c = [c]) ∨
      ∃ d, classMember c = ['\\', d] ∧ d ≠ 's' ∧ escaped? d = some c := by
  unfold classMember
  split_ifs with h
  · rcases h with rfl | rfl
    · exact .inr ⟨'-', rfl, by decide, rfl⟩
    · exact .inr ⟨']', rfl, by decide, rfl⟩
  · rcases escapeChar_cases c with ⟨hmeta, hc⟩ | hc
    · refine .inl ⟨?_, hc⟩
      simp only [List.mem_cons, not_or]
      exact ⟨fun hd => h (.inl hd), fun hd => h (.inr hd), hmeta⟩
    · exact .inr hc

/-- Outside a class, too, a member of it is read as the character. -/
theorem readAs_classMember (c : Char) : ReadAs (classMember c) [.char c] := by
  intro rest
  rcases classMember_cases c with ⟨hmem, hc⟩ | ⟨d, hc, hs, hd⟩
  · have hmeta : c ∉ metacharacters := by
      simp only [List.mem_cons, not_or] at hmem
      exact hmem.2.2
    have hplain : c ∉ ['\\', '(', '[', '\x7b', '|'] := by
      intro h
      exact hmeta ((by decide : ['\\', '(', '[', '\x7b', '|'] ⊆ metacharacters) h)
    rw [hc, List.singleton_append, tokens?_plain hplain, tokenOf_of_notMem hmeta]
    rfl
  · rw [hc]
    exact tokens?_escaped hs hd rest

/-- A member is added to those that have been read. -/
theorem tokens?_members_member (negated : Bool) (before : List Char) (c : Char)
    (rest : List Char) :
    tokens? (.members negated before) (classMember c ++ rest) =
      tokens? (.members negated (c :: before)) rest := by
  rcases classMember_cases c with ⟨hmem, hc⟩ | ⟨d, hc, -, hd⟩
  · have hstep : c ≠ '\\' ∧ c ≠ ']' ∧ c ∉ ['-', '[', '^'] := by
      refine ⟨?_, ?_, ?_⟩
      · rintro rfl
        exact hmem (by decide)
      · rintro rfl
        exact hmem (by decide)
      · intro h
        exact hmem ((by decide : ['-', '[', '^'] ⊆ '-' :: ']' :: metacharacters) h)
    rw [hc, List.singleton_append, tokens?_cons]
    simp [Mode.step, Mode.stepMembers, hstep]
  · rw [hc]
    simp [tokens?_cons, Mode.step, Mode.stepMembers, hd, Function.comp_def]

/-- The members of a class, some of which may have been read, up to its end. -/
theorem tokens?_members (negated : Bool) {before chars : List Char} (rest : List Char)
    (h : before ≠ [] ∨ chars ≠ []) :
    tokens? (.members negated before) (chars.flatMap classMember ++ ']' :: rest) =
      (tokens? .plain rest).map (.one (.listed negated (before.reverse ++ chars)) :: ·) := by
  induction chars generalizing before with
  | nil =>
    have hne : before ≠ [] := by simpa using h
    rw [List.flatMap_nil, List.nil_append, tokens?_cons]
    simp [Mode.step, Mode.stepMembers, hne]
  | cons c chars ih =>
    rw [List.flatMap_cons, List.append_assoc, tokens?_members_member, ih (.inl (by simp))]
    simp

/-- Behind the bracket, a class that is not negated begins with its first member. -/
theorem tokens?_bracket (c : Char) (rest : List Char) :
    tokens? .bracket (classMember c ++ rest) =
      tokens? (.members false []) (classMember c ++ rest) := by
  rcases classMember_cases c with ⟨hmem, hc⟩ | ⟨d, hc, -, -⟩
  · have hne : c ≠ '^' := by
      rintro rfl
      exact hmem (by decide)
    rw [hc, List.singleton_append, tokens?_cons, tokens?_cons]
    simp [Mode.step, hne]
  · rw [hc]
    simp [tokens?_cons, Mode.step]

theorem readAs_oneOf {chars : List Char} (h : chars ≠ []) :
    ReadAs (oneOf chars).toList [.one (.listed false chars)] := by
  obtain ⟨c, chars, rfl⟩ := List.exists_cons_of_ne_nil h
  by_cases hmore : chars = []
  · subst hmore
    have hone : (oneOf [c]).toList = classMember c := by simp [oneOf, classBody]
    rw [hone]
    exact readAs_classMember c
  · intro rest
    have hlong : 0 < chars.length := List.length_pos_iff.2 hmore
    have htext : (oneOf (c :: chars)).toList ++ rest =
        '[' :: (classMember c ++ (chars.flatMap classMember ++ ']' :: rest)) := by
      simp [oneOf, hlong, classBody]
    have hmembers : tokens? (.members false [])
        ((c :: chars).flatMap classMember ++ ']' :: rest) = _ :=
      tokens?_members false rest (.inr (by simp))
    rw [List.flatMap_cons, List.append_assoc] at hmembers
    rw [htext, tokens?_skip rfl, tokens?_bracket, hmembers]
    rfl

theorem readAs_noneOf {chars : List Char} (h : chars ≠ []) :
    ReadAs (noneOf chars).toList [.one (.listed true chars)] := by
  intro rest
  have hclass : (noneOf chars).toList ++ rest =
      '[' :: '^' :: (chars.flatMap classMember ++ ']' :: rest) := by
    simp [noneOf, classBody]
  rw [hclass, tokens?_skip rfl, tokens?_skip rfl, tokens?_members true rest (.inr h)]
  rfl

/-! ## Counts -/

theorem toList_repr_natCast (n : Nat) : (n : Int).repr.toList = Nat.toDigits 10 n :=
  Nat.toList_repr

/-- A negative number begins with a sign. -/
theorem toList_repr_of_neg {n : Int} (h : n < 0) : ∃ digits, n.repr.toList = '-' :: digits := by
  obtain ⟨k, rfl⟩ := Int.eq_negSucc_of_lt_zero h
  refine ⟨(Nat.repr (k + 1)).toList, ?_⟩
  change ("-" ++ Nat.repr (k + 1)).toList = _
  simp

theorem all_isDigit_toDigits (n : Nat) : (Nat.toDigits 10 n).all Char.isDigit = true := by
  rw [List.all_eq_true]
  intro c hc
  exact Nat.isDigit_of_mem_toDigits (by decide) (by decide) hc

theorem ofDigits_toDigits (n : Nat) : ofDigits (Nat.toDigits 10 n) = n :=
  Nat.ofDigitChars_toDigits (by decide) (by decide)

theorem natural?_toDigits (n : Nat) : natural? (Nat.toDigits 10 n) = some n := by
  have hne : (Nat.toDigits 10 n).isEmpty = false := by
    rw [List.isEmpty_eq_false_iff]
    exact Nat.toDigits_ne_nil
  simp [natural?, hne, all_isDigit_toDigits, ofDigits_toDigits]

theorem tokens?_low {digits : List Char} (h : digits.all Char.isDigit = true)
    (before rest : List Char) :
    tokens? (.low before) (digits ++ rest) = tokens? (.low (before ++ digits)) rest := by
  induction digits generalizing before with
  | nil => simp
  | cons c digits ih =>
    rw [List.all_cons, Bool.and_eq_true] at h
    have hstep : (Mode.low before).step c = some ([], .low (before ++ [c])) := by
      simp [Mode.step, h.1]
    rw [List.cons_append, tokens?_skip hstep, ih h.2, List.append_assoc, List.singleton_append]

theorem tokens?_high {digits : List Char} (h : digits.all Char.isDigit = true) (low : Nat)
    (before rest : List Char) :
    tokens? (.high low before) (digits ++ rest) = tokens? (.high low (before ++ digits)) rest := by
  induction digits generalizing before with
  | nil => simp
  | cons c digits ih =>
    rw [List.all_cons, Bool.and_eq_true] at h
    have hstep : (Mode.high low before).step c = some ([], .high low (before ++ [c])) := by
      simp [Mode.step, h.1]
    rw [List.cons_append, tokens?_skip hstep, ih h.2, List.append_assoc, List.singleton_append]

theorem readAs_star : ReadAs ['*'] [.times 0 none] := fun rest => tokens?_plain (by decide) rest

theorem readAs_times (n : Nat) : ReadAs (times n).toList [.times n (some n)] := by
  intro rest
  have htext : (times n).toList ++ rest = '\x7b' :: (Nat.toDigits 10 n ++ '\x7d' :: rest) := by
    simp [times, toList_repr_natCast]
  have hend : (Mode.low (Nat.toDigits 10 n)).step '\x7d' = some ([.times n (some n)], .plain) := by
    simp [Mode.step, natural?_toDigits, show Char.isDigit '\x7d' = false from rfl]
  rw [htext, tokens?_skip rfl, tokens?_low (all_isDigit_toDigits n), List.nil_append,
    tokens?_emit hend]
  rfl

theorem readAs_atLeast (n : Nat) : ReadAs (atLeast n).toList [.times n none] := by
  intro rest
  have htext : (atLeast n).toList ++ rest =
      '\x7b' :: (Nat.toDigits 10 n ++ ',' :: '\x7d' :: rest) := by
    simp [atLeast, toList_repr_natCast]
  have hcomma : (Mode.low (Nat.toDigits 10 n)).step ',' = some ([], .high n []) := by
    simp [Mode.step, natural?_toDigits, show Char.isDigit ',' = false from rfl]
  rw [htext, tokens?_skip rfl, tokens?_low (all_isDigit_toDigits n), List.nil_append,
    tokens?_skip hcomma, tokens?_emit rfl]
  rfl

/-- Up to the upper bound, the lower one being zero. -/
theorem tokens?_zeroTo (rest : List Char) :
    tokens? .plain ('\x7b' :: '0' :: ',' :: rest) = tokens? (.high 0 []) rest := by
  rw [tokens?_skip rfl, tokens?_skip rfl, tokens?_skip rfl]
  rfl

theorem readAs_atMost (n : Nat) : ReadAs (atMost n).toList [.times 0 (some n)] := by
  intro rest
  have htext : (atMost n).toList ++ rest =
      '\x7b' :: '0' :: ',' :: (Nat.toDigits 10 n ++ '\x7d' :: rest) := by
    simp [atMost, toList_repr_natCast]
  have hend : (Mode.high 0 (Nat.toDigits 10 n)).step '\x7d' =
      some ([.times 0 (some n)], .plain) := by
    simp [Mode.step, ofDigits_toDigits, Nat.toDigits_ne_nil,
      show Char.isDigit '\x7d' = false from rfl]
  rw [htext, tokens?_zeroTo, tokens?_high (all_isDigit_toDigits n), List.nil_append,
    tokens?_emit hend]
  rfl

/-- A sign is no digit of a count. -/
theorem tokens?_sign {mode : Mode} (h : mode.step '-' = none) (rest : List Char) :
    tokens? mode ('-' :: rest) = none := by
  rw [tokens?_cons, h]
  rfl

variable {n : Int}

theorem tokens?_times_of_neg (h : n < 0) (rest : List Char) :
    tokens? .plain ((times n).toList ++ rest) = none := by
  obtain ⟨digits, hdigits⟩ := toList_repr_of_neg h
  have htext : (times n).toList ++ rest = '\x7b' :: '-' :: (digits ++ '\x7d' :: rest) := by
    simp [times, hdigits]
  rw [htext, tokens?_skip rfl, tokens?_sign rfl]

theorem tokens?_atLeast_of_neg (h : n < 0) (rest : List Char) :
    tokens? .plain ((atLeast n).toList ++ rest) = none := by
  obtain ⟨digits, hdigits⟩ := toList_repr_of_neg h
  have htext : (atLeast n).toList ++ rest =
      '\x7b' :: '-' :: (digits ++ ',' :: '\x7d' :: rest) := by
    simp [atLeast, hdigits]
  rw [htext, tokens?_skip rfl, tokens?_sign rfl]

theorem tokens?_atMost_of_neg (h : n < 0) (rest : List Char) :
    tokens? .plain ((atMost n).toList ++ rest) = none := by
  obtain ⟨digits, hdigits⟩ := toList_repr_of_neg h
  have htext : (atMost n).toList ++ rest =
      '\x7b' :: '0' :: ',' :: '-' :: (digits ++ '\x7d' :: rest) := by
    simp [atMost, hdigits]
  rw [htext, tokens?_zeroTo, tokens?_sign rfl]

/-- An integer of 64 bits. -/
def IsInt64 (k : Int) : Prop := -9223372036854775808 ≤ k ∧ k ≤ 9223372036854775807

theorem toInt_add {a b : Int64} (h : IsInt64 (a.toInt + b.toInt)) :
    (a + b).toInt = a.toInt + b.toInt := by
  obtain ⟨hlow, hhigh⟩ := h
  rw [Int64.toInt_add]
  exact Int.bmod_eq_of_le hlow (Int.lt_add_one_of_le hhigh)

theorem toInt_sub {a b : Int64} (h : IsInt64 (a.toInt - b.toInt)) :
    (a - b).toInt = a.toInt - b.toInt := by
  obtain ⟨hlow, hhigh⟩ := h
  rw [Int64.toInt_sub]
  exact Int.bmod_eq_of_le hlow (Int.lt_add_one_of_le hhigh)

/-! ## Matches of items -/

namespace Regex

variable {subject : List Char} {items more : List Regex} {i j : Nat}

/-- Items that match one after the other take the subject from one of its positions to another. -/
def Runs (subject : List Char) : List Regex → Nat → Nat → Prop
  | [], i, j => j = i
  | r :: rest, i, j => ∃ k, r.Goes subject i k ∧ Runs subject rest k j

theorem runs_append :
    Runs subject (items ++ more) i j ↔ ∃ k, Runs subject items i k ∧ Runs subject more k j := by
  induction items generalizing i with
  | nil => simp [Runs]
  | cons r items ih =>
    simp only [List.cons_append, Runs, ih]
    constructor
    · intro h
      obtain ⟨k, hr, l, hitems, hmore⟩ := h
      exact ⟨l, ⟨k, hr, hitems⟩, hmore⟩
    · intro h
      obtain ⟨l, ⟨k, hr, hitems⟩, hmore⟩ := h
      exact ⟨k, hr, l, hitems, hmore⟩

/-- A reading has its last item first. -/
theorem goes_sequence_reverse :
    (sequence items.reverse).Goes subject i j ↔ Runs subject items i j := by
  suffices h : ∀ last : List Regex,
      (sequence last).Goes subject i j ↔ Runs subject last.reverse i j by
    simpa using h items.reverse
  intro last
  induction last generalizing j with
  | nil => exact goes_sequence_nil
  | cons r last ih => simp [goes_sequence_cons, ih, runs_append, Runs]

theorem foundIn_sequence :
    (sequence items.reverse).FoundIn subject ↔
      ∃ i ≤ subject.length, ∃ j, Runs subject items i j := by
  simp only [FoundIn, goes_sequence_reverse]

/-- From the start of the subject. -/
theorem foundIn_start :
    (sequence (start :: items).reverse).FoundIn subject ↔ ∃ j, Runs subject items 0 j := by
  rw [foundIn_sequence]
  constructor
  · intro h
    obtain ⟨i, -, j, k, ⟨rfl, rfl⟩, hitems⟩ := h
    exact ⟨j, hitems⟩
  · intro h
    obtain ⟨j, hitems⟩ := h
    exact ⟨0, Nat.zero_le _, j, 0, ⟨rfl, rfl⟩, hitems⟩

theorem runs_literal {text : List Char} :
    Runs subject (text.map fun c => one (.only c)) i j ↔
      text <+: subject.drop i ∧ j = i + text.length := by
  have htext : (sequence (literalItems text ++ [])).Goes subject i j ↔
      ∃ k, (sequence []).Goes subject i k ∧ text <+: subject.drop k ∧ j = k + text.length :=
    goes_sequence_append
  rw [List.append_nil, literalItems, goes_sequence_reverse] at htext
  simpa using htext

/-- Arbitrary characters, as many as the bounds allow. -/
theorem goes_times_any {low : Nat} {high : Option Nat} :
    (times .any low high).Goes subject i j ↔
      i + low ≤ j ∧ (∀ h ∈ high, j ≤ i + h) ∧ (j ≤ subject.length ∨ j = i) := by
  constructor
  · intro hgoes
    obtain ⟨n, rfl, hlow, hhigh, hall⟩ := hgoes
    refine ⟨by omega, fun h hh => by have := hhigh h hh; omega, ?_⟩
    by_cases hn : n = 0
    · exact .inr (by omega)
    · -- The last of the characters is one of the subject.
      obtain ⟨c, hc, -⟩ := hall (n - 1) (by omega)
      have hlast := (List.getElem?_eq_some_iff.1 hc).1
      exact .inl (by omega)
  · intro hbounds
    obtain ⟨hlow, hhigh, hend⟩ := hbounds
    refine ⟨j - i, by omega, by omega, fun h hh => by have := hhigh h hh; omega, ?_⟩
    intro k hk
    have hlt : i + k < subject.length := by omega
    exact ⟨subject[i + k], List.getElem?_eq_getElem hlt, rfl⟩

/-- An exact number of characters of a set. -/
theorem goes_exactly {set : CharSet} {n : Nat} :
    (times set n (some n)).Goes subject i j ↔
      j = i + n ∧ ∀ k < n, ∃ c, subject[i + k]? = some c ∧ set.has c = true := by
  constructor
  · intro h
    obtain ⟨n', rfl, hlow, hhigh, hall⟩ := h
    obtain rfl : n' = n := Nat.le_antisymm (hhigh n rfl) hlow
    exact ⟨rfl, hall⟩
  · intro h
    obtain ⟨rfl, hall⟩ := h
    exact ⟨n, rfl, Nat.le_refl n, by simp, hall⟩

/-- An exact number of arbitrary characters. -/
theorem goes_exactly_any (hi : i ≤ subject.length) {n : Nat} :
    (times .any n (some n)).Goes subject i j ↔ j = i + n ∧ i + n ≤ subject.length := by
  rw [goes_times_any]
  simp only [Option.mem_def, Option.some.injEq, forall_eq']
  omega

/-- What is asked of the characters ahead is asked where it stands. -/
theorem runs_ahead {negated : Bool} {inner : List Regex} :
    Runs subject (ahead negated (sequence inner.reverse) :: items) i j ↔
      ((∃ k, Runs subject inner i k) ↔ negated = false) ∧ Runs subject items i j := by
  simp only [Runs, Goes, goes_sequence_reverse]
  constructor
  · intro h
    obtain ⟨k, ⟨rfl, hahead⟩, hitems⟩ := h
    exact ⟨hahead, hitems⟩
  · intro h
    obtain ⟨hahead, hitems⟩ := h
    exact ⟨i, ⟨rfl, hahead⟩, hitems⟩

/-- A match does not go back, and it stays in the subject. -/
theorem Goes.le {r : Regex} (h : r.Goes subject i j) (hi : i ≤ subject.length) :
    i ≤ j ∧ j ≤ subject.length := by
  induction r generalizing i j with
  | empty =>
    obtain rfl : j = i := h
    exact ⟨Nat.le_refl j, hi⟩
  | one set =>
    obtain ⟨rfl, c, hc, -⟩ := h
    have hlt := (List.getElem?_eq_some_iff.1 hc).1
    omega
  | start =>
    obtain ⟨rfl, -⟩ := h
    exact ⟨Nat.le_refl j, hi⟩
  | stop =>
    obtain ⟨rfl, -⟩ := h
    exact ⟨Nat.le_refl j, hi⟩
  | times set low high =>
    obtain ⟨n, rfl, -, -, hall⟩ := h
    by_cases hn : n = 0
    · omega
    · obtain ⟨c, hc, -⟩ := hall (n - 1) (by omega)
      have hlt := (List.getElem?_eq_some_iff.1 hc).1
      omega
  | ahead negated inner =>
    obtain ⟨rfl, -⟩ := h
    exact ⟨Nat.le_refl j, hi⟩
  | seq first second ihfirst ihsecond =>
    obtain ⟨k, hfirst, hsecond⟩ := h
    have hk := ihfirst hfirst hi
    have hj := ihsecond hsecond hk.2
    omega

theorem Runs.le (h : Runs subject items i j) (hi : i ≤ subject.length) :
    i ≤ j ∧ j ≤ subject.length :=
  (goes_sequence_reverse.2 h).le hi

/-- Up to the end of the subject. -/
theorem exists_runs_stop :
    (∃ j, Runs subject (items ++ [stop]) i j) ↔ Runs subject items i subject.length := by
  simp only [runs_append, Runs, Goes]
  constructor
  · intro h
    obtain ⟨j, k, hitems, l, ⟨-, rfl⟩, -⟩ := h
    exact hitems
  · intro h
    exact ⟨_, _, h, _, ⟨rfl, rfl⟩, rfl⟩

/-- Any characters at the end go up to the end of the subject. -/
theorem runs_any_length (hi : i ≤ subject.length) :
    Runs subject (items ++ [times .any 0 none]) i subject.length ↔
      ∃ j, Runs subject items i j := by
  simp only [runs_append, Runs, goes_times_any]
  constructor
  · intro h
    obtain ⟨j, hitems, -⟩ := h
    exact ⟨j, hitems⟩
  · intro h
    obtain ⟨j, hitems⟩ := h
    have hj := (hitems.le hi).2
    exact ⟨j, hitems, _, ⟨by omega, by simp, .inl (Nat.le_refl _)⟩, rfl⟩

end Regex
end DocQuery.Pattern
