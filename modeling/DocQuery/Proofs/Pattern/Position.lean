/-
Patterns for the position of a text, or of one of some characters, in a string.

It is looked for in a window of the string (`Window`), and its position is that of the
first place inside of the window where it stands (`Needle.IndexIs`). The pattern leads
to the start of the window and says that it stands so many characters further on and
not before. If that number is not too small, the pattern has a reading, and this is
found in just the strings that have the position; else it has none (`read?_pattern`).
Where it would go beyond the end of the window no pattern is made; then no string has
the position, but for the one that says that there is none (`indexIs_of_excludes`). This
is the pattern that is written, if no number in it wraps around (`indexOfString_eq`,
`indexOfChars_eq`).
-/
import DocQuery.Proofs.Pattern.Notation

namespace DocQuery

/-! ## Positions -/

/-- What is looked for in a string. -/
inductive Needle where
  | text (t : String)
  /-- One of some characters. -/
  | anyOf (chars : List Char)

/-- The part of a string in which it is looked for. -/
inductive Window where
  | whole
  | startingAt (start : Nat)
  | within (start count : Nat)

namespace Window

def start : Window → Nat
  | whole => 0
  | startingAt a | within a _ => a

/-- The end of the window in a string of some length. -/
def stop : Window → Nat → Nat
  | within a count, _ => a + count
  | _, length => length

/-- A string is long enough for the window. -/
def Fits (w : Window) (length : Nat) : Prop := w.start ≤ length ∧ w.stop length ≤ length

/-- The numbers that a window is given by. -/
def bounds : Window → List Int
  | whole => []
  | startingAt a => [a]
  | within a count => [a, count]

/-- Whether something at a position goes beyond the end that the window has. -/
def excludes : Window → Nat → Int → Bool
  | within a count, width, n => a + count < n + width
  | _, _, _ => false

end Window

namespace Needle

/-- The characters that are looked for. -/
def chars : Needle → List Char
  | text t => t.toList
  | anyOf chars => chars

def width : Needle → Nat
  | text t => t.length
  | anyOf _ => 1

/-- The string has it at a position. -/
def StandsAt (needle : Needle) (subject : List Char) (i : Nat) : Prop :=
  match needle with
  | text t => t.toList <+: subject.drop i
  | anyOf chars => ∃ c ∈ chars, subject[i]? = some c

/-- The string has it at a position inside of the window. -/
def Inside (needle : Needle) (w : Window) (subject : List Char) (i : Nat) : Prop :=
  w.start ≤ i ∧ i + needle.width ≤ w.stop subject.length ∧ needle.StandsAt subject i

/-- The first position inside of the window; -1 if there is none. -/
def IndexIs (needle : Needle) (w : Window) (subject : List Char) (n : Int) : Prop :=
  (∃ i : Nat, n = i ∧ needle.Inside w subject i ∧ ∀ j < i, ¬needle.Inside w subject j) ∨
    (n = -1 ∧ ∀ i, ¬needle.Inside w subject i)

variable {needle : Needle} {w : Window} {subject : List Char} {i k : Nat} {n : Int}

/-- It ends where the string does, if not before. -/
theorem StandsAt.le (h : needle.StandsAt subject i) (hne : needle.chars ≠ []) :
    i + needle.width ≤ subject.length := by
  cases needle with
  | text t =>
    have hlength := List.IsPrefix.length_le h
    have hpos := List.length_pos_iff.2 hne
    rw [List.length_drop] at hlength
    change 0 < t.toList.length at hpos
    rw [String.length_toList] at hlength hpos
    change i + t.length ≤ _
    omega
  | anyOf chars =>
    obtain ⟨c, -, hc⟩ := h
    exact (List.getElem?_eq_some_iff.1 hc).1

/-- If it does not go beyond the end that the window has, it stands at a position first if nowhere
before, from the start of the window on. -/
theorem indexIs_iff (hne : needle.chars ≠ [])
    (h : w.excludes needle.width (w.start + k) = false) :
    needle.IndexIs w subject (w.start + k) ↔
      needle.StandsAt subject (w.start + k) ∧ ∀ j < k, ¬needle.StandsAt subject (w.start + j) := by
  constructor
  · intro hindex
    rcases hindex with ⟨i, hi, hinside, hbefore⟩ | ⟨hnone, -⟩
    · obtain rfl : i = w.start + k := by omega
      obtain ⟨-, hend, hat⟩ := hinside
      refine ⟨hat, fun j hj hat' => ?_⟩
      exact hbefore (w.start + j) (by omega) ⟨by omega, by omega, hat'⟩
    · omega
  · intro hfirst
    obtain ⟨hat, hbefore⟩ := hfirst
    -- A window without an end of its own ends with the string.
    have hend : w.start + k + needle.width ≤ w.stop subject.length := by
      cases w with
      | within a count =>
        have hle := of_decide_eq_false h
        simp only [Window.start, Window.stop] at hle ⊢
        omega
      | _ => exact hat.le hne
    refine .inl ⟨w.start + k, by simp, ⟨by omega, hend, hat⟩, fun j hj hinside => ?_⟩
    obtain ⟨hstart, -, hat'⟩ := hinside
    exact hbefore (j - w.start) (by omega) (by rwa [Nat.add_sub_cancel' hstart])

/-- Beyond the window it is at no position. -/
theorem indexIs_of_excludes (h : w.excludes needle.width n = true) :
    needle.IndexIs w subject n ↔ n = -1 := by
  cases w with
  | within a count =>
    simp only [Window.excludes, decide_eq_true_eq] at h
    constructor
    · intro hindex
      rcases hindex with ⟨i, hi, ⟨-, hend, -⟩, -⟩ | ⟨hnone, -⟩
      · simp only [Window.stop] at hend
        omega
      · exact hnone
    · intro hn
      refine .inr ⟨hn, fun i hinside => ?_⟩
      obtain ⟨hstart, hend, -⟩ := hinside
      simp only [Window.start, Window.stop] at hstart hend
      omega
  | _ => cases h

end Needle

/-! ## Patterns -/

namespace Window

open DocQuery.Pattern

/-- The part of the pattern that leads to the start of the window. -/
def lead : Window → String
  | whole => "^"
  | startingAt a => "^." ++ times a
  | within a count => "^." ++ times a ++ "(?=." ++ times count ++ ")"

/-- The items behind the start of the string. -/
def items : Window → List Regex
  | whole => []
  | startingAt a => [.times .any a (some a)]
  | within a count =>
    [.times .any a (some a), .ahead false (.sequence [.times .any count (some count)].reverse)]

theorem denotes_lead (w : Window) : Denotes w.lead.toList ([.start] ++ w.items) := by
  cases w with
  | whole => exact .start
  | startingAt a =>
    have htext : (startingAt a).lead.toList = ['^'] ++ (['.'] ++ (times a).toList) := by
      simp [lead]
    rw [htext]
    exact Denotes.start.append (.repeated readAs_any (readAs_times a))
  | within a count =>
    have htext : (within a count).lead.toList = ['^'] ++ ((['.'] ++ (times a).toList) ++
        (['(', '?', '='] ++ (['.'] ++ (times count).toList) ++ [')'])) := by
      simp [lead]
    rw [htext]
    exact Denotes.start.append ((Denotes.repeated readAs_any (readAs_times a)).append
      (.ahead false (.repeated readAs_any (readAs_times count))))

/-- They lead to the start of the window if the string is long enough. -/
theorem runs_items (w : Window) {subject : List Char} {k : Nat} :
    Regex.Runs subject w.items 0 k ↔ k = w.start ∧ w.Fits subject.length := by
  cases w with
  | whole => simp [items, Regex.Runs, start, Fits, stop]
  | startingAt a => simp [items, Regex.Runs, start, Fits, stop, Regex.goes_exactly_any]
  | within a count =>
    have hcount {i : Nat} (hi : i ≤ subject.length) :
        (∃ l, Regex.Runs subject [.times .any count (some count)] i l) ↔
          i + count ≤ subject.length := by
      simp [Regex.Runs, Regex.goes_exactly_any hi]
    constructor
    · intro h
      obtain ⟨i, hfirst, hahead⟩ := h
      obtain ⟨rfl, ha⟩ := (Regex.goes_exactly_any (Nat.zero_le _)).1 hfirst
      obtain ⟨hcounted, rfl⟩ := Regex.runs_ahead.1 hahead
      have hend := (hcount ha).1 (hcounted.2 rfl)
      simp only [start, Fits, stop]
      omega
    · intro h
      obtain ⟨hk, ha, hend⟩ := h
      have hfirst : (Regex.times .any a (some a)).Goes subject 0 a :=
        (Regex.goes_exactly_any (Nat.zero_le _)).2
          ⟨(Nat.zero_add a).symm, by simpa [start] using ha⟩
      exact ⟨a, hfirst, Regex.runs_ahead.2 ⟨iff_of_true ((hcount ha).2 hend) rfl, hk⟩⟩

end Window

namespace Needle

open DocQuery.Pattern

/-- The part of the pattern that says that it stands so many characters further on. -/
def body : Needle → Int → String
  | text t, k => "(?!." ++ atMost (k - 1) ++ escape t ++ ")." ++ times k ++ escape t
  | anyOf chars, k => noneOf chars ++ times k ++ oneOf chars

/-- The items of that part. -/
def items : Needle → Nat → List Regex
  | text t, k =>
    .ahead true (.sequence ([Regex.times .any 0 (some (k - 1))] ++ literal t.toList).reverse) ::
      .times .any k (some k) :: literal t.toList
  | anyOf chars, k => [.times (.listed true chars) k (some k), .one (.listed false chars)]
where
  literal (t : List Char) : List Regex := t.map fun c => .one (.only c)

/-- The least number of characters that can be said. -/
def leastOffset : Needle → Int
  | text _ => 1
  | anyOf _ => 0

/-- The pattern for a position, if that is not beyond the window. -/
def pattern? (needle : Needle) (w : Window) (n : Int) : Option String :=
  if w.excludes needle.width n then none else some (w.lead ++ needle.body (n - w.start))

variable {needle : Needle} {w : Window} {subject : List Char} {i k : Nat} {n : Int}

theorem denotes_body (hne : needle.chars ≠ []) (hk : needle.leastOffset ≤ k) :
    Denotes (needle.body k).toList (needle.items k) := by
  cases needle with
  | anyOf chars =>
    have htext : ((anyOf chars).body k).toList =
        ((noneOf chars).toList ++ (times k).toList) ++ (oneOf chars).toList := by
      simp [body]
    rw [htext]
    exact (Denotes.repeated (readAs_noneOf hne) (readAs_times k)).append (.one (readAs_oneOf hne))
  | text t =>
    have hk' : (k : Int) - 1 = (k - 1 : Nat) := by
      simp only [leastOffset] at hk
      omega
    have htext : ((text t).body k).toList =
        (['(', '?', '!'] ++ ((['.'] ++ (atMost (k - 1 : Nat)).toList) ++
          t.toList.flatMap escapeChar) ++ [')']) ++
        ((['.'] ++ (times k).toList) ++ t.toList.flatMap escapeChar) := by
      simp [body, escape, hk']
    have hbefore : Denotes ((['.'] ++ (atMost (k - 1 : Nat)).toList) ++ t.toList.flatMap escapeChar)
        ([.times .any 0 (some (k - 1))] ++ items.literal t.toList) :=
      (Denotes.repeated readAs_any (readAs_atMost (k - 1))).append (.escape t.toList)
    have hat : Denotes ((['.'] ++ (times k).toList) ++ t.toList.flatMap escapeChar)
        ([.times .any k (some k)] ++ items.literal t.toList) :=
      (Denotes.repeated readAs_any (readAs_times k)).append (.escape t.toList)
    rw [htext]
    exact (hbefore.ahead true).append hat

/-- A number that is too small makes a count negative. -/
theorem tokens?_body {k : Int} (hne : needle.chars ≠ []) (hk : k < needle.leastOffset) :
    tokens? .plain (needle.body k).toList = none := by
  cases needle with
  | anyOf chars =>
    have hnone : ReadAs (noneOf chars).toList [.one (.listed true chars)] := readAs_noneOf hne
    have htext : ((anyOf chars).body k).toList =
        (noneOf chars).toList ++ ((times k).toList ++ (oneOf chars).toList) := by
      simp [body]
    rw [htext, hnone, tokens?_times_of_neg hk]
    rfl
  | text t =>
    have hneg : k - 1 < 0 := by
      simp only [leastOffset] at hk
      omega
    have hopen : ReadAs ['(', '?', '!', '.'] [.ahead true, .one .any] :=
      (readAs_ahead true).append readAs_any
    have htext : ((text t).body k).toList = ['(', '?', '!', '.'] ++
        ((atMost (k - 1)).toList ++ (escape t ++ ")." ++ times k ++ escape t).toList) := by
      simp [body]
    rw [htext, hopen, tokens?_atMost_of_neg hneg]
    rfl

theorem exists_runs_anyOf {chars : List Char} :
    (∃ j, Regex.Runs subject ((anyOf chars).items k) i j) ↔
      (anyOf chars).StandsAt subject (i + k) ∧
        ∀ j < k, ¬(anyOf chars).StandsAt subject (i + j) := by
  constructor
  · intro h
    obtain ⟨j, m, hgoes, m', ⟨-, c, hc, hmem⟩, -⟩ := h
    obtain ⟨rfl, hbefore⟩ := Regex.goes_exactly.1 hgoes
    refine ⟨⟨c, by simpa [CharSet.has] using hmem, hc⟩, fun j hj hat => ?_⟩
    obtain ⟨d, hd, hj'⟩ := hat
    obtain ⟨d', hd', hnot⟩ := hbefore j hj
    obtain rfl : d = d' := Option.some.inj (hj'.symm.trans hd')
    simp [CharSet.has, hd] at hnot
  · intro h
    obtain ⟨⟨c, hmem, hc⟩, hbefore⟩ := h
    have hlt := (List.getElem?_eq_some_iff.1 hc).1
    refine ⟨_, i + k, Regex.goes_exactly.2 ⟨rfl, fun j hj => ?_⟩, _,
      ⟨rfl, c, hc, by simp [CharSet.has, hmem]⟩, rfl⟩
    have hj' : subject[i + j]? = some subject[i + j] := List.getElem?_eq_getElem (by omega)
    have hnot : subject[i + j] ∉ chars := fun hin => hbefore j hj ⟨_, hin, hj'⟩
    exact ⟨_, hj', by simp [CharSet.has, hnot]⟩

/-- Up to a number of characters further on the text stands somewhere. -/
theorem exists_runs_before {t : String} (ht : t.toList ≠ []) (hk : 0 < k) :
    (∃ j, Regex.Runs subject ([.times .any 0 (some (k - 1))] ++ items.literal t.toList) i j) ↔
      ∃ j < k, (text t).StandsAt subject (i + j) := by
  simp only [Regex.runs_append, Regex.Runs, Regex.goes_times_any, items.literal,
    Regex.runs_literal]
  constructor
  · intro h
    obtain ⟨-, m, ⟨m', ⟨hlow, hhigh, -⟩, rfl⟩, hat, -⟩ := h
    have hm := hhigh (k - 1) rfl
    refine ⟨m - i, by omega, ?_⟩
    rwa [Nat.add_sub_cancel' (by omega)]
  · intro h
    obtain ⟨j, hj, hat⟩ := h
    have hle := hat.le ht
    refine ⟨_, i + j, ⟨i + j, ⟨by omega, ?_, .inl (by omega)⟩, rfl⟩, hat, rfl⟩
    simp only [Option.mem_def, Option.some.injEq, forall_eq']
    omega

/-- A number of characters further on the text stands. -/
theorem exists_runs_at {t : String} (ht : t.toList ≠ []) (hi : i ≤ subject.length) :
    (∃ j, Regex.Runs subject ([.times .any k (some k)] ++ items.literal t.toList) i j) ↔
      (text t).StandsAt subject (i + k) := by
  simp only [Regex.runs_append, Regex.Runs, Regex.goes_exactly_any hi, items.literal,
    Regex.runs_literal]
  constructor
  · intro h
    obtain ⟨-, m, ⟨m', ⟨rfl, -⟩, rfl⟩, hat, -⟩ := h
    exact hat
  · intro h
    have hle := h.le ht
    exact ⟨_, i + k, ⟨i + k, ⟨rfl, by omega⟩, rfl⟩, h, rfl⟩

/-- The items find it a number of characters further on and not before. -/
theorem exists_runs_items (hne : needle.chars ≠ []) (hk : needle.leastOffset ≤ k)
    (hi : i ≤ subject.length) :
    (∃ j, Regex.Runs subject (needle.items k) i j) ↔
      needle.StandsAt subject (i + k) ∧ ∀ j < k, ¬needle.StandsAt subject (i + j) := by
  cases needle with
  | anyOf chars => exact exists_runs_anyOf
  | text t =>
    have hk' : 0 < k := by
      simp only [leastOffset] at hk
      omega
    -- What is refused ahead is that the text stands at one of the positions before.
    have hitems (j : Nat) : Regex.Runs subject ((text t).items k) i j ↔
        (¬∃ j < k, (text t).StandsAt subject (i + j)) ∧
          Regex.Runs subject ([.times .any k (some k)] ++ items.literal t.toList) i j := by
      rw [← exists_runs_before hne hk', items, Regex.runs_ahead]
      simp
    simp only [hitems, exists_and_left, exists_runs_at hne hi, not_exists, not_and]
    exact and_comm

/-- **The pattern for a position.** From a least number on it has a reading, and this is found in
the strings that have the position. -/
theorem read?_pattern (hne : needle.chars ≠ []) {pattern : String}
    (h : needle.pattern? w n = some pattern) :
    (n < w.start + needle.leastOffset → Regex.read? pattern = none) ∧
    (w.start + needle.leastOffset ≤ n → ∃ r, Regex.read? pattern = some r ∧
      ∀ subject, w.Fits subject.length → (r.FoundIn subject ↔ needle.IndexIs w subject n)) := by
  unfold pattern? at h
  split at h
  · cases h
  · rename_i hexcludes
    obtain rfl := Option.some.inj h
    constructor
    · intro hn
      exact w.denotes_lead.read?_eq_none (tokens?_body hne (by omega)) (String.toList_append ..)
    · intro hn
      have hleast : 0 ≤ needle.leastOffset := by cases needle <;> simp [leastOffset]
      obtain ⟨k, hk⟩ := Int.eq_ofNat_of_zero_le (show 0 ≤ n - w.start by omega)
      obtain rfl : n = w.start + k := by omega
      have hdenotes : Denotes (w.lead ++ needle.body (w.start + k - w.start)).toList
          ([.start] ++ w.items ++ needle.items k) := by
        rw [String.toList_append, hk]
        exact w.denotes_lead.append (denotes_body hne (by omega))
      refine ⟨_, hdenotes.read?, fun subject hfits => ?_⟩
      rw [indexIs_iff hne (by simpa using hexcludes), List.append_assoc, List.singleton_append,
        Regex.foundIn_start, ← exists_runs_items hne (by omega) hfits.1]
      simp [Regex.runs_append, w.runs_items, hfits]

end Needle

/-! ## Computed numbers -/

/-- The sums and differences that the pattern for a position is made with. -/
def Needle.computed : Needle → Window → Int → List Int
  | text _, .whole, n => [n - 1]
  | text _, .startingAt a, n => [n - a, n - a - 1]
  | text _, .within a count, n => [a + count, a + count - n, n - a, n - a - 1]
  | anyOf _, .whole, _ => []
  | anyOf _, .startingAt a, n => [n - a]
  | anyOf _, .within a count, n => [a + count, n - a]

open DocQuery.Pattern

section Words
variable {w : Window} {n : Int64} {words : List Int64}

/-- The words of a window, one for each of its numbers. -/
theorem words_cases (h : words.map Int64.toInt = w.bounds) :
    w = .whole ∧ words = [] ∨
      (∃ a start, w = .startingAt a ∧ words = [start] ∧ start.toInt = a) ∨
      ∃ a count start length, w = .within a count ∧ words = [start, length] ∧
        start.toInt = a ∧ length.toInt = count := by
  cases w with
  | whole => exact .inl ⟨rfl, List.map_eq_nil_iff.1 h⟩
  | startingAt a =>
    obtain ⟨start, rest, rfl, hstart, hrest⟩ := List.map_eq_cons_iff.1 h
    obtain rfl := List.map_eq_nil_iff.1 hrest
    exact .inr (.inl ⟨a, start, rfl, rfl, hstart⟩)
  | within a count =>
    obtain ⟨start, rest, rfl, hstart, hrest⟩ := List.map_eq_cons_iff.1 h
    obtain ⟨length, rest, rfl, hlength, hrest⟩ := List.map_eq_cons_iff.1 hrest
    obtain rfl := List.map_eq_nil_iff.1 hrest
    exact .inr (.inr ⟨a, count, start, length, rfl, rfl, hstart, hlength⟩)

/-- The pattern that is written for a text, its window given by up to two words. -/
theorem indexOfString_eq {t : String} (hwords : words.map Int64.toInt = w.bounds)
    (hrange : ∀ k ∈ (Needle.text t).computed w n.toInt, IsInt64 k) :
    indexOfString t n words[0]? words[1]? = (Needle.text t).pattern? w n.toInt := by
  have hstart (rest : String) : "^" ++ ("(?!." ++ rest) = "^(?!." ++ rest := by
    rw [← String.append_assoc]
    rfl
  have hclose (rest : String) : ")" ++ ("(?!." ++ rest) = ")(?!." ++ rest := by
    rw [← String.append_assoc]
    rfl
  have hone {a : Int64} (h : IsInt64 (a.toInt - 1)) : (a - 1).toInt = a.toInt - 1 := toInt_sub h
  unfold Needle.pattern?
  rcases words_cases hwords with ⟨rfl, rfl⟩ | ⟨a, start, rfl, rfl, ha⟩ |
    ⟨a, count, start, length, rfl, rfl, ha, hcount⟩
  · simp only [Needle.computed, List.forall_mem_singleton] at hrange
    simp [indexOfString, Window.excludes, Window.lead, Needle.body, Window.start,
      String.append_assoc, hstart, hone hrange]
  · simp only [Needle.computed, List.forall_mem_cons, List.not_mem_nil, false_imp_iff,
      implies_true, and_true, ← ha] at hrange
    obtain ⟨hsub, hpred⟩ := hrange
    rw [← toInt_sub hsub] at hpred
    simp [indexOfString, Window.excludes, Window.lead, Needle.body, Window.start,
      String.append_assoc, hone hpred, toInt_sub hsub, ha]
  · simp only [Needle.computed, List.forall_mem_cons, List.not_mem_nil, false_imp_iff,
      implies_true, and_true, ← ha, ← hcount] at hrange
    obtain ⟨hadd, hroom, hsub, hpred⟩ := hrange
    rw [← toInt_sub hsub] at hpred
    rw [← toInt_add hadd] at hroom
    have hguard : ((start + length - n).toInt < t.length) ↔ (a + count < n.toInt + t.length) := by
      rw [toInt_sub hroom, toInt_add hadd]
      omega
    by_cases hend : a + count < n.toInt + t.length <;>
      simp [-Int64.toInt_sub, indexOfString, Window.excludes, Window.lead, Needle.body,
        Window.start, Needle.width, String.append_assoc, hclose, hguard, hend, hone hpred,
        toInt_sub hsub, ha, hcount]

/-- The pattern that is written for characters. -/
theorem indexOfChars_eq {chars : List Char} (hwords : words.map Int64.toInt = w.bounds)
    (hrange : ∀ k ∈ (Needle.anyOf chars).computed w n.toInt, IsInt64 k) :
    indexOfChars chars n words[0]? words[1]? = (Needle.anyOf chars).pattern? w n.toInt := by
  unfold Needle.pattern?
  rcases words_cases hwords with ⟨rfl, rfl⟩ | ⟨a, start, rfl, rfl, ha⟩ |
    ⟨a, count, start, length, rfl, rfl, ha, hcount⟩
  · simp [indexOfChars, Window.excludes, Window.lead, Needle.body, Window.start,
      String.append_assoc]
  · simp only [Needle.computed, List.forall_mem_singleton, ← ha] at hrange
    simp [indexOfChars, Window.excludes, Window.lead, Needle.body, Window.start,
      String.append_assoc, toInt_sub hrange, ha]
  · simp only [Needle.computed, List.forall_mem_cons, List.not_mem_nil, false_imp_iff,
      implies_true, and_true, ← ha, ← hcount] at hrange
    obtain ⟨hadd, hsub⟩ := hrange
    have hguard : start + length ≤ n ↔ (a : Int) + count < n.toInt + 1 := by
      rw [Int64.le_iff_toInt_le, toInt_add hadd]
      omega
    by_cases hend : (a : Int) + count < n.toInt + 1 <;>
      simp [indexOfChars, Window.excludes, Window.lead, Needle.body, Window.start, Needle.width,
        String.append_assoc, hguard, hend, toInt_sub hsub, ha, hcount]

end Words

end DocQuery
