/-
Regular expressions: how their text is read, and what they are found in.

A text is read character by character into tokens (`Mode.step`, `tokens?`), and
token by token into a regular expression (`Reading.take`, `Regex.read?`). The part
of the usual notation that is read has single characters, `.`, `\s` and classes,
repetitions of one of these, the two anchors, and look-ahead; a text with anything
else in it has no reading. `.` is every character and the anchors are the ends of
the subject, as they are with the letter `s` and without the letter `m`.

An escaped text reads as the characters of the text (`tokens?_escape`), and these
are found where the text stands (`goes_sequence_append`).
-/
import DocQuery.Filter.Pattern
import DocQuery.Number.Numeral
import Mathlib.Data.List.Infix

namespace DocQuery.Pattern

/-- The characters that one place of a regular expression stands for. -/
inductive CharSet where
  | any
  | blank
  | listed (negated : Bool) (chars : List Char)
deriving DecidableEq

namespace CharSet

def has : CharSet → Char → Bool
  | any, _ => true
  | blank, c => c ∈ [' ', '\t', '\n', '\x0b', '\x0c', '\r']
  | listed negated chars, c => decide (c ∈ chars) != negated

/-- One character alone. -/
def only (c : Char) : CharSet := listed false [c]

@[simp] theorem has_only {c d : Char} : (only c).has d = true ↔ d = c := by
  simp [only, has]

end CharSet

/-- The character that is meant behind a backslash, none if a letter or digit has another
meaning there. -/
def escaped? (c : Char) : Option Char :=
  if c = 't' then some '\t'
  else if c = 'n' then some '\n'
  else if c = 'r' then some '\r'
  else if c = 'f' then some '\x0c'
  else if c.isAlphanum then none
  else some c

/-! ## Tokens -/

inductive Token where
  | one (set : CharSet)
  | start
  | stop
  /-- As often as the lower bound at least, and as the upper one at most. -/
  | times (low : Nat) (high : Option Nat)
  | ahead (negated : Bool)
  | close
deriving DecidableEq

/-- A character that is read as itself. -/
def Token.char (c : Char) : Token := .one (.only c)

/-- What has been read of a token that is not complete. -/
inductive Mode where
  | plain
  /-- Behind a backslash. -/
  | escape
  /-- Behind an opening parenthesis. -/
  | group
  /-- Behind an opening parenthesis and a question mark. -/
  | lookAhead
  /-- Behind an opening bracket. -/
  | bracket
  /-- In a class, behind some members, the last of them first. -/
  | members (negated : Bool) (chars : List Char)
  /-- In a class, behind a backslash. -/
  | member (negated : Bool) (chars : List Char)
  /-- In a repetition, behind digits of the lower bound. -/
  | low (digits : List Char)
  /-- In a repetition, behind the lower bound and digits of the upper one. -/
  | high (low : Nat) (digits : List Char)
deriving DecidableEq

namespace Mode

/-- The token that a character is on its own. -/
def tokenOf (c : Char) : Token :=
  match c with
  | '.' => .one .any
  | '^' => .start
  | '$' => .stop
  | '*' => .times 0 none
  | '+' => .times 1 none
  | '?' => .times 0 (some 1)
  | ')' => .close
  | c => .char c

/-- The next character of a class. A range of characters has no reading. -/
def stepMembers (negated : Bool) (chars : List Char) (c : Char) : Option (List Token × Mode) :=
  if c = '\\' then some ([], member negated chars)
  else if c = ']' then
    if chars.isEmpty then none else some ([.one (.listed negated chars.reverse)], plain)
  else if c ∈ ['-', '[', '^'] then none
  else some ([], members negated (c :: chars))

/-- What the next character completes, and what it leaves incomplete. -/
def step : Mode → Char → Option (List Token × Mode)
  | plain, c =>
    if c = '\\' then some ([], escape)
    else if c = '(' then some ([], group)
    else if c = '[' then some ([], bracket)
    else if c = '\x7b' then some ([], low [])
    else if c = '|' then none
    else some ([tokenOf c], plain)
  | escape, c =>
    if c = 's' then some ([.one .blank], plain)
    else (escaped? c).map fun d => ([.char d], plain)
  | group, c => if c = '?' then some ([], lookAhead) else none
  | lookAhead, c =>
    if c = '=' then some ([.ahead false], plain)
    else if c = '!' then some ([.ahead true], plain)
    else none
  | bracket, c => if c = '^' then some ([], members true []) else stepMembers false [] c
  | members negated chars, c => stepMembers negated chars c
  | member negated chars, c => (escaped? c).map fun d => ([], members negated (d :: chars))
  | low digits, c =>
    if c.isDigit then some ([], low (digits ++ [c]))
    else
      (natural? digits).bind fun n =>
        if c = ',' then some ([], high n [])
        else if c = '\x7d' then some ([.times n (some n)], plain)
        else none
  | high n digits, c =>
    if c.isDigit then some ([], high n (digits ++ [c]))
    else if c = '\x7d' then
      if digits.isEmpty then some ([.times n none], plain)
      else if n ≤ ofDigits digits then some ([.times n (some (ofDigits digits))], plain)
      else none
    else none

end Mode

/-- Reads all tokens of a text, none if the text is not of the notation. -/
def tokens? : Mode → List Char → Option (List Token)
  | .plain, [] => some []
  | _, [] => none
  | mode, c :: rest =>
    (mode.step c).bind fun (found, next) => (tokens? next rest).map (found ++ ·)

/-! ## Regular expressions -/

inductive Regex where
  | empty
  | one (set : CharSet)
  | start
  | stop
  | times (set : CharSet) (low : Nat) (high : Option Nat)
  | ahead (negated : Bool) (inner : Regex)
  | seq (first second : Regex)
deriving DecidableEq

/-- One after the other, the last one given first. -/
def Regex.sequence (items : List Regex) : Regex := items.foldr (fun last r => .seq r last) .empty

/-- What has been read, the last item first, and what stands before each look-ahead that is still
open. -/
structure Reading where
  items : List Regex := []
  outer : List (Bool × List Regex) := []

namespace Reading

/-- Reads one more token. A repetition stands behind a single character, and a look-ahead is
closed once. -/
def take (r : Reading) : Token → Option Reading
  | .one set => some { r with items := .one set :: r.items }
  | .start => some { r with items := .start :: r.items }
  | .stop => some { r with items := .stop :: r.items }
  | .times low high =>
    match r.items with
    | .one set :: items => some { r with items := .times set low high :: items }
    | _ => none
  | .ahead negated => some ⟨[], (negated, r.items) :: r.outer⟩
  | .close =>
    match r.outer with
    | (negated, items) :: outer => some ⟨.ahead negated (.sequence r.items) :: items, outer⟩
    | [] => none

end Reading

namespace Regex

/-- The regular expression that a text stands for. -/
def read? (text : String) : Option Regex := do
  let tokens ← tokens? .plain text.toList
  let r ← tokens.foldlM Reading.take {}
  if r.outer.isEmpty then some (.sequence r.items) else none

/-- The regular expression can take the subject from one of its positions to another. -/
def Goes (subject : List Char) : Regex → Nat → Nat → Prop
  | empty, i, j => j = i
  | one set, i, j => j = i + 1 ∧ ∃ c, subject[i]? = some c ∧ set.has c = true
  | start, i, j => j = i ∧ i = 0
  | stop, i, j => j = i ∧ i = subject.length
  | times set low high, i, j =>
    ∃ n, j = i + n ∧ low ≤ n ∧ (∀ h ∈ high, n ≤ h) ∧
      ∀ k < n, ∃ c, subject[i + k]? = some c ∧ set.has c = true
  | ahead negated inner, i, j => j = i ∧ ((∃ k, Goes subject inner i k) ↔ negated = false)
  | seq first second, i, j => ∃ k, Goes subject first i k ∧ Goes subject second k j

/-- The regular expression matches somewhere in a string. -/
def FoundIn (r : Regex) (subject : List Char) : Prop :=
  ∃ i ≤ subject.length, ∃ j, r.Goes subject i j

end Regex

/-! ## Escaped texts -/

theorem tokens?_cons (mode : Mode) (c : Char) (rest : List Char) :
    tokens? mode (c :: rest) =
      (mode.step c).bind fun (found, next) => (tokens? next rest).map (found ++ ·) := by
  cases mode <;> rfl

/-- A character that ends no token and begins none is one. -/
theorem tokens?_plain {c : Char} (h : c ∉ ['\\', '(', '[', '\x7b', '|']) (rest : List Char) :
    tokens? .plain (c :: rest) = (tokens? .plain rest).map (Mode.tokenOf c :: ·) := by
  simp only [List.mem_cons, List.not_mem_nil, or_false, not_or] at h
  rw [tokens?_cons]
  simp [Mode.step, h]

theorem tokens?_escaped {c d : Char} (hs : c ≠ 's') (h : escaped? c = some d) (rest : List Char) :
    tokens? .plain ('\\' :: c :: rest) = (tokens? .plain rest).map (.char d :: ·) := by
  rw [tokens?_cons]
  simp [Mode.step, tokens?_cons, hs, h, Function.comp_def]

/-- A character without a meaning of its own is read as itself. -/
theorem tokenOf_of_notMem {c : Char} (h : c ∉ metacharacters) : Mode.tokenOf c = .char c := by
  unfold Mode.tokenOf
  split <;> first | rfl | exact absurd (by decide) h

/-- A character is escaped by a backslash before it or before the letter that stands for it, or it
has no meaning of its own. -/
theorem escapeChar_cases (c : Char) :
    (c ∉ metacharacters ∧ escapeChar c = [c]) ∨
      ∃ d, escapeChar c = ['\\', d] ∧ d ≠ 's' ∧ escaped? d = some c := by
  unfold escapeChar
  split_ifs with hmeta ht hn hr hf
  · have hall : metacharacters.all (fun c => c ≠ 's' ∧ escaped? c = some c) = true := by decide
    exact .inr ⟨c, rfl, of_decide_eq_true (List.all_eq_true.1 hall c hmeta)⟩
  · exact .inr ⟨'t', rfl, by decide, ht ▸ rfl⟩
  · exact .inr ⟨'n', rfl, by decide, hn ▸ rfl⟩
  · exact .inr ⟨'r', rfl, by decide, hr ▸ rfl⟩
  · exact .inr ⟨'f', rfl, by decide, hf ▸ rfl⟩
  · exact .inl ⟨hmeta, rfl⟩

/-- An escaped character is read as the character. -/
theorem tokens?_escapeChar (c : Char) (rest : List Char) :
    tokens? .plain (escapeChar c ++ rest) = (tokens? .plain rest).map (.char c :: ·) := by
  rcases escapeChar_cases c with ⟨hmeta, hc⟩ | ⟨d, hc, hs, hd⟩
  · have hplain : c ∉ ['\\', '(', '[', '\x7b', '|'] := by
      intro hmem
      exact hmeta ((by decide : ['\\', '(', '[', '\x7b', '|'] ⊆ metacharacters) hmem)
    rw [hc, List.singleton_append, tokens?_plain hplain, tokenOf_of_notMem hmeta]
  · rw [hc]
    exact tokens?_escaped hs hd rest

/-- An escaped text is read as its characters. -/
theorem tokens?_escape (text rest : List Char) :
    tokens? .plain (text.flatMap escapeChar ++ rest) =
      (tokens? .plain rest).map (text.map Token.char ++ ·) := by
  induction text with
  | nil => simp
  | cons c text ih =>
    rw [List.flatMap_cons, List.append_assoc, tokens?_escapeChar, ih, Option.map_map]
    rfl

/-- The items that the characters of a text are read into. -/
def literalItems (text : List Char) : List Regex := (text.map fun c => .one (.only c)).reverse

theorem foldlM_take_chars (text : List Char) (r : Reading) :
    (text.map Token.char).foldlM Reading.take r =
      some { r with items := literalItems text ++ r.items } := by
  induction text generalizing r with
  | nil => rfl
  | cons c text ih =>
    rw [List.map_cons, List.foldlM_cons]
    change ((text.map Token.char).foldlM Reading.take { r with items := .one (.only c) :: r.items })
      = _
    rw [ih]
    simp [literalItems]

namespace Regex

variable {subject : List Char}

@[simp] theorem goes_sequence_nil {i j : Nat} : (sequence []).Goes subject i j ↔ j = i := Iff.rfl

theorem goes_sequence_cons {r : Regex} {items : List Regex} {i j : Nat} :
    (sequence (r :: items)).Goes subject i j ↔
      ∃ k, (sequence items).Goes subject i k ∧ r.Goes subject k j := Iff.rfl

/-- The characters of a text are matched where the text stands. -/
theorem goes_sequence_append {text : List Char} {items : List Regex} {i j : Nat} :
    (sequence (literalItems text ++ items)).Goes subject i j ↔
      ∃ k, (sequence items).Goes subject i k ∧ text <+: subject.drop k ∧ j = k + text.length := by
  -- The first character goes to the items before the text, so that the others follow it.
  induction text generalizing items with
  | nil => simp [literalItems]
  | cons c text ih =>
    have hitems : literalItems (c :: text) ++ items =
        literalItems text ++ (.one (.only c) :: items) := by
      simp [literalItems]
    rw [hitems, ih]
    constructor
    · intro ⟨k, hk, htext, hj⟩
      obtain ⟨l, hl, rfl, d, hd, hset⟩ := goes_sequence_cons.1 hk
      have hdc : d = c := CharSet.has_only.1 hset
      obtain ⟨hlt, hget⟩ := List.getElem?_eq_some_iff.1 hd
      refine ⟨l, hl, ?_, by simp only [List.length_cons]; omega⟩
      rw [List.drop_eq_getElem_cons hlt, hget, hdc]
      exact List.cons_prefix_cons.2 ⟨rfl, htext⟩
    · intro ⟨l, hl, hprefix, hj⟩
      have hlt : l < subject.length := by
        by_contra hge
        rw [List.drop_eq_nil_of_le (by omega)] at hprefix
        exact absurd (List.prefix_nil.1 hprefix) (by simp)
      rw [List.drop_eq_getElem_cons hlt] at hprefix
      obtain ⟨hc, htext⟩ := List.cons_prefix_cons.1 hprefix
      have hone : (one (.only c)).Goes subject l (l + 1) :=
        ⟨rfl, subject[l], List.getElem?_eq_getElem hlt, CharSet.has_only.2 hc.symm⟩
      refine ⟨l + 1, ⟨l, hl, hone⟩, htext, ?_⟩
      simp only [List.length_cons] at hj
      omega

end Regex
end DocQuery.Pattern
