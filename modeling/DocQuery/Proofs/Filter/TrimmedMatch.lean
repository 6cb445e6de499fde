/-
Texts in strings that are trimmed first.

The pattern for a text in a trimmed string is a sequence of pieces: any characters,
the characters of the text, and what trimming cuts off before and behind
(`unwrap_receiver`). Anchoring works on the text of the pattern. At the start it takes
off a piece of any characters or nothing (`Opens`), which does not change where the
whole pattern matches. At the end it does the same, but for one piece: points that
are cut off are written with the ending of any characters behind a backslash, which
is left alone at the end of the pattern (`suffix_text_iff`). So the anchored pattern
either has no reading or is found in just the strings that the pattern matches as
a whole (`read?_anchor`).
-/
import DocQuery.Proofs.Filter.TextMatch

namespace DocQuery

open DocQuery.Filter

namespace Pattern

/-! ## Pieces -/

/-- A piece of the pattern for a text in a trimmed string. -/
inductive Piece where
  /-- Any characters. -/
  | anything
  /-- A character of the text. -/
  | char (c : Char)
  /-- Characters that trimming cuts off, blanks if none are given. -/
  | cut (chars : List Char)
deriving DecidableEq

/-- The characters that trimming cuts off. -/
def cutSet (chars : List Char) : CharSet := if chars.isEmpty then .blank else .listed false chars

/-- How they are written. -/
def cutText (chars : List Char) : List Char :=
  if chars.isEmpty then ['\\', 's'] else (oneOf chars).toList

theorem readAs_cutText (chars : List Char) : ReadAs (cutText chars) [.one (cutSet chars)] := by
  unfold cutText cutSet
  split
  · exact readAs_blank
  · rename_i hempty
    exact readAs_oneOf (by simpa using hempty)

theorem toList_trimmed (chars : List Char) : (trimmed chars).toList = cutText chars ++ ['*'] := by
  unfold trimmed cutText
  split <;> simp

theorem cutText_ne_nil (chars : List Char) : cutText chars ≠ [] := by
  intro h
  have hread := readAs_cutText chars []
  rw [h] at hread
  simp [tokens?] at hread

/-- A set is written with a point at its end only if it is the point alone. -/
theorem getLast?_cutText (chars : List Char) :
    (cutText chars).getLast? = some '.' ↔ chars = ['.'] := by
  cases chars with
  | nil => decide
  | cons c chars =>
    cases chars with
    | nil =>
      have hone : cutText [c] = classMember c := by simp [cutText, oneOf, classBody]
      rw [hone]
      rcases classMember_cases c with ⟨hmem, hc⟩ | ⟨d, hc, -, hd⟩
      · rw [hc]
        simp
      · rw [hc]
        constructor
        · intro hlast
          obtain rfl : d = '.' := by simpa using hlast
          obtain rfl : '.' = c := Option.some.inj hd
          rfl
        · intro hpoint
          obtain rfl : c = '.' := by simpa using hpoint
          obtain rfl : '.' = d := by simpa [classMember, escapeChar, metacharacters] using hc
          rfl
    | cons d chars =>
      have hclass : cutText (c :: d :: chars) =
          '[' :: (classBody (c :: d :: chars)).toList ++ [']'] := by
        simp [cutText, oneOf]
      rw [hclass, List.getLast?_append]
      simp

namespace Piece

def text : Piece → List Char
  | anything => ['.', '*']
  | char c => escapeChar c
  | cut chars => (trimmed chars).toList

def item : Piece → Regex
  | anything => .times .any 0 none
  | char c => .one (.only c)
  | cut chars => .times (cutSet chars) 0 none

theorem denotes_text (p : Piece) : Denotes p.text [p.item] := by
  cases p with
  | anything => exact .repeated readAs_any readAs_star
  | char c => simpa [text, item] using Denotes.escape [c]
  | cut chars =>
    rw [text, toList_trimmed]
    exact .repeated (readAs_cutText chars) readAs_star

def texts (ps : List Piece) : List Char := ps.flatMap text

theorem texts_append (ps qs : List Piece) : texts (ps ++ qs) = texts ps ++ texts qs :=
  List.flatMap_append

theorem denotes_texts (ps : List Piece) : Denotes (texts ps) (ps.map item) := by
  induction ps with
  | nil => exact .nil
  | cons p ps ih => exact p.denotes_text.append ih

/-! ## Beginnings and endings -/

/-- Only any characters begin with a point. -/
theorem head?_text {p : Piece} (h : p ≠ anything) : ∃ c rest, p.text = c :: rest ∧ c ≠ '.' := by
  have hmember (c : Char) : ∃ d rest, classMember c = d :: rest ∧ d ≠ '.' := by
    rcases classMember_cases c with ⟨hmem, hc⟩ | ⟨d, hc, -, -⟩
    · refine ⟨c, [], hc, ?_⟩
      rintro rfl
      exact hmem (by decide)
    · exact ⟨'\\', [d], hc, by decide⟩
  cases p with
  | anything => exact absurd rfl h
  | char c =>
    have hhead := head?_escape_ne [c]
    rcases escapeChar_cases c with ⟨-, hc⟩ | ⟨d, hc, -, -⟩
    · exact ⟨c, [], hc, by simpa [hc] using hhead⟩
    · exact ⟨'\\', [d], hc, by decide⟩
  | cut chars =>
    rw [text, toList_trimmed]
    cases chars with
    | nil => exact ⟨'\\', ['s', '*'], rfl, by decide⟩
    | cons c chars =>
      cases chars with
      | nil =>
        obtain ⟨d, rest, hc, hd⟩ := hmember c
        exact ⟨d, rest ++ ['*'], by simp [cutText, oneOf, classBody, hc], hd⟩
      | cons d chars => exact ⟨'[', _, by simp [cutText, oneOf]; rfl, by decide⟩

/-- What ends like any characters is any characters, or points that are cut off. -/
theorem suffix_text_iff (front : List Char) (p : Piece) :
    ['.', '*'] <:+ front ++ p.text ↔ p = anything ∨ p = cut ['.'] := by
  cases p with
  | anything => simp [text]
  | char c =>
    simp only [reduceCtorEq, or_self, iff_false]
    intro hsuffix
    obtain ⟨before, hbefore⟩ := hsuffix
    rcases escapeChar_cases c with ⟨hmeta, hc⟩ | ⟨d, hc, -, -⟩
    · have hlast := congrArg List.getLast? hbefore
      obtain rfl : '*' = c := by simpa [text, hc] using hlast
      exact hmeta (by decide)
    · rw [text, hc] at hbefore
      have hslash := (List.append_inj' hbefore rfl).2
      simp at hslash
  | cut chars =>
    have hlast : (front ++ cutText chars).getLast? = (cutText chars).getLast? := by
      rw [List.getLast?_append, List.getLast?_eq_some_getLast (cutText_ne_nil chars),
        Option.some_or]
    rw [text, toList_trimmed, ← List.append_assoc]
    simp only [reduceCtorEq, false_or, cut.injEq]
    rw [← getLast?_cutText, ← hlast, List.getLast?_eq_some_iff]
    constructor
    · intro hsuffix
      obtain ⟨before, hbefore⟩ := hsuffix
      have hboth : (before ++ ['.']) ++ ['*'] = (front ++ cutText chars) ++ ['*'] := by
        simpa using hbefore
      exact ⟨before, (List.append_inj' hboth rfl).1.symm⟩
    · intro hpoint
      obtain ⟨before, hbefore⟩ := hpoint
      exact ⟨before, by simp [hbefore]⟩

/-! ## Anchors -/

variable {ps rest : List Piece} {front : List Char} {lead : List Regex}

/-- What stands at the start of an anchored pattern, how it is read, and the pieces that follow:
nothing for any characters, and the anchor for all else. -/
inductive Opens : List Piece → List Char → List Regex → List Piece → Prop
  | anything (rest : List Piece) : Opens (anything :: rest) [] [] rest
  | other {ps : List Piece} (h : ps.head? ≠ some anything) : Opens ps ['^'] [.start] ps

theorem exists_opens (ps : List Piece) : ∃ front lead rest, Opens ps front lead rest := by
  by_cases h : ps.head? = some anything
  · obtain ⟨rest, rfl⟩ := List.head?_eq_some_iff.1 h
    exact ⟨_, _, _, .anything rest⟩
  · exact ⟨_, _, _, .other h⟩

theorem Opens.denotes (h : Opens ps front lead rest) : Denotes front lead := by
  cases h with
  | anything => exact .nil
  | other => exact .start

theorem Opens.dropStart (h : Opens ps front lead rest) :
    dropStart ['^', '.', '*'] ('^' :: texts ps ++ ['$']) = front ++ texts rest ++ ['$'] := by
  cases h with
  | anything => exact dropStart_append ['^', '.', '*'] (texts rest ++ ['$'])
  | other hhead =>
    refine dropStart_of_not ?_
    intro hprefix
    cases ps with
    | nil => simp [texts] at hprefix
    | cons p ps =>
      have hp : p ≠ Piece.anything := by simpa using hhead
      obtain ⟨c, more, hc, hne⟩ := head?_text hp
      simp only [texts, List.flatMap_cons, hc, List.cons_append, List.cons_prefix_cons] at hprefix
      exact hne hprefix.2.1.symm

/-- Without the anchor, any characters may stand before the match, as they may in the pattern. -/
theorem Opens.runs_iff (h : Opens ps front lead rest) (subject : List Char) (more : List Regex)
    (j : Nat) :
    (∃ i ≤ subject.length, Regex.Runs subject (lead ++ (rest.map item ++ more)) i j) ↔
      Regex.Runs subject (ps.map item ++ more) 0 j := by
  cases h with
  | anything =>
    simp only [List.nil_append, List.map_cons, List.cons_append, Regex.Runs, item,
      Regex.goes_times_any]
    constructor
    · intro hruns
      obtain ⟨i, hi, hruns⟩ := hruns
      exact ⟨i, by simp [hi], hruns⟩
    · intro hruns
      obtain ⟨i, ⟨-, -, hi⟩, hruns⟩ := hruns
      exact ⟨i, by omega, hruns⟩
  | other =>
    constructor
    · intro hruns
      obtain ⟨i, -, k, ⟨rfl, rfl⟩, hruns⟩ := hruns
      exact hruns
    · intro hruns
      exact ⟨0, Nat.zero_le _, 0, ⟨rfl, rfl⟩, hruns⟩

/-- At the end, a piece that is not written like any characters keeps the anchor behind it. -/
theorem dropEnd_of_last (front : List Char) (h : rest.getLast? ≠ some anything)
    (hcut : rest.getLast? ≠ some (cut ['.'])) (hfront : front = [] ∨ front = ['^']) :
    dropEnd ['.', '*', '$'] (front ++ texts rest ++ ['$']) = front ++ texts rest ++ ['$'] := by
  refine dropEnd_of_not ?_
  intro hsuffix
  obtain ⟨before, hbefore⟩ := hsuffix
  have hboth : (before ++ ['.', '*']) ++ ['$'] = (front ++ texts rest) ++ ['$'] := by
    simpa using hbefore
  have hend : ['.', '*'] <:+ front ++ texts rest := ⟨before, (List.append_inj' hboth rfl).1⟩
  obtain rfl | ⟨body, p, rfl⟩ := List.eq_nil_or_concat rest
  · have hlength := hend.length_le
    rcases hfront with rfl | rfl <;> simp [texts] at hlength
  · have hlast : front ++ texts (body.concat p) = (front ++ texts body) ++ p.text := by
      simp [texts]
    rw [hlast, suffix_text_iff] at hend
    rcases hend with rfl | rfl
    · exact h (by simp)
    · exact hcut (by simp)

theorem Opens.front_eq (h : Opens ps front lead rest) : front = [] ∨ front = ['^'] := by
  cases h with
  | anything => exact .inl rfl
  | other => exact .inr rfl

theorem Opens.getLast?_eq_cut (h : Opens ps front lead rest) {chars : List Char} :
    ps.getLast? = some (cut chars) ↔ rest.getLast? = some (cut chars) := by
  cases h with
  | anything => cases rest <;> simp [List.getLast?_cons]
  | other => exact Iff.rfl

/-- **Anchoring a pattern of pieces.** If points are cut off at its end, the anchored pattern ends
in a backslash and has no reading. Any other one has a reading that is found in the strings that
the pattern matches as a whole. -/
theorem read?_anchor {pattern : String} (h : pattern.toList = texts ps) :
    (ps.getLast? = some (cut ['.']) → Regex.read? (anchor pattern) = none) ∧
    (ps.getLast? ≠ some (cut ['.']) → ∃ r, Regex.read? (anchor pattern) = some r ∧
      ∀ subject, r.FoundIn subject ↔ Regex.Runs subject (ps.map item) 0 subject.length) := by
  obtain ⟨front, lead, rest, hopens⟩ := exists_opens ps
  have hanchor : (anchor pattern).toList =
      dropEnd ['.', '*', '$'] (front ++ texts rest ++ ['$']) := by
    rw [anchor, h, hopens.dropStart, String.toList_ofList]
  constructor
  · intro hcut
    obtain ⟨body, rfl⟩ := List.getLast?_eq_some_iff.1 (hopens.getLast?_eq_cut.1 hcut)
    have hend : front ++ texts (body ++ [cut ['.']]) ++ ['$'] =
        (front ++ texts body ++ ['\\']) ++ ['.', '*', '$'] := by
      have hpoint : (cut ['.']).text = ['\\', '.', '*'] := by decide
      simp [texts, hpoint]
    rw [hend, dropEnd_append] at hanchor
    exact (hopens.denotes.append (denotes_texts body)).read?_eq_none rfl hanchor
  · intro hcut
    have hcut : rest.getLast? ≠ some (cut ['.']) := fun hrest =>
      hcut (hopens.getLast?_eq_cut.2 hrest)
    by_cases hany : rest.getLast? = some anything
    · obtain ⟨body, rfl⟩ := List.getLast?_eq_some_iff.1 hany
      have hend : front ++ texts (body ++ [anything]) ++ ['$'] =
          (front ++ texts body) ++ ['.', '*', '$'] := by
        simp [texts, text]
      rw [hend, dropEnd_append] at hanchor
      have hdenotes : Denotes (anchor pattern).toList (lead ++ body.map item) :=
        hanchor ▸ hopens.denotes.append (denotes_texts body)
      refine ⟨_, hdenotes.read?, fun subject => ?_⟩
      have hruns (i : Nat) (hi : i ≤ subject.length) :
          Regex.Runs subject (lead ++ ((body ++ [anything]).map item ++ [])) i subject.length ↔
            ∃ j, Regex.Runs subject (lead ++ body.map item) i j := by
        have hbody : Regex.Runs subject (lead ++ body.map item ++ [.times .any 0 none]) i
            subject.length ↔ ∃ j, Regex.Runs subject (lead ++ body.map item) i j :=
          Regex.runs_any_length hi
        simpa [item] using hbody
      rw [Regex.foundIn_sequence, ← List.append_nil (ps.map item), ← hopens.runs_iff]
      exact exists_congr fun i => and_congr_right fun hi => (hruns i hi).symm
    · rw [dropEnd_of_last front hany hcut hopens.front_eq] at hanchor
      have hdenotes : Denotes (anchor pattern).toList (lead ++ rest.map item ++ [.stop]) :=
        hanchor ▸ (hopens.denotes.append (denotes_texts rest)).append .stop
      refine ⟨_, hdenotes.read?, fun subject => ?_⟩
      have hruns := hopens.runs_iff subject [.stop]
      rw [Regex.foundIn_sequence, ← Regex.exists_runs_stop, List.append_assoc]
      constructor
      · intro hfound
        obtain ⟨i, hi, j, hruns'⟩ := hfound
        exact ⟨j, (hruns j).1 ⟨i, hi, hruns'⟩⟩
      · intro hwhole
        obtain ⟨j, hwhole⟩ := hwhole
        obtain ⟨i, hi, hruns'⟩ := (hruns j).2 hwhole
        exact ⟨i, hi, j, hruns'⟩

end Piece
end Pattern

/-! ## Trimmed strings -/

/-- The pieces of the pattern for a text at a place. -/
def TextPlace.pieces (place : TextPlace) (text : List Char) : List Pattern.Piece :=
  match place with
  | anywhere => [.anything] ++ text.map .char ++ [.anything]
  | atStart => text.map .char ++ [.anything]
  | atEnd => [.anything] ++ text.map .char

theorem TextPlace.toList_pattern (place : TextPlace) (text : String) :
    (place.pattern text).toList = Pattern.Piece.texts (place.pieces text.toList) := by
  have htext : Pattern.Piece.texts (text.toList.map .char) =
      text.toList.flatMap Pattern.escapeChar := by
    simp [Pattern.Piece.texts, Pattern.Piece.text, List.flatMap_map]
  cases place <;>
    simp [pattern, pieces, Pattern.Piece.texts_append, htext, Pattern.escape] <;>
    simp [Pattern.Piece.texts, Pattern.Piece.text, List.flatMap_map]

/-- No trimming stands at the end of the pattern itself. -/
theorem TextPlace.getLast?_pieces (place : TextPlace) (text chars : List Char) :
    (place.pieces text).getLast? ≠ some (.cut chars) := by
  intro hlast
  have hmem := List.mem_of_getLast? hlast
  cases place <;> simp [pieces] at hmem

/-- A call that trims a string, with the characters that it cuts off. -/
structure Trim (s : Scope) where
  side : TrimSide
  args : List Expr
  chars : List Char
  known : StringMatch.trimChars? args = some chars
  check : ∀ arg ∈ args, s.check arg = .ok ()

namespace Trim

variable {s : Scope}

def method (t : Trim s) : String :=
  match t.side with
  | .both => "Trim"
  | .start => "TrimStart"
  | .stop => "TrimEnd"

def applied (t : Trim s) (e : Expr) : Expr := .call e t.method t.args

/-- A string that is trimmed again and again, the last time first. -/
def receiver (trims : List (Trim s)) (e : Expr) : Expr := trims.foldr applied e

/-- The pieces of a pattern for the string before it was trimmed. -/
def around (t : Trim s) (ps : List Pattern.Piece) : List Pattern.Piece :=
  (if t.side = .stop then [] else [.cut t.chars]) ++ ps ++
    (if t.side = .start then [] else [.cut t.chars])

/-- The characters that are cut off at the end of the stored string first of all. -/
def lastAtEnd? : List (Trim s) → Option (List Char)
  | [] => none
  | t :: trims => (lastAtEnd? trims).or (if t.side = .start then none else some t.chars)

theorem ofMethod?_method (t : Trim s) :
    TrimSide.ofMethod? t.method = some t.side ∧ LetterCase.ofMethod? t.method = none := by
  cases hside : t.side <;> simp [method, hside, TrimSide.ofMethod?, LetterCase.ofMethod?]

/-- An argument of a trim call is known, and so it is no lambda. -/
theorem asLambda?_of_mem (t : Trim s) {arg : Expr} (h : arg ∈ t.args) : arg.asLambda? = none := by
  have hknown := t.known
  cases hargs : t.args with
  | nil => simp [hargs] at h
  | cons first rest =>
    cases rest with
    | nil =>
      obtain rfl : arg = first := by simpa [hargs] using h
      simp only [hargs, StringMatch.trimChars?, Option.bind_eq_some_iff] at hknown
      obtain ⟨l, hl, -⟩ := hknown
      exact Expr.asLambda?_of_known? hl
    | cons second rest => simp [hargs, StringMatch.trimChars?] at hknown

theorem check_receiver (trims : List (Trim s)) {e : Expr} (h : s.check e = .ok ()) :
    s.check (receiver trims e) = .ok () := by
  induction trims with
  | nil => exact h
  | cons t trims ih =>
    change s.check (.call (receiver trims e) t.method t.args) = .ok ()
    simp only [Scope.check, ih, Scope.checkArgs_eq_ok (fun _ => t.asLambda?_of_mem) t.check]
    rfl

theorem isString_receiver (schema : Schema) (trims : List (Trim s)) {e : Expr}
    (h : (schema.typeOf e).isString = true) :
    (schema.typeOf (receiver trims e)).isString = true := by
  cases trims with
  | nil => exact h
  | cons t trims =>
    change (schema.typeOf (.call (receiver trims e) t.method t.args)).isString = true
    cases hside : t.side <;> simp [Schema.typeOf, method, hside, Typing.callType,
      Typing.booleanMethods, Typing.int32Methods, Typing.stringMethods, ValueType.isString,
      ValueType.underlying]

/-- One trim call puts what it cuts off around the pattern. -/
theorem toList_untrim (t : Trim s) {m : StringMatch} {ps : List Pattern.Piece}
    (h : m.pattern.toList = Pattern.Piece.texts ps) (inner : Expr) :
    (m.untrim t.side t.chars inner).pattern.toList = Pattern.Piece.texts (t.around ps) := by
  cases hside : t.side <;>
    simp [StringMatch.untrim, around, hside, Pattern.Piece.texts_append, h] <;>
    simp [Pattern.Piece.texts, Pattern.Piece.text]

/-- **The pattern for a trimmed string.** Going from the receiver to the stored string, every trim
call puts its piece around the pattern. -/
theorem unwrap_receiver {schema : Schema} {e : Expr} {f : FieldPath}
    (hf : schema.fieldPath? e = .ok (some f)) (trims : List (Trim s)) {m : StringMatch}
    (hm : m.receiver = receiver trims e) {ps : List Pattern.Piece}
    (hps : m.pattern.toList = Pattern.Piece.texts ps) :
    ∃ pattern : String,
      (∀ node, m.unwrap node (receiver trims e) = .ok ⟨e, pattern, m.ignoreCase⟩) ∧
        pattern.toList = Pattern.Piece.texts (trims.foldl (fun ps t => t.around ps) ps) := by
  induction trims generalizing m ps with
  | nil =>
    refine ⟨m.pattern, fun node => ?_, hps⟩
    have hreceiver : m.receiver = e := hm
    rw [← hreceiver]
    exact StringMatch.unwrap_of_fieldPath? m node (hreceiver ▸ hf)
  | cons t trims ih =>
    obtain ⟨hside, hcase⟩ := t.ofMethod?_method
    have hstep (node : Expr) : m.unwrap node (receiver (t :: trims) e) =
        (m.untrim t.side t.chars (receiver trims e)).unwrap node (receiver trims e) := by
      change m.unwrap node (.call (receiver trims e) t.method t.args) = _
      rw [StringMatch.unwrap]
      simp only [hcase, hside, t.known, Option.isSome_none, Bool.and_false, Bool.false_eq_true,
        if_false]
    simp only [hstep]
    exact ih rfl (t.toList_untrim hps _)

theorem getLast?_around (t : Trim s) {ps : List Pattern.Piece} (h : ps ≠ []) :
    (t.around ps).getLast? =
      (if t.side = .start then none else some (.cut t.chars)).or ps.getLast? := by
  have hlast := List.getLast?_eq_some_getLast h
  rw [around, List.getLast?_append, List.getLast?_append, hlast]
  cases t.side <;> simp

/-- The pattern ends in what is cut off at the end of the stored string. -/
theorem getLast?_foldl_around (trims : List (Trim s)) {ps : List Pattern.Piece} (h : ps ≠ []) :
    (trims.foldl (fun ps t => t.around ps) ps).getLast? =
      ((lastAtEnd? trims).map .cut).or ps.getLast? := by
  induction trims generalizing ps with
  | nil => rfl
  | cons t trims ih =>
    have hne : t.around ps ≠ [] := by simp [around, h]
    rw [List.foldl_cons, ih hne, t.getLast?_around h, lastAtEnd?]
    cases lastAtEnd? trims <;> cases hside : t.side <;> simp

end Trim

namespace Mapping

variable {m : Mapping} {e : Expr} {f : FieldPath} {p : Param}

/-- **Texts in trimmed strings.** A stored string is trimmed, at both ends or at one, any number of
times, and then asked to contain, begin with or end with a text. The pattern that is put together
for it has a reading. Anchored, it has none if the last thing that is cut off at the end are points
alone; in every other case the anchored pattern has a reading, and this is found in just the strings
that the pattern matches as a whole. -/
theorem filter_trimmed (hf : m.schema.fieldPath? e = .ok (some f)) (hp : f.param = p.name)
    (hstring : (m.schema.typeOf e).isString = true) (place : TextPlace) (text : String)
    (type : ValueType) (trims : List (Trim (.root p.name))) :
    ∃ pattern whole,
      (∀ node, (StringMatch.mk (Trim.receiver trims e) (place.pattern text) false).unwrap node
        (Trim.receiver trims e) = .ok ⟨e, pattern, false⟩) ∧
      m.filter (.lambda [p]
          (.call (Trim.receiver trims e) place.method [.literal ⟨.string text, type⟩])) =
        .ok [(f.dotted, .regex (Pattern.anchor pattern) "s")] ∧
      Pattern.Regex.read? pattern = some whole ∧
      (Trim.lastAtEnd? trims = some ['.'] →
        Pattern.Regex.read? (Pattern.anchor pattern) = none) ∧
      (Trim.lastAtEnd? trims ≠ some ['.'] →
        ∃ r, Pattern.Regex.read? (Pattern.anchor pattern) = some r ∧
          ∀ subject : String, r.FoundIn subject.toList ↔
            whole.Goes subject.toList 0 subject.toList.length) := by
  let ps := trims.foldl (fun ps t => t.around ps) (place.pieces text.toList)
  obtain ⟨pattern, hunwrap, hpattern⟩ : ∃ pattern : String,
      (∀ node, (StringMatch.mk (Trim.receiver trims e) (place.pattern text) false).unwrap node
        (Trim.receiver trims e) = .ok ⟨e, pattern, false⟩) ∧
        pattern.toList = Pattern.Piece.texts ps :=
    Trim.unwrap_receiver hf trims rfl (place.toList_pattern text)
  have hread : Pattern.Regex.read? pattern = some (.sequence (ps.map Pattern.Piece.item).reverse) :=
    Pattern.Denotes.read? (hpattern ▸ Pattern.Piece.denotes_texts ps)
  have hlast : ps.getLast? = some (.cut ['.']) ↔ Trim.lastAtEnd? trims = some ['.'] := by
    have hne : place.pieces text.toList ≠ [] := by cases place <;> simp [TextPlace.pieces]
    have hnot := place.getLast?_pieces text.toList ['.']
    rw [Trim.getLast?_foldl_around trims hne]
    cases Trim.lastAtEnd? trims with
    | none => simpa using hnot
    | some chars => simp
  obtain ⟨hnone, hsome⟩ := Pattern.Piece.read?_anchor hpattern
  refine ⟨pattern, _, hunwrap, ?_, hread, fun h => hnone (hlast.2 h), fun h => ?_⟩
  · have hcheck : (Scope.root p.name).check
        (.call (Trim.receiver trims e) place.method [.literal ⟨.string text, type⟩]) = .ok () := by
      have he := Scope.check_of_fieldPath? hf (isForeign_root p.name f.param)
      simp only [Scope.check, Scope.checkArgs, Trim.check_receiver trims he]
      rfl
    rw [filter_of_check hcheck, filterOf_textCall (Trim.isString_receiver m.schema trims hstring)]
    exact stringMatch_of_unwrap hf hp type (hunwrap _)
  · obtain ⟨r, hr, hfound⟩ := hsome fun hcut => h (hlast.1 hcut)
    refine ⟨r, hr, fun subject => ?_⟩
    rw [hfound, Pattern.Regex.goes_sequence_reverse]

/-- Trims the characters of a literal. -/
def trimOff (side : TrimSide) (l : Literal) (chars : List Char) (h : l.chars? = some chars) :
    Trim (.root "x") where
  side := side
  args := [.literal l]
  chars := chars
  known := h
  check := by simp [Scope.check]

/-- First points or stars are cut off at the end, then points at both ends. -/
def pointsAndStars : List (Trim (.root "x")) :=
  [trimOff .both ⟨.string ".", .char⟩ ['.'] rfl,
    trimOff .stop ⟨.array [.string ".", .string "*"], .array .char⟩ ['.', '*'] rfl]

/-- A line that is trimmed and asked to end with a star. -/
theorem filter_trimmed_pointsAndStars :
    Trim.lastAtEnd? pointsAndStars ≠ some ['.'] ∧
    ∃ pattern whole r,
      linesMapping.filter (.lambda [⟨"x", .document "Root"⟩]
          (.call (Trim.receiver pointsAndStars secondLine) "EndsWith"
            [.literal ⟨.string "*", .string⟩])) =
        .ok [("lines.1", .regex (Pattern.anchor pattern) "s")] ∧
      Pattern.Regex.read? pattern = some whole ∧
      Pattern.Regex.read? (Pattern.anchor pattern) = some r ∧
      ∀ subject : String, r.FoundIn subject.toList ↔
        whole.Goes subject.toList 0 subject.toList.length := by
  have hlast : Trim.lastAtEnd? pointsAndStars ≠ some ['.'] := by decide
  obtain ⟨pattern, whole, -, hfilter, hwhole, -, hanchor⟩ :=
    filter_trimmed (m := linesMapping) (e := secondLine) (p := ⟨"x", .document "Root"⟩)
      (f := ⟨"x", ["lines", "1"], .string, .natural, true⟩) rfl rfl rfl .atEnd "*" .string
      pointsAndStars
  obtain ⟨r, hr, hfound⟩ := hanchor hlast
  exact ⟨hlast, pattern, whole, r, hfilter, hwhole, hr, hfound⟩

/-- A line from which points are cut off at the end: of the pattern `.*a\\.*`, anchoring keeps the
letter and the backslash. -/
theorem filter_trimmed_points :
    linesMapping.filter (.lambda [⟨"x", .document "Root"⟩]
        (.call (.call secondLine "TrimEnd" [.literal ⟨.string ".", .char⟩]) "EndsWith"
          [.literal ⟨.string "a", .string⟩])) =
      .ok [("lines.1", .regex "a\\" "s")] ∧
    Pattern.Regex.read? "a\\" = none :=
  ⟨rfl, rfl⟩

end Mapping
end DocQuery
