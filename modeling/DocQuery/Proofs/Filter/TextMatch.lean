/-
Strings that contain, begin with or end with a text.

The filter has a pattern that is put together as a text and then loses the anchors
it does not need. What is taken off at its ends has been put there around the
escaped text and is no part of it (`anchor_pattern`), so that the pattern, read as
a regular expression, is found in just the strings that have the text at the place
(`foundIn_place`).
-/
import DocQuery.Proofs.Filter.Connectives
import DocQuery.Proofs.Pattern.Notation
import DocQuery.Proofs.Scope.Stored

namespace DocQuery

open DocQuery.Filter

/-! ## Places of a text -/

namespace TextPlace

/-- The call that asks for a text at a place. -/
def method : TextPlace → String
  | anywhere => "Contains"
  | atStart => "StartsWith"
  | atEnd => "EndsWith"

/-- A string has a text at a place. -/
def Holds (place : TextPlace) (text subject : List Char) : Prop :=
  match place with
  | anywhere => text <:+: subject
  | atStart => text <+: subject
  | atEnd => text <:+ subject

end TextPlace

/-! ## Anchors -/

namespace Pattern

variable {part text : List Char}

theorem dropStart_append (part text : List Char) : dropStart part (part ++ text) = text := by
  rw [dropStart, List.isPrefixOf?_eq_some_iff_append_eq.2 rfl, Option.getD_some]

theorem dropStart_of_not (h : ¬ part <+: text) : dropStart part text = text := by
  unfold dropStart
  cases hdrop : part.isPrefixOf? text with
  | none => rfl
  | some rest => exact absurd ⟨rest, List.append_eq_of_isPrefixOf?_eq_some hdrop⟩ h

theorem dropEnd_append (part text : List Char) : dropEnd part (text ++ part) = text := by
  rw [dropEnd, List.isSuffixOf?_eq_some_iff_append_eq.2 rfl, Option.getD_some]

theorem dropEnd_of_not (h : ¬ part <:+ text) : dropEnd part text = text := by
  unfold dropEnd
  cases hdrop : part.isSuffixOf? text with
  | none => rfl
  | some rest => exact absurd ⟨rest, List.append_eq_of_isSuffixOf?_eq_some hdrop⟩ h

/-- An escaped text does not begin with a point. -/
theorem head?_escape_ne (text : List Char) : (text.flatMap escapeChar).head? ≠ some '.' := by
  cases text with
  | nil => simp
  | cons c text =>
    rcases escapeChar_cases c with ⟨hmeta, hc⟩ | ⟨d, hc, -, -⟩
    · have hdot : c ≠ '.' := by
        intro h
        exact hmeta (h ▸ by decide)
      simpa [hc] using hdot
    · simp [hc]

/-- A star at the end of an escaped text has a backslash before it. -/
theorem not_suffix_escape (text : List Char) : ¬ ['.', '*'] <:+ text.flatMap escapeChar := by
  intro hsuffix
  obtain rfl | ⟨text, c, rfl⟩ := List.eq_nil_or_concat text
  · simp at hsuffix
  obtain ⟨front, hfront⟩ := hsuffix
  simp only [List.concat_eq_append, List.flatMap_append, List.flatMap_singleton] at hfront
  rcases escapeChar_cases c with ⟨hmeta, hc⟩ | ⟨d, hc, -, -⟩
  · have hlast : c = '*' := by
      have hboth := congrArg List.getLast? hfront
      simpa [hc, eq_comm] using hboth
    exact hmeta (hlast ▸ by decide)
  · have hsplit : (front ++ ['.', '*']) = (text.flatMap escapeChar ++ ['\\', d]) := by
      rw [hfront, hc]
    have hdot := (List.append_inj' hsplit rfl).2
    simp at hdot

/-- The anchored pattern for an escaped text at a place. -/
def anchored (place : TextPlace) (text : List Char) : List Char :=
  match place with
  | .anywhere => text.flatMap escapeChar
  | .atStart => if text.isEmpty then ['$'] else '^' :: text.flatMap escapeChar
  | .atEnd => text.flatMap escapeChar ++ ['$']

theorem anchor_eq {pattern : String} {whole : List Char}
    (h : '^' :: pattern.toList ++ ['$'] = whole) :
    anchor pattern =
      String.ofList (dropEnd ['.', '*', '$'] (dropStart ['^', '.', '*'] whole)) := by
  rw [← h]
  rfl

/-- What anchoring takes off has been put around the escaped text. -/
theorem anchor_pattern (place : TextPlace) (text : String) :
    anchor (place.pattern text) = String.ofList (anchored place text.toList) := by
  have hnil : ".*".toList = ['.', '*'] := rfl
  cases place with
  | anywhere =>
    have hwhole : '^' :: (TextPlace.anywhere.pattern text).toList ++ ['$'] =
        ['^', '.', '*'] ++ (text.toList.flatMap escapeChar ++ ['.', '*', '$']) := by
      simp [TextPlace.pattern, escape, hnil]
    rw [anchor_eq hwhole, dropStart_append, dropEnd_append]
    rfl
  | atStart =>
    have hwhole : '^' :: (TextPlace.atStart.pattern text).toList ++ ['$'] =
        ('^' :: text.toList.flatMap escapeChar) ++ ['.', '*', '$'] := by
      simp [TextPlace.pattern, escape, hnil]
    rw [anchor_eq hwhole]
    cases htext : text.toList with
    | nil =>
      -- Nothing stands between the anchor and the arbitrary characters: it is taken off with them.
      decide
    | cons c rest =>
      have hkeep : ¬ ['^', '.', '*'] <+:
          ('^' :: (c :: rest).flatMap escapeChar) ++ ['.', '*', '$'] := by
        intro hprefix
        have hhead := head?_escape_ne (c :: rest)
        rcases escapeChar_cases c with ⟨-, hc⟩ | ⟨d, hc, -, -⟩ <;> simp [hc] at hprefix hhead
        exact hhead hprefix.1.symm
      rw [dropStart_of_not hkeep, dropEnd_append]
      rfl
  | atEnd =>
    have hwhole : '^' :: (TextPlace.atEnd.pattern text).toList ++ ['$'] =
        ['^', '.', '*'] ++ (text.toList.flatMap escapeChar ++ ['$']) := by
      simp [TextPlace.pattern, escape, hnil]
    have hkeep : ¬ ['.', '*', '$'] <:+ text.toList.flatMap escapeChar ++ ['$'] := by
      intro ⟨front, hfront⟩
      have hboth : (front ++ ['.', '*']) ++ ['$'] = text.toList.flatMap escapeChar ++ ['$'] := by
        simpa using hfront
      exact not_suffix_escape text.toList ⟨front, (List.append_inj' hboth rfl).1⟩
    rw [anchor_eq hwhole, dropStart_append, dropEnd_of_not hkeep]
    rfl

/-! ## Reading the pattern -/

/-- The items of the pattern for a text at a place. -/
def placeItems (place : TextPlace) (text : List Char) : List Regex :=
  match place with
  | .anywhere => literalItems text
  | .atStart => if text.isEmpty then [.stop] else literalItems text ++ [.start]
  | .atEnd => .stop :: literalItems text

theorem read?_anchored (place : TextPlace) (text : List Char) :
    Regex.read? (String.ofList (anchored place text)) =
      some (.sequence (placeItems place text)) := by
  have htext (rest : List Char) := tokens?_escape text rest
  unfold Regex.read?
  rw [String.toList_ofList]
  cases place with
  | anywhere =>
    have htokens : tokens? .plain (anchored .anywhere text) = some (text.map Token.char) := by
      simpa [anchored, tokens?] using htext []
    rw [htokens]
    simp [foldlM_take_chars, placeItems]
  | atStart =>
    by_cases hempty : text = []
    · subst hempty
      rfl
    · have htokens : tokens? .plain (anchored .atStart text) =
          some (.start :: text.map Token.char) := by
        have hnil := htext []
        rw [List.append_nil] at hnil
        simp [anchored, hempty, tokens?_plain, hnil, tokens?, Mode.tokenOf]
      rw [htokens]
      simp [foldlM_take_chars, placeItems, hempty, Reading.take]
  | atEnd =>
    have htokens : tokens? .plain (anchored .atEnd text) =
        some (text.map Token.char ++ [.stop]) := by
      rw [anchored, htext]
      rfl
    rw [htokens]
    simp [List.foldlM_append, foldlM_take_chars, placeItems, Reading.take]

/-! ## Strings that the pattern is found in -/

variable {subject : List Char}

theorem isInfix_iff_drop : text <:+: subject ↔ ∃ i ≤ subject.length, text <+: subject.drop i := by
  constructor
  · intro ⟨front, rest, h⟩
    refine ⟨front.length, by simp [← h], ?_⟩
    rw [← h, List.append_assoc, List.drop_left]
    exact List.prefix_append text rest
  · intro ⟨i, _, h⟩
    exact h.isInfix.trans (List.drop_suffix i subject).isInfix

theorem isSuffix_iff_drop :
    text <:+ subject ↔ ∃ i ≤ subject.length, text <+: subject.drop i ∧
      i + text.length = subject.length := by
  constructor
  · intro ⟨front, h⟩
    refine ⟨front.length, by simp [← h], ?_, by simp [← h]⟩
    rw [← h, List.drop_left]
  · intro ⟨i, hi, h, hlength⟩
    have hwhole : text = subject.drop i := h.eq_of_length (by simp; omega)
    exact hwhole ▸ List.drop_suffix i subject

/-- The pattern for a text at a place is found in the strings that have it there. -/
theorem foundIn_place (place : TextPlace) (text subject : List Char) :
    (Regex.sequence (placeItems place text)).FoundIn subject ↔ place.Holds text subject := by
  have hgoes (items : List Regex) (i j : Nat) :
      (Regex.sequence (literalItems text ++ items)).Goes subject i j ↔
        ∃ k, (Regex.sequence items).Goes subject i k ∧ text <+: subject.drop k ∧
          j = k + text.length := Regex.goes_sequence_append
  unfold Regex.FoundIn
  cases place with
  | anywhere =>
    have hnil := hgoes []
    simp only [List.append_nil, Regex.goes_sequence_nil] at hnil
    simp [placeItems, hnil, TextPlace.Holds, isInfix_iff_drop]
  | atStart =>
    by_cases hempty : text = []
    · subst hempty
      have hstop : (Regex.sequence [.stop]).Goes subject subject.length subject.length :=
        ⟨_, rfl, rfl, rfl⟩
      exact ⟨fun _ => List.nil_prefix, fun _ => ⟨_, le_rfl, _, hstop⟩⟩
    · simp [placeItems, hempty, hgoes, Regex.goes_sequence_cons, Regex.Goes, TextPlace.Holds]
  | atEnd =>
    have hnil := hgoes []
    simp only [List.append_nil, Regex.goes_sequence_nil] at hnil
    simp only [placeItems, Regex.goes_sequence_cons, Regex.Goes, hnil, TextPlace.Holds,
      isSuffix_iff_drop]
    constructor
    · intro hfound
      obtain ⟨i, hi, j, k, ⟨l, hl, htext, hk⟩, _, hend⟩ := hfound
      exact ⟨l, hl ▸ hi, htext, hk ▸ hend⟩
    · intro hends
      obtain ⟨i, hi, htext, hend⟩ := hends
      exact ⟨i, hi, _, _, ⟨i, rfl, htext, rfl⟩, rfl, hend⟩

end Pattern

/-! ## Filters -/

/-- A call that reads a stored place is one of three. -/
theorem Schema.method_of_fieldPath? {s : Schema} {target : Expr} {method : String}
    {args : List Expr} {f : FieldPath}
    (h : s.fieldPath? (.call target method args) = .ok (some f)) :
    method = "ElementAt" ∨ method = "OfType" ∨ method = "Select" := by
  match args with
  | [] => cases h
  | _ :: _ :: _ => cases h
  | [arg] =>
    by_contra hmethod
    simp only [not_or] at hmethod
    simp [fieldPath?, hmethod, pure, Except.pure] at h

/-- What reads a stored place is neither trimmed nor put in another case. -/
theorem StringMatch.unwrap_of_fieldPath? {s : Schema} {e : Expr} {f : FieldPath}
    (sought : StringMatch) (node : Expr) (h : s.fieldPath? e = .ok (some f)) :
    sought.unwrap node e = .ok sought := by
  have htrim {target : Expr} {method : String} {args : List Expr}
      (h : s.fieldPath? (.call target method args) = .ok (some f)) :
      TrimSide.ofMethod? method = none := by
    rcases Schema.method_of_fieldPath? h with rfl | rfl | rfl <;> rfl
  fun_induction StringMatch.unwrap sought node e with
  | case1 sought inner ih =>
    rw [Schema.fieldPath?] at h
    exact ih h
  | case2 sought operand type ih =>
    rw [Schema.fieldPath?] at h
    exact ih h
  | case3 sought inner method args hcase _ =>
    simp only [Bool.and_eq_true, List.isEmpty_iff] at hcase
    rw [hcase.1] at h
    cases h
  | case4 sought inner method args _ side hside _ _ _ => cases (htrim h).symm.trans hside
  | case5 sought inner method args _ side hside _ => cases (htrim h).symm.trans hside
  | case6 => rfl
  | case7 => rfl

namespace Mapping

variable {m : Mapping} {e : Expr} {f : FieldPath} {p : Param}

theorem target_of_fieldPath? (hf : m.schema.fieldPath? e = .ok (some f)) (hp : f.param = p.name) :
    m.target e (.root p.name) = .ok ⟨f.path, f.type, f.representation⟩ :=
  target_root_eq_ok.2 ⟨f, hf, hp, rfl⟩

/-- A call for a text at a place is a match of its receiver. -/
theorem filterOf_textCall {e : Expr} (hstring : (m.schema.typeOf e).isString = true)
    (place : TextPlace) (needle : Expr) (s : Scope) :
    m.filterOf (.call e place.method [needle]) s =
      m.stringMatch (.call e place.method [needle]) e place needle s := by
  rw [filterOf_eq]
  cases place with
  | anywhere =>
    have hdictionary : (m.schema.typeOf e).isDictionary = false := by
      revert hstring
      unfold ValueType.isString ValueType.isDictionary
      split <;> simp_all
    change m.contains _ e _ s = _
    simp only [contains, hdictionary, hstring, Bool.false_eq_true, if_false, if_true]
  | atStart => rfl
  | atEnd => rfl

/-- The stored string is tested for the anchored pattern. -/
theorem stringMatch_of_unwrap (hf : m.schema.fieldPath? e = .ok (some f)) (hp : f.param = p.name)
    {node receiver : Expr} {place : TextPlace} {text pattern : String} (type : ValueType)
    (h : (StringMatch.mk receiver (place.pattern text) false).unwrap node receiver =
      .ok ⟨e, pattern, false⟩) :
    m.stringMatch node receiver place (.literal ⟨.string text, type⟩) (.root p.name) =
      .ok (test f.dotted (.regex (Pattern.anchor pattern) "s")) := by
  change StringMatch.unwrap _ node receiver >>= _ = _
  rw [h]
  change m.target e (.root p.name) >>= _ = _
  rw [target_of_fieldPath? hf hp, ← Pattern.regex_s]
  rfl

/-- **Texts in stored strings.** A stored string is asked to contain, begin with or end with a text,
whatever the characters of the text are. The filter has a pattern that reads as a regular
expression, and this is found in the strings that do, and in no others. -/
theorem filter_textPlace (hf : m.schema.fieldPath? e = .ok (some f)) (hp : f.param = p.name)
    (hstring : (m.schema.typeOf e).isString = true) (place : TextPlace) (text : String)
    (type : ValueType) :
    ∃ pattern r,
      m.filter (.lambda [p] (.call e place.method [.literal ⟨.string text, type⟩])) =
          .ok [(f.dotted, .regex pattern "s")] ∧
        Pattern.Regex.read? pattern = some r ∧
        ∀ subject : String, r.FoundIn subject.toList ↔ place.Holds text.toList subject.toList := by
  have hcall : (Scope.root p.name).check
      (.call e place.method [.literal ⟨.string text, type⟩]) = .ok () := by
    simp only [Scope.check, Scope.checkArgs,
      Scope.check_of_fieldPath? hf (isForeign_root p.name f.param)]
    rfl
  refine ⟨Pattern.anchor (place.pattern text),
    .sequence (Pattern.placeItems place text.toList), ?_, ?_, ?_⟩
  · rw [filter_of_check hcall, filterOf_textCall hstring]
    exact stringMatch_of_unwrap hf hp type (StringMatch.unwrap_of_fieldPath? _ _ hf)
  · rw [Pattern.anchor_pattern]
    exact Pattern.read?_anchored place text.toList
  · intro subject
    exact Pattern.foundIn_place place text.toList subject.toList

/-- Documents with lines of text. -/
def linesMapping : Mapping :=
  { schema := {
      documents := [
        { name := "Root"
          members := [⟨"Lines", "lines", .array .string, .natural⟩] }] } }

/-- The second line of a document. -/
def secondLine : Expr :=
  .index (.member (.param ⟨"x", .document "Root"⟩) "Lines") (.literal ⟨.int32 1, .int32⟩)

/-- A line that ends with a text that looks like a pattern. -/
theorem filter_textPlace_secondLine :
    ∃ pattern r,
      linesMapping.filter (.lambda [⟨"x", .document "Root"⟩]
          (.call secondLine "EndsWith" [.literal ⟨.string "^\\ .*$.*", .string⟩])) =
          .ok [("lines.1", .regex pattern "s")] ∧
        Pattern.Regex.read? pattern = some r ∧
        ∀ subject : String, r.FoundIn subject.toList ↔ "^\\ .*$.*".toList <:+ subject.toList :=
  filter_textPlace (m := linesMapping) (e := secondLine) (p := ⟨"x", .document "Root"⟩)
    (f := ⟨"x", ["lines", "1"], .string, .natural, true⟩) rfl rfl rfl .atEnd "^\\ .*$.*" .string

end Mapping
end DocQuery
