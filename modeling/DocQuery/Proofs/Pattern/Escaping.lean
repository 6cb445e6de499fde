/-
Escaped texts are read back.

Wherever an escaped text stands, its characters are read from it, a token for each
(`readAs_escape`); as a text is read in one way only (`ReadAs.unique`), different texts
have different escaped forms (`escape_injective`). The texts for one of some characters
and for none of them are read as one set, which lists just these characters, whatever
they are: none of them opens, closes or negates a class or makes a range in it.
-/
import DocQuery.Proofs.Pattern.Notation

namespace DocQuery.Pattern

theorem ReadAs.unique {text : List Char} {s t : List Token} (hs : ReadAs text s)
    (ht : ReadAs text t) : s = t :=
  Option.some.inj (hs.tokens?_eq.symm.trans ht.tokens?_eq)

theorem Token.char_injective : Function.Injective Token.char := by
  intro c d h
  simpa [Token.char, CharSet.only] using h

/-! ## Texts -/

/-- The characters of a text are read from its escaped form, whatever stands behind it. -/
theorem readAs_escape (text : String) :
    ReadAs (escape text).toList (text.toList.map Token.char) := by
  intro rest
  rw [escape, String.toList_ofList]
  exact tokens?_escape text.toList rest

theorem escape_injective : Function.Injective escape := by
  intro a b h
  have hread := readAs_escape b
  rw [← h] at hread
  have hchars : a.toList.map Token.char = b.toList.map Token.char :=
    (readAs_escape a).unique hread
  exact String.toList_inj.1 (List.map_injective_iff.2 Token.char_injective hchars)

/-! ## Classes -/

namespace CharSet

variable {chars : List Char} {c : Char}

theorem has_listed_false : (listed false chars).has c = true ↔ c ∈ chars := by
  simp [has]

theorem has_listed_true : (listed true chars).has c = true ↔ c ∉ chars := by
  simp [has]

end CharSet

theorem read?_of_readAs {pattern : String} {set : CharSet} (h : ReadAs pattern.toList [.one set]) :
    Regex.read? pattern = some (.sequence [.one set]) :=
  (Denotes.one h).read?

/-- **Escaped texts are read back.** From the escaped form of a text, its characters are read and
nothing else, also where it stands before other things, and no two texts have the same form. From
the form of a class, one set of characters is read, which lists the given ones in their order: it
has just these, or just the others if the class is negated. -/
theorem read?_escaped :
    (∀ text : String,
      ReadAs (escape text).toList (text.toList.map Token.char) ∧
      Regex.read? (escape text) =
        some (.sequence (text.toList.map fun c => .one (.only c)).reverse)) ∧
    Function.Injective escape ∧
    ∀ chars : List Char, chars ≠ [] →
      (ReadAs (oneOf chars).toList [.one (.listed false chars)] ∧
        Regex.read? (oneOf chars) = some (.sequence [.one (.listed false chars)]) ∧
        ∀ c, (CharSet.listed false chars).has c = true ↔ c ∈ chars) ∧
      (ReadAs (noneOf chars).toList [.one (.listed true chars)] ∧
        Regex.read? (noneOf chars) = some (.sequence [.one (.listed true chars)]) ∧
        ∀ c, (CharSet.listed true chars).has c = true ↔ c ∉ chars) := by
  refine ⟨fun text => ⟨readAs_escape text, ?_⟩, escape_injective, fun chars hne => ?_⟩
  · have hdenotes : Denotes (escape text).toList (text.toList.map fun c => .one (.only c)) := by
      rw [escape, String.toList_ofList]
      exact Denotes.escape text.toList
    exact hdenotes.read?
  · have hone := readAs_oneOf hne
    have hnone := readAs_noneOf hne
    exact ⟨⟨hone, read?_of_readAs hone, fun _ => CharSet.has_listed_false⟩,
      ⟨hnone, read?_of_readAs hnone, fun _ => CharSet.has_listed_true⟩⟩

/-- A caret, a closing bracket and a hyphen between two letters are members like others. -/
theorem read?_escaped_brackets :
    ['^', ']', 'a', '-', 'z'] ≠ [] ∧
    Regex.read? "[\\^\\]a\\-z]" =
      some (.sequence [.one (.listed false ['^', ']', 'a', '-', 'z'])]) ∧
    Regex.read? "[^\\^\\]a\\-z]" =
      some (.sequence [.one (.listed true ['^', ']', 'a', '-', 'z'])]) := by
  have hne : ['^', ']', 'a', '-', 'z'] ≠ [] := by simp
  obtain ⟨⟨-, hone, -⟩, -, hnone, -⟩ := read?_escaped.2.2 _ hne
  exact ⟨hne, hone, hnone⟩

end DocQuery.Pattern
