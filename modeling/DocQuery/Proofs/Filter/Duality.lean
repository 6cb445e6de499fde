/-
"Every item" is the opposite of "some item not" (`filter_all_iff_not_any`).

Both filters ask for an item that fails the condition, and both have the complement of
the condition under `$elemMatch`: the one takes it itself (`allItems_eq_ok`), the other
has it from the inner negation (`anyStored_eq_ok`). The outer negation then puts the
operand of `$elemMatch` under `$not` (`complement_elemMatch`), as "every item" does.
-/
import DocQuery.Proofs.Chain
import DocQuery.Proofs.Filter.Collapse

namespace DocQuery

open DocQuery.Filter

namespace Filter

/-- No item matches, as the complement of some item matching. -/
theorem complement_elemMatch {name : String} (hn : isOperator name = false) (operand : Value) :
    complement (testOp name "$elemMatch" operand) =
      testOp name "$not" (.single "$elemMatch" operand) := by
  have hop : isOperator "$elemMatch" = true := rfl
  simp [complement, complementOperators, testOp, test, Value.single, hn, isOperators, hop]

/-- Which expression is refused does not matter to the operand. -/
theorem itemCondition_eq_ok (node node' : Expr) {body operand : Document}
    (h : itemCondition node body = .ok operand) : itemCondition node' body = .ok operand := by
  unfold itemCondition at h ⊢
  split at h
  · split at h
    · cases h
    · rename_i hbody
      simpa [hbody] using h
  all_goals first | exact h | cases h

end Filter

/-- A chain of members is a parameter or a member. -/
theorem Expr.members_cases (p : Param) (names : List String) :
    names.foldl Expr.member (.param p) = .param p ∨
      ∃ target name, names.foldl Expr.member (.param p) = .member target name := by
  rcases List.eq_nil_or_concat names with rfl | ⟨targets, name, rfl⟩
  · exact .inl rfl
  · exact .inr ⟨targets.foldl Expr.member (.param p), name, by simp⟩

namespace Mapping

variable {m : Mapping} {s : Scope} {node source body : Expr} {e : Param} {d : Document}

/-- Outside a condition on array items, some item of a stored array passes a predicate. -/
theorem anyStored_eq_ok (hs : s.inElemMatch = false) :
    m.anyStored m.filterOf node source none e body s = .ok d ↔
      ∃ t inner operand, m.target source s = .ok t ∧ t.type.isArray = true ∧
        m.filterOf body (s.push (itemFrame e .root)) = .ok inner ∧
        itemCondition node inner = .ok operand ∧
        d = testOp t.name "$elemMatch" (.document operand) := by
  unfold anyStored
  rw [bind_eq_ok]
  refine exists_congr fun t => ?_
  have hcollapsed : collapsed? m.filterOf t e body s = .ok none := by
    simp only [collapsed?, hs, Bool.false_and, Bool.false_eq_true, if_false]
    rfl
  by_cases harray : t.type.isArray = true
  · simp only [harray, Bool.not_true, Bool.false_eq_true, if_false, hcollapsed]
    constructor
    · rintro ⟨ht, h⟩
      obtain ⟨_, ⟨⟩, h⟩ := bind_eq_ok.1 h
      obtain ⟨inner, hinner, h⟩ := bind_eq_ok.1 h
      obtain ⟨operand, hoperand, h⟩ := bind_eq_ok.1 h
      cases h
      exact ⟨inner, operand, ht, trivial, hinner, hoperand, rfl⟩
    · rintro ⟨inner, operand, ht, -, hinner, hoperand, rfl⟩
      refine ⟨ht, bind_eq_ok.2 ⟨none, rfl, bind_eq_ok.2 ⟨inner, hinner, ?_⟩⟩⟩
      exact bind_eq_ok.2 ⟨operand, hoperand, rfl⟩
  · simp [harray, throw, throwThe, MonadExceptOf.throw]

/-- Every item of a stored array passes a predicate. -/
theorem allItems_eq_ok (hknown : source.known? = none) :
    m.allItems m.filterOf node source (.lambda [e] body) s = .ok d ↔
      ∃ t inner operand, m.target source s = .ok t ∧ t.type.isArray = true ∧
        m.filterOf body (s.push (itemFrame e .root)) = .ok inner ∧
        itemCondition node (complement inner) = .ok operand ∧
        d = testOp t.name "$not" (.single "$elemMatch" (.document operand)) := by
  have hl : (Expr.lambda [e] body).asUnaryLambda? = some (e, body) := rfl
  unfold allItems
  simp only [hl, hknown]
  rw [bind_eq_ok]
  refine exists_congr fun t => ?_
  by_cases harray : t.type.isArray = true
  · simp only [harray, Bool.not_true, Bool.false_eq_true, if_false, bind_eq_ok]
    constructor
    · rintro ⟨ht, inner, hinner, operand, hoperand, ⟨⟩⟩
      exact ⟨inner, operand, ht, trivial, hinner, hoperand, rfl⟩
    · rintro ⟨inner, operand, ht, -, hinner, hoperand, rfl⟩
      exact ⟨ht, inner, hinner, operand, hoperand, rfl⟩
  · simp [harray, throw, throwThe, MonadExceptOf.throw]

theorem anyItem_members (node : Expr) (p : Param) (names : List String) :
    m.anyItem m.filterOf node (names.foldl Expr.member (.param p)) (.lambda [e] body) s =
      m.anyStored m.filterOf node (names.foldl Expr.member (.param p)) none e body s := by
  rcases Expr.members_cases p names with h | ⟨target, name, h⟩ <;> rw [h] <;> rfl

theorem known?_members (p : Param) (names : List String) :
    (names.foldl Expr.member (.param p)).known? = none := by
  rcases Expr.members_cases p names with h | ⟨target, name, h⟩ <;> rw [h] <;> rfl

/-- The filter of a negation that is neither a double one nor one of bits. -/
theorem filterOf_not_eq {P : Expr} (hnot : ∀ inner, P.strip ≠ .not inner)
    (htype : (m.schema.typeOf P).isInteger = false) :
    m.filterOf (.not P) s = complement <$> m.filterOf P s := by
  rw [filterOf_eq]
  simp only [filterNode, negation, htype, Bool.false_eq_true, if_false]

/-- **"Every item" is the opposite of "some item not".** Let a condition on the items of a stored
array be neither a negation nor taken for an integer. Then "every item meets it" translates exactly
if "not some item does not meet it" does, and both have the same filter. -/
theorem filter_all_iff_not_any {p root : Param} {names : List String} {P : Expr}
    (hname : ∀ f, m.schema.fieldPath? (names.foldl Expr.member (.param root)) = .ok (some f) →
      isOperator f.dotted = false)
    (hnot : ∀ inner, P.strip ≠ .not inner) (htype : (m.schema.typeOf P).isInteger = false) :
    m.filter (.lambda [p]
        (.call (names.foldl Expr.member (.param root)) "All" [.lambda [e] P])) = .ok d ↔
      m.filter (.lambda [p]
        (.not (.call (names.foldl Expr.member (.param root)) "Any" [.lambda [e] (.not P)]))) =
          .ok d := by
  have hknown := known?_members root names
  have hany (node : Expr) :
      m.anyItem m.filterOf node _ (.lambda [e] (.not P)) (.root p.name) = _ :=
    anyItem_members node root names
  generalize names.foldl Expr.member (.param root) = coll at *
  have hplace {t : Target} (ht : m.target coll (.root p.name) = .ok t) :
      isOperator t.name = false := by
    obtain ⟨f, hf, -, rfl⟩ := target_root_eq_ok.1 ht
    exact hname f hf
  have hcheck : (Scope.root p.name).check (.call coll "All" [.lambda [e] P]) =
      (Scope.root p.name).check (.not (.call coll "Any" [.lambda [e] (.not P)])) := by
    simp only [Scope.check, Scope.checkArgs, Expr.asLambda?, Scope.checkBody]
  have hboolean : (m.schema.typeOf (.call coll "Any" [.lambda [e] (.not P)])).isInteger = false :=
    rfl
  rw [filter_eq_ok, filter_eq_ok, hcheck, filterOf_not_eq (by simp [Expr.strip]) hboolean,
    filterOf_eq m (.call coll "All" [.lambda [e] P]),
    filterOf_eq m (.call coll "Any" [.lambda [e] (.not P)]), map_eq_ok]
  simp only [filterNode, callFilter]
  rw [allItems_eq_ok hknown, hany]
  simp only [anyStored_eq_ok (s := .root p.name) rfl, filterOf_not_eq hnot htype, map_eq_ok]
  refine and_congr_right fun _ => ?_
  constructor
  · rintro ⟨t, inner, operand, ht, harray, hinner, hoperand, rfl⟩
    refine ⟨_, ⟨t, _, operand, ht, harray, ⟨inner, hinner, rfl⟩,
      itemCondition_eq_ok _ _ hoperand, rfl⟩, complement_elemMatch (hplace ht) _⟩
  · rintro ⟨_, ⟨t, _, operand, ht, harray, ⟨inner, hinner, rfl⟩, hoperand, rfl⟩, rfl⟩
    exact ⟨t, inner, operand, ht, harray, hinner, itemCondition_eq_ok _ _ hoperand,
      complement_elemMatch (hplace ht) _⟩

/-- The text of `g` is "b", or some `s` of it has the text "a". -/
def textOrSome : Expr :=
  .binary .orElse
    (.binary .equal (.member (.param ⟨"g", .document "C"⟩) "D") (.literal ⟨.string "b", .string⟩))
    (.call (.member (.param ⟨"g", .document "C"⟩) "S") "Any"
      [.lambda [⟨"s", .document "C"⟩] (comparesText .equal)])

/-- The condition has an array inside, which is written with a longer path in both filters. -/
theorem filter_all_iff_not_any_textOrSome :
    groups.filter (.lambda [⟨"x", .document "Root"⟩]
        (.call (.member (.param ⟨"x", .document "Root"⟩) "G") "All"
          [.lambda [⟨"g", .document "C"⟩] textOrSome])) =
      .ok (testOp "G" "$not" (.single "$elemMatch" (.single "$nor"
        (.array [.single "D" (.string "b"), .single "S.D" (.string "a")])))) ∧
    groups.filter (.lambda [⟨"x", .document "Root"⟩]
        (.not (.call (.member (.param ⟨"x", .document "Root"⟩) "G") "Any"
          [.lambda [⟨"g", .document "C"⟩] (.not textOrSome)]))) =
      .ok (testOp "G" "$not" (.single "$elemMatch" (.single "$nor"
        (.array [.single "D" (.string "b"), .single "S.D" (.string "a")])))) := by
  have hname : ∀ f, groups.schema.fieldPath?
      (["G"].foldl Expr.member (.param ⟨"x", .document "Root"⟩)) = .ok (some f) →
        isOperator f.dotted = false := by
    rintro f ⟨⟩
    rfl
  have hall : groups.filter (.lambda [⟨"x", .document "Root"⟩]
      (.call (.member (.param ⟨"x", .document "Root"⟩) "G") "All"
        [.lambda [⟨"g", .document "C"⟩] textOrSome])) =
      .ok (testOp "G" "$not" (.single "$elemMatch" (.single "$nor"
        (.array [.single "D" (.string "b"), .single "S.D" (.string "a")])))) := by
    with_unfolding_all rfl
  exact ⟨hall, (filter_all_iff_not_any hname (by rintro inner ⟨⟩) rfl).1 hall⟩

end Mapping
end DocQuery
