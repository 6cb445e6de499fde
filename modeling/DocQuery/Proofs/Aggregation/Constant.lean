/-
Constants in the stage of a projection (`eval_constant_of_project`).

A constant of a selector is written into the stage in one of three ways: marked if
it is a string that would be a reference, always marked, or as it is (`Writing`).
`ConstantIn` says which constants a selector has and how each is written. The
operand that is written for it is in the stage (`standsIn_operandOf`), and the
database reads it as the constant exactly if the marking sees all that has to be
marked (`Writing.keeps`).
-/
import DocQuery.Proofs.Aggregation.Parts
import DocQuery.Proofs.Aggregation.Stage

namespace DocQuery

open Aggregation

/-! ## Writing -/

/-- How a constant is written in an aggregation expression. -/
inductive Writing where
  /-- Marked if it is a string that would be a reference. -/
  | quoted
  | marked
  | bare

namespace Writing

/-- The operand that is written for a constant. -/
def operand (w : Writing) (v : Value) : Value :=
  match w with
  | quoted => constant v
  | marked => op "$literal" v
  | bare => v

/-- Whether the operand stands for the constant. -/
def keeps (w : Writing) (v : Value) : Bool :=
  match w with
  | quoted => isQuoted v
  | marked => true
  | bare => isInert v

theorem eval_operand_iff (w : Writing) (v : Value) :
    (∀ (eng : Engine) (env : Env), eng.eval env (w.operand v) = some v) ↔ w.keeps v = true := by
  cases w with
  | quoted => exact eval_constant_iff
  | marked => simp [operand, keeps]
  | bare => exact eval_self_iff

end Writing

namespace Mapping

/-! ## Constants of an expression -/

/-- The form in which a literal is compared with an expression: its stored form if that is a stored
field. -/
def comparedForm (m : Mapping) (l : Literal) (other : Expr) : Result Value := do
  match ← m.schema.fieldPath? other with
  | some f => m.schema.storedForm f l
  | none => return l.value

/-- A constant of an expression, and how it is written. An amount that is added to a date is written
in milliseconds, and the names of types and of kinds of comparison are not written. -/
inductive ConstantIn (m : Mapping) : Expr → Writing → Value → Prop
  | literal (l : Literal) : ConstantIn m (.literal l) .quoted l.value
  /-- A literal that is compared. -/
  | compared {e a b side other : Expr} {l : Literal} {v : Value}
      (h : e.comparedSides? = some (a, b))
      (hside : (side, other) = (a, b) ∨ (side, other) = (b, a)) (hl : side.asLiteral? = some l)
      (hv : m.comparedForm l other = .ok v) : ConstantIn m e .quoted v
  /-- Characters to trim, or a separator. -/
  | text {target arg : Expr} {method text : String} (hk : target.known? = none)
      (htype : (m.schema.typeOf target).underlying = .string)
      (h : boundText? method arg = some text) :
      ConstantIn m (.call target method [arg]) .bare (.string text)
  /-- The base of a logarithm. -/
  | base {value arg : Expr} {x : Binary64} (h : arg.asLiteral?.bind number? = some x) :
      ConstantIn m (.staticCall "Math" "Log" [value, arg]) .bare (.double x)
  /-- A collection that is searched. -/
  | receiver {target item : Expr} {l : Literal} (h : target.known? = some l) :
      ConstantIn m (.call target "Contains" [item]) .marked l.value
  | part {e e' : Expr} {w : Writing} {v : Value} (he : e' ∈ m.operandParts e)
      (h : ConstantIn m e' w v) : ConstantIn m e w v

variable {m : Mapping} {s : Scope} {e left : Expr} {o l : Value} {w : Writing} {c v : Value}

theorem comparedConstant_of_form {l : Literal} (h : m.comparedForm l e = .ok v) :
    m.comparedConstant l e = .ok (constant v) := by
  unfold comparedForm at h
  unfold comparedConstant
  obtain ⟨f, hf, h⟩ := bind_eq_ok.1 h
  rw [hf]
  cases f with
  | some f =>
    change constant <$> m.schema.storedForm f l = _
    change m.schema.storedForm f l = _ at h
    rw [h]
    rfl
  | none =>
    cases h
    rfl

/-! ## Constants in aggregation expressions -/

/-- A constant stands in the aggregation expression of an expression. In that of an operation of two
sides it stands in one of the operands, which another operation may take over. -/
structure StandsIn (c : Value) (e : Expr) (o : Value) : Prop where
  part : c.IsPartOf o
  operand : ∀ op left right, e.strip = .binary op left right →
    ∃ name items, o = opAll name items ∧ ∃ i ∈ items, c.IsPartOf i

theorem StandsIn.of_items {name : String} {items : List Value} {i : Value} (hi : i ∈ items)
    (h : c.IsPartOf i) : StandsIn c e (opAll name items) :=
  ⟨h.trans (.opAll hi), fun _ _ _ _ => ⟨name, items, rfl, i, hi, h⟩⟩

theorem StandsIn.of_part (h : c.IsPartOf o)
    (he : ∀ op left right, e.strip ≠ .binary op left right) : StandsIn c e o :=
  ⟨h, fun op left right hstrip => absurd hstrip (he op left right)⟩

/-- The operands that a left side gives have what stands in it. -/
theorem StandsIn.leftOperands {name : String} (h : StandsIn c left l) :
    ∃ i ∈ leftOperands name left l, c.IsPartOf i := by
  unfold Aggregation.leftOperands
  split
  · rename_i op left' right inner operands hstrip
    split
    · obtain ⟨name', items, hl, i, hi, hc⟩ := h.operand op left' right hstrip
      cases hl
      exact ⟨i, hi, hc⟩
    · exact ⟨_, List.mem_singleton_self _, h.part⟩
  · exact ⟨_, List.mem_singleton_self _, h.part⟩

/-- What is in a side of a comparison stands in the comparison. -/
theorem comparedPair_of_sides {a b : Expr} (h : e.comparedSides? = some (a, b))
    (ho : m.operandOf e s = .ok o) :
    ∃ items, m.comparedPair m.operandOf a b s = .ok items ∧
      ∀ i ∈ items, ∀ c, c.IsPartOf i → StandsIn c e o := by
  obtain ⟨items, hpair, hunder, hoperands⟩ := under_comparedPair h ho
  refine ⟨items, hpair, fun i hi c hc => ⟨hc.trans (hunder i hi).isPartOf, ?_⟩⟩
  intro op left right hstrip
  obtain ⟨name, rfl⟩ := hoperands op left right hstrip
  exact ⟨name, items, rfl, i, hi, hc⟩

/-- A part that is translated brings what stands in it. -/
theorem standsIn_of_part {e' : Expr} (he : e' ∈ m.operandParts e) (ho : m.operandOf e s = .ok o)
    (ih : ∀ {s o}, m.operandOf e' s = .ok o → StandsIn c e' o) : StandsIn c e o := by
  have hstored := isStored_of_mem_operandParts he
  cases hsides : e.comparedSides? with
  | some sides =>
    obtain ⟨a, b⟩ := sides
    obtain ⟨items, hpair, hitems⟩ := comparedPair_of_sides hsides ho
    simp only [operandParts, hstored, hsides, Bool.false_eq_true, if_false] at he
    obtain ⟨v, hv, ho'⟩ := mem_of_comparedPair_of_part hpair he
    exact hitems v hv c (ih ho').part
  | none =>
    cases e with
    | quote inner =>
      obtain rfl := mem_operandParts_quote he
      have hinner := ih (operandOf_quote.1 ho)
      exact ⟨hinner.part, hinner.operand⟩
    | convert operand type =>
      obtain rfl := mem_operandParts_convert he
      have hinner := ih (operandOf_convert.1 ho)
      exact ⟨hinner.part, hinner.operand⟩
    | binary op left right =>
      have hop : op.isComparison = false := by simpa [Expr.comparedSides?] using hsides
      obtain ⟨name, l, r, -, hl, hr, rfl⟩ := operandOf_operation hop ho
      simp only [operandParts, hstored, hsides, Bool.false_eq_true, if_false, List.mem_cons,
        List.not_mem_nil, or_false] at he
      rcases he with rfl | rfl
      · obtain ⟨i, hi, hc⟩ := (ih hl).leftOperands
        exact .of_items (List.mem_append_left _ hi) hc
      · exact .of_items (List.mem_append_right _ (List.mem_singleton_self r)) (ih hr).part
    | _ =>
      have hcarries := carries_computedOperand (s := s) (refusesLambdas_operandOf m) hstored hsides
        (by rintro _ _ _ ⟨⟩)
      obtain ⟨s', o', ho', hpart⟩ := hcarries.of_ok (operandOf_of_not_isStored hstored ho) _ he
      exact .of_part ((ih ho').part.trans hpart) (by rintro _ _ _ ⟨⟩)

theorem method_of_boundText? {method text : String} {arg : Expr}
    (h : boundText? method arg = some text) :
    method = "Trim" ∨ method = "TrimStart" ∨ method = "TrimEnd" ∨ method = "Split" := by
  unfold boundText? at h
  cases hside : TrimSide.ofMethod? method with
  | some side =>
    unfold TrimSide.ofMethod? at hside
    split at hside
    · exact .inl rfl
    · exact .inr (.inl rfl)
    · exact .inr (.inr (.inl rfl))
    · cases hside
  | none =>
    rw [hside, Option.isSome_none, if_neg Bool.false_ne_true] at h
    split at h
    · rename_i hsplit
      exact .inr (.inr (.inr hsplit))
    · cases h

/-- The operand that is written for a constant stands in the aggregation expression. -/
theorem standsIn_operandOf (h : ConstantIn m e w v) (ho : m.operandOf e s = .ok o) :
    StandsIn (w.operand v) e o := by
  induction h generalizing s o with
  | literal l =>
    rw [operandOf_of_not_reference rfl] at ho
    cases ho
    exact .of_part .refl (by rintro _ _ _ ⟨⟩)
  | compared h hside hl hv =>
    obtain ⟨items, hpair, hitems⟩ := comparedPair_of_sides h ho
    obtain ⟨x, hx, hcompared⟩ := mem_of_comparedPair hpair hside
    rw [compared, hl] at hcompared
    cases (comparedConstant_of_form hv).symm.trans hcompared
    exact hitems _ hx _ .refl
  | @text target arg method text hk htype h =>
    have hstring : m.stringCall m.operandOf (.call target method [arg]) target method [arg] s =
        .ok o := by
      rcases method_of_boundText? h with rfl | rfl | rfl | rfl
      all_goals
        rw [operandOf_of_not_reference rfl] at ho
        simp only [computedOperand, callOperand, hk, htype] at ho
        exact ho
    exact .of_part ((isPartOf_stringCall _ h).of_ok hstring) (by rintro _ _ _ ⟨⟩)
  | @base value arg x h =>
    rw [operandOf_of_not_reference rfl] at ho
    have ho : mathCall m.operandOf (.staticCall "Math" "Log" [value, arg]) "Log" [value, arg] s =
        .ok o := ho
    simp only [mathCall, h] at ho
    obtain ⟨b, hb, ho⟩ := bind_eq_ok.1 ho
    obtain ⟨v, -, ho⟩ := bind_eq_ok.1 ho
    cases hb
    cases ho
    exact .of_part (.opAll (.tail _ (.head _))) (by rintro _ _ _ ⟨⟩)
  | @receiver target item l h =>
    rw [operandOf_of_not_reference rfl] at ho
    simp only [computedOperand, callOperand, h] at ho
    obtain ⟨v, -, ho⟩ := bind_eq_ok.1 ho
    cases ho
    exact .of_part (.opAll (.tail _ (.head _))) (by rintro _ _ _ ⟨⟩)
  | part he _ ih => exact standsIn_of_part he ho ih

/-! ## Constants in stages -/

theorem ConstantIn.strip (h : ConstantIn m e w v) : ConstantIn m e.strip w v := by
  fun_induction Expr.strip e with
  | case1 inner ih =>
    cases h with
    | compared h => cases h
    | part he h => exact ih (mem_operandParts_quote he ▸ h)
  | case2 operand type ih =>
    cases h with
    | compared h => cases h
    | part he h => exact ih (mem_operandParts_convert he ▸ h)
  | case3 e => exact h

theorem objectMembers_of_projectedMembers {typeName : Option String}
    {members : List (String × Expr)} {projected : List (String × Value × String)}
    (h : m.projectedMembers typeName members s = .ok projected) :
    m.objectMembers m.operandOf typeName members s =
      .ok (projected.map fun (element, v, _) => (element, v)) := by
  induction members generalizing projected with
  | nil => cases h; rfl
  | cons q rest ih =>
    obtain ⟨name, e⟩ := q
    obtain ⟨element, v, others, helement, hv, hothers, rfl⟩ := projectedMembers_cons h
    have hrest := ih hothers
    unfold objectMembers at hrest ⊢
    simp only [List.mapM_cons, hrest, helement, hv]
    rfl

theorem strip_of_asObject? {body : Expr} {typeName : Option String}
    {members : List (String × Expr)} (h : body.asObject? = some (typeName, members)) :
    body.strip = .object typeName members := by
  unfold Expr.asObject? at h
  split at h
  · rename_i hstrip
    cases h
    exact hstrip
  · cases h

/-- The operand that is written for a constant is in the stage. -/
theorem isPartOf_project {selector body : Expr} {p : Param} {stage : Stage}
    (hl : selector.asUnaryLambda? = some (p, body)) (hstage : m.project selector = .ok stage)
    (h : ConstantIn m body w v) : (w.operand v).IsPartOf (.document stage.body) := by
  cases hb : body.asObject? with
  | none =>
    obtain ⟨o, ho, rfl⟩ := project_value hl hb hstage
    have hmember : (Stage.valueName, stageMember o) ∈
        withoutId [(Stage.valueName, stageMember o)] := mem_withoutId (List.mem_singleton_self _)
    exact .field hmember ((standsIn_operandOf h.strip ho).part.trans .stageMember)
  | some object =>
    obtain ⟨typeName, members⟩ := object
    obtain ⟨projected, hprojected, rfl⟩ := project_object hl hb hstage
    have hstrip := h.strip
    rw [strip_of_asObject? hb] at hstrip
    cases hstrip with
    | compared hsides => cases hsides
    | part he hconst =>
      rw [operandParts, isStored_of_mem_operandParts he] at he
      obtain ⟨key, o, ho, hkey⟩ :=
        get?_objectMembers (objectMembers_of_projectedMembers hprojected) he
      rw [← Document.get?_ofFields] at hkey
      exact .field (mem_withoutId (Document.mem_of_get? hkey))
        ((standsIn_operandOf hconst ho).part.trans .stageMember)

/-- **The database reads a constant as itself if nothing in it has to be marked.** For every
constant of a selector that is accepted, what is written for it is in the stage, and under every
engine it has the constant's value exactly if it is a string or has no `$` inside, or is always
marked. -/
theorem eval_constant_of_project {selector body : Expr} {p : Param} {stage : Stage}
    (hl : selector.asUnaryLambda? = some (p, body)) (hstage : m.project selector = .ok stage)
    (h : ConstantIn m body w v) :
    (w.operand v).IsPartOf (.document stage.body) ∧
      ((∀ (eng : Engine) (env : Env), eng.eval env (w.operand v) = some v) ↔
        w.keeps v = true) :=
  ⟨isPartOf_project hl hstage h, w.eval_operand_iff v⟩

/-- `x => new { T = ("$a" + x.S) + "$b" }`. -/
def markedTexts : Expr :=
  .lambda [⟨"x", .any⟩] (.object none
    [("T", .binary .add
      (.binary .add (.literal ⟨.string "$a", .string⟩) (.member (.param ⟨"x", .any⟩) "S"))
      (.literal ⟨.string "$b", .string⟩))])

theorem eval_constant_of_project_markedTexts :
    ∃ stage, (mk {} {}).project markedTexts = .ok stage ∧
      (op "$literal" (.string "$a")).IsPartOf (.document stage.body) ∧
      ∀ (eng : Engine) (env : Env),
        eng.eval env (op "$literal" (.string "$a")) = some (.string "$a") := by
  obtain ⟨stage, hstage⟩ : ∃ stage, (mk {} {}).project markedTexts = .ok stage := ⟨_, rfl⟩
  obtain ⟨hpart, heval⟩ := eval_constant_of_project (w := .quoted) (v := .string "$a") rfl hstage
    (.part (.head _) (.part (.head _) (.part (.head _) (.literal _))))
  exact ⟨stage, hstage, hpart, heval.2 rfl⟩

/-- `x => new { V = ["$A"] }`, with a constant array. -/
def bareArray : Expr :=
  .lambda [⟨"x", .any⟩] (.object none [("V", .literal ⟨.array [.string "$A"], .array .string⟩)])

/-- What is written for the constant array has the field `A` in its value. -/
theorem eval_bareArray :
    ∃ stage operand, (mk {} {}).project bareArray = .ok stage ∧
      stage.body.get? "V" = some operand ∧
      ∀ eng : Engine, eng.eval { root := [("A", .int32 7)] } operand =
        some (.array [.int32 7]) :=
  ⟨_, .array [.string "$A"], rfl, rfl, fun _ => rfl⟩

end Mapping
end DocQuery
