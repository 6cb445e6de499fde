/-
What the aggregation expression of a binary operation computes.

A sum of more than two terms is one list of operands: the operands of the left
side are taken over if it is the same operation. The left side is grouped first,
and the database goes through the list from the left, so the list has the value
of the grouped operation (`eval_operation`). A comparison has just its two sides
(`eval_comparison`), and a literal is in the form in which the other side stores it
(`comparedConstant_stored`).

Quotations and conversions around an expression do not change what it translates
to (`operandOf_strip`).
-/
import DocQuery.Proofs.Chain

namespace DocQuery

open DocQuery.Filter Aggregation

/-! ## Operations -/

/-- The operation that a binary operator stands for. A sum with a string is a concatenation. -/
def BinaryOp.operation (op : BinaryOp) (left right : ValueType) : Operation :=
  match op with
  | .equal => .equal
  | .notEqual => .notEqual
  | .greater => .greater
  | .greaterOrEqual => .greaterOrEqual
  | .less => .less
  | .lessOrEqual => .lessOrEqual
  | .andAlso | .and => .conjunction
  | .orElse | .or => .disjunction
  | .add => if left.isString || right.isString then .concat else .add
  | .subtract => .subtract
  | .multiply => .multiply
  | .divide => .divide
  | .modulo => .modulo
  | .coalesce => .coalesce

namespace Aggregation

/-- The emitted operator computes the operation. -/
theorem ofName?_binaryOperator? {op : BinaryOp} {left right : ValueType} {name : String}
    (h : binaryOperator? op left right = some name) :
    Operation.ofName? name = some (op.operation left right) := by
  cases op with
  | add =>
    simp only [binaryOperator?] at h
    cases h
    simp only [BinaryOp.operation]
    split <;> rfl
  | and =>
    simp only [binaryOperator?] at h
    split at h
    · cases h; rfl
    · cases h
  | or =>
    simp only [binaryOperator?] at h
    split at h
    · cases h; rfl
    · cases h
  | _ => cases h; rfl

theorem isOperator_of_ofName? {name : String} {op : Operation}
    (h : Operation.ofName? name = some op) : isOperator name = true ∧ name ≠ "$literal" := by
  unfold Operation.ofName? at h
  split at h <;> first | exact ⟨rfl, by decide⟩ | cases h

theorem isFold_of_isVariadic {name : String} {op : Operation} (hv : isVariadic name = true)
    (h : Operation.ofName? name = some op) : op.isFold = true := by
  simp only [isVariadic, List.mem_cons, List.not_mem_nil, or_false, decide_eq_true_eq] at hv
  rcases hv with rfl | rfl | rfl | rfl | rfl <;> cases h <;> rfl

namespace Engine

variable {eng : Engine} {op : Operation} {name : String} {values : List Value}

theorem strict?_of_ofName? (h : Operation.ofName? name = some op) :
    eng.strict? name values = eng.combine? op values := by
  unfold strict?
  split
  · cases h
  · cases h
  · rw [h]
    rfl

/-- Two operands, of whatever kind the operation is. -/
theorem combine?_pair (a b : Value) : eng.combine? op [a, b] = some (eng.binary op a b) := by
  unfold combine?
  cases op.isFold <;> rfl

/-- One more operand at the end. -/
theorem combine?_append (eng : Engine) (hop : op.isFold = true) (hlen : 2 ≤ values.length)
    (last : Value) :
    ∃ r, eng.combine? op values = some r ∧
      eng.combine? op (values ++ [last]) = some (eng.binary op r last) := by
  obtain ⟨a, b, rest, rfl⟩ : ∃ a b rest, values = a :: b :: rest := by
    match values, hlen with
    | a :: b :: rest, _ => exact ⟨a, b, rest, rfl⟩
  refine ⟨(b :: rest).foldl (eng.binary op) a, by simp [combine?, hop], ?_⟩
  simp [combine?, hop, List.foldl_append]

end Engine
end Aggregation

namespace Mapping

variable {m : Mapping} {s : Scope} {e left right : Expr} {o : Value} {op : BinaryOp}

/-! ## Quotations and conversions -/

theorem reference?_of_wrapped {node : Expr} {r : Option Value}
    (hr : node.isReference = e.isReference) (hf : m.schema.fieldPath? node = m.schema.fieldPath? e)
    (h : m.reference? node s = .ok r) : m.reference? e s = .ok r := by
  unfold reference? at h ⊢
  rw [hr, hf] at h
  split at h
  · rename_i hn
    rw [if_pos hn]
    exact h
  · rename_i hn
    rw [if_neg hn]
    obtain ⟨f, hf, h⟩ := bind_eq_ok.1 h
    rw [hf]
    cases f with
    | none => exact h
    | some f =>
      change (if f.positional then _ else _) = _ at h ⊢
      split at h
      · rename_i hp
        rw [if_pos hp]
        exact h
      · rename_i hp
        rw [if_neg hp]
        unfold Scope.resolve at h ⊢
        -- A parameter that cannot be read is reported with the expression that reads it.
        cases hb : s.classify f.param with
        | own b =>
          rw [hb] at h
          cases b with
          | group => cases h
          | known => cases h
          | _ => exact h
        | foreign => rw [hb] at h; cases h
        | unbound => rw [hb] at h; cases h

/-- What is around an expression without a meaning of its own. -/
theorem operandOf_of_wrapped {node : Expr} (hr : node.isReference = e.isReference)
    (hf : m.schema.fieldPath? node = m.schema.fieldPath? e)
    (hc : m.computedOperand m.operandOf node s = m.operandOf e s) :
    m.operandOf node s = .ok o ↔ m.operandOf e s = .ok o := by
  rw [operandOf_eq m node, operandNode]
  constructor
  · intro h
    obtain ⟨r, hr', h⟩ := bind_eq_ok.1 h
    cases r with
    | none => rwa [hc] at h
    | some reference =>
      rw [operandOf_eq, operandNode, reference?_of_wrapped hr hf hr']
      exact h
  · intro h
    have h' := h
    rw [operandOf_eq, operandNode] at h'
    obtain ⟨r, hr', h'⟩ := bind_eq_ok.1 h'
    rw [reference?_of_wrapped hr.symm hf.symm hr']
    cases r with
    | none =>
      change m.computedOperand m.operandOf node s = _
      rw [hc, h]
    | some reference => exact h'

theorem operandOf_quote {inner : Expr} :
    m.operandOf (.quote inner) s = .ok o ↔ m.operandOf inner s = .ok o :=
  operandOf_of_wrapped rfl (by rw [Schema.fieldPath?]) rfl

theorem operandOf_convert {operand : Expr} {type : ValueType} :
    m.operandOf (.convert operand type) s = .ok o ↔ m.operandOf operand s = .ok o :=
  operandOf_of_wrapped rfl (by rw [Schema.fieldPath?]) rfl

theorem operandOf_strip : m.operandOf e.strip s = .ok o ↔ m.operandOf e s = .ok o := by
  fun_induction Expr.strip e with
  | case1 inner ih => rw [ih, operandOf_quote]
  | case2 operand type ih => rw [ih, operandOf_convert]
  | case3 e => rfl

/-- An expression that is no reference is computed. -/
theorem operandOf_of_not_reference (h : e.isReference = false) :
    m.operandOf e s = m.computedOperand m.operandOf e s := by
  rw [operandOf_eq, operandNode]
  simp only [reference?, h]
  rfl

theorem eval_not (eng : Engine) (env : Env) (h : m.operandOf (.not e) s = .ok o) :
    ∃ a, m.operandOf e s = .ok a ∧
      eng.eval env o = some (eng.not ((eng.eval env a).getD .null)) := by
  rw [operandOf_of_not_reference rfl] at h
  obtain ⟨a, ha, h⟩ := bind_eq_ok.1 h
  cases h
  exact ⟨a, ha, eval_opAll rfl (by decide) rfl⟩

/-! ## Lists of operands -/

theorem operandOf_comparison (hop : op.isComparison = true)
    (h : m.operandOf (.binary op left right) s = .ok o) :
    ∃ name a b, binaryOperator? op (m.schema.typeOf left) (m.schema.typeOf right) = some name ∧
      m.compared m.operandOf left right s = .ok a ∧
      m.compared m.operandOf right left s = .ok b ∧ o = opAll name [a, b] := by
  rw [operandOf_of_not_reference rfl, computedOperand, binaryOperand] at h
  split at h
  · cases h
  · rename_i name hname
    rw [if_pos hop] at h
    obtain ⟨pair, hpair, h⟩ := bind_eq_ok.1 h
    obtain ⟨a, ha, hpair⟩ := bind_eq_ok.1 hpair
    obtain ⟨b, hb, hpair⟩ := bind_eq_ok.1 hpair
    cases hpair
    cases h
    exact ⟨name, a, b, hname, ha, hb, rfl⟩

theorem operandOf_operation (hop : op.isComparison = false)
    (h : m.operandOf (.binary op left right) s = .ok o) :
    ∃ name l r, binaryOperator? op (m.schema.typeOf left) (m.schema.typeOf right) = some name ∧
      m.operandOf left s = .ok l ∧ m.operandOf right s = .ok r ∧
      o = opAll name (leftOperands name left l ++ [r]) := by
  rw [operandOf_of_not_reference rfl, computedOperand, binaryOperand] at h
  split at h
  · cases h
  · rename_i name hname
    rw [hop] at h
    obtain ⟨l, hl, h⟩ := bind_eq_ok.1 h
    obtain ⟨r, hr, h⟩ := bind_eq_ok.1 h
    cases h
    exact ⟨name, l, r, hname, hl, hr, rfl⟩

/-- A literal that is compared with a stored place is the constant of its stored form. -/
theorem comparedConstant_stored {f : FieldPath} {l : Literal}
    (hf : m.schema.fieldPath? e = .ok (some f)) (h : m.comparedConstant l e = .ok o) :
    ∃ x, m.schema.storedForm f l = .ok x ∧ o = constant x := by
  unfold comparedConstant at h
  rw [hf] at h
  change constant <$> m.schema.storedForm f l = _ at h
  cases hx : m.schema.storedForm f l with
  | ok x =>
    rw [hx] at h
    cases h
    exact ⟨x, rfl, rfl⟩
  | error err => rw [hx] at h; cases h

/-- A binary operation is an operator on two operands or more. -/
theorem operandOf_binary (e : Expr) {op : BinaryOp} {left right : Expr}
    (he : e.strip = .binary op left right) {o : Value} (h : m.operandOf e s = .ok o) :
    ∃ name items, o = opAll name items ∧ 2 ≤ items.length := by
  rw [← operandOf_strip, he] at h
  have hlt : left.size < e.size := by
    have hsize := e.size_strip_le
    rw [he] at hsize
    simp only [Expr.size] at hsize
    omega
  cases hop : op.isComparison with
  | true =>
    obtain ⟨name, a, b, -, -, -, rfl⟩ := operandOf_comparison hop h
    exact ⟨name, [a, b], rfl, by simp⟩
  | false =>
    obtain ⟨name, l, r, -, hl, -, rfl⟩ := operandOf_operation hop h
    refine ⟨name, _, rfl, ?_⟩
    unfold leftOperands
    split
    · rename_i op' left' right' inner operands hstrip
      obtain ⟨name', items, hitems, hlen⟩ := operandOf_binary left hstrip hl
      cases hitems
      split
      · simp only [List.length_append]
        omega
      · simp
    · simp
termination_by e.size

/-- The left side of a binary operation and one more operand, under an operator that computes the
operation. -/
theorem eval_leftOperands {eng : Engine} {env : Env} {name : String} {operation : Operation}
    {l r : Value} (hname : Operation.ofName? name = some operation)
    (hl : m.operandOf left s = .ok l) :
    eng.eval env (opAll name (leftOperands name left l ++ [r])) =
      some (eng.binary operation ((eng.eval env l).getD .null) ((eng.eval env r).getD .null)) := by
  obtain ⟨hop, hlit⟩ := isOperator_of_ofName? hname
  have hpair : eng.eval env (opAll name ([l] ++ [r])) =
      some (eng.binary operation ((eng.eval env l).getD .null) ((eng.eval env r).getD .null)) := by
    refine eval_opAll hop hlit ?_
    rw [Engine.strict?_of_ofName? hname]
    exact Engine.combine?_pair _ _
  unfold leftOperands
  split
  · rename_i op' left' right' inner operands hstrip
    obtain ⟨name', items, hitems, hlen⟩ := operandOf_binary left hstrip hl
    cases hitems
    split
    · rename_i hsame
      simp only [Bool.and_eq_true, decide_eq_true_eq] at hsame
      obtain ⟨hvariadic, rfl⟩ := hsame
      -- The operands of the left side are gone through first, as they are without the last one.
      have hvalues : 2 ≤ (eng.evalItems env items).length := by
        simpa [evalItems_eq_map] using hlen
      obtain ⟨value, hvalue, hlast⟩ := eng.combine?_append
        (isFold_of_isVariadic hvariadic hname) hvalues ((eng.eval env r).getD .null)
      have hleft : eng.eval env (opAll inner items) = some value :=
        eval_opAll hop hlit (by rw [Engine.strict?_of_ofName? hname, hvalue])
      have hboth : eng.eval env (opAll inner (items ++ [r])) =
          some (eng.binary operation value ((eng.eval env r).getD .null)) := by
        refine eval_opAll hop hlit ?_
        rw [Engine.strict?_of_ofName? hname, ← hlast, evalItems_eq_map, evalItems_eq_map]
        simp
      rw [hboth]
      change _ = some (eng.binary operation ((eng.eval env (opAll inner items)).getD .null) _)
      rw [hleft]
      rfl
    · exact hpair
  · exact hpair

/-- An operation other than a comparison has the value of the operation on its sides. -/
theorem eval_operation (eng : Engine) (env : Env) (hop : op.isComparison = false)
    (h : m.operandOf (.binary op left right) s = .ok o) :
    ∃ l r, m.operandOf left s = .ok l ∧ m.operandOf right s = .ok r ∧
      eng.eval env o = some (eng.binary
        (op.operation (m.schema.typeOf left) (m.schema.typeOf right))
        ((eng.eval env l).getD .null) ((eng.eval env r).getD .null)) := by
  obtain ⟨name, l, r, hname, hl, hr, rfl⟩ := operandOf_operation hop h
  exact ⟨l, r, hl, hr, eval_leftOperands (ofName?_binaryOperator? hname) hl⟩

/-- A comparison has the value of the comparison of its sides. -/
theorem eval_comparison (eng : Engine) (env : Env) (hop : op.isComparison = true)
    (h : m.operandOf (.binary op left right) s = .ok o) :
    ∃ a b, m.compared m.operandOf left right s = .ok a ∧
      m.compared m.operandOf right left s = .ok b ∧
      eng.eval env o = some (eng.binary
        (op.operation (m.schema.typeOf left) (m.schema.typeOf right))
        ((eng.eval env a).getD .null) ((eng.eval env b).getD .null)) := by
  obtain ⟨name, a, b, hname, ha, hb, rfl⟩ := operandOf_comparison hop h
  have hoperation := ofName?_binaryOperator? hname
  obtain ⟨hop', hlit⟩ := isOperator_of_ofName? hoperation
  refine ⟨a, b, ha, hb, eval_opAll hop' hlit ?_⟩
  rw [Engine.strict?_of_ofName? hoperation]
  exact Engine.combine?_pair _ _

end Mapping
end DocQuery
