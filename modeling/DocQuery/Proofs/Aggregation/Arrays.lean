/-
How the database evaluates the operators that bind variables and those that take
items of an array.

`$let` evaluates an expression with one more variable, `$map` does so for each item of
an array, and `$arrayElemAt` gives the item at a position (`Engine.ReadsArrays`).
`$reduce` goes through an array with two variables, for the item and for what came
before it (`Engine.ReadsFolds`). Every engine has an extension that evaluates them so
(`readsArrays_withArrays`, `readsFolds_withArrays`). Their operands are expressions
again, so the extension is built up by the size of the operand (`withArraysUpTo`),
which does not matter once it is large enough (`eval_withArraysUpTo`).
-/
import DocQuery.Proofs.Aggregation.Evaluation

namespace DocQuery.Aggregation

open DocQuery.Filter (isOperator)

/-! ## Array operators -/

/-- The item at a position. Negative positions count from the last item. -/
def itemAt? (items : List Value) (position : Int32) : Option Value :=
  if 0 ≤ position.toInt then items[position.toInt.toNat]?
  else items.reverse[(-position.toInt - 1).toNat]?

/-- Binds a variable. It has no value if that is missing. -/
def Env.bind (env : Env) (name : String) (value : Option Value) : Env :=
  { env with vars := value.toList.map (name, ·) ++ env.vars.filter fun (k, _) => k ≠ name }

/-- An engine that binds variables and takes items of arrays. -/
structure Engine.ReadsArrays (eng : Engine) : Prop where
  item : ∀ {env array items}, eng.eval env array = some (.array items) → ∀ position : Int32,
    eng.eval env (opAll "$arrayElemAt" [array, .int32 position]) = itemAt? items position
  binds : ∀ env name value body,
    eng.eval env (op "$let" (.document [("vars", .single name value), ("in", body)])) =
      eng.eval (env.bind name (eng.eval env value)) body
  maps : ∀ {env input items}, eng.eval env input = some (.array items) → ∀ name body,
    eng.eval env (op "$map"
        (.document [("input", input), ("as", .string name), ("in", body)])) =
      some (.array (items.map fun x => (eng.eval (env.bind name (some x)) body).getD .null))

/-- An engine that also goes through arrays from the left. -/
structure Engine.ReadsFolds (eng : Engine) : Prop extends eng.ReadsArrays where
  reduces : ∀ {env input items}, eng.eval env input = some (.array items) → ∀ initial body,
    eng.eval env (op "$reduce"
        (.document [("input", input), ("initialValue", initial), ("in", body)])) =
      items.foldl (fun value x => eng.eval ((env.bind "value" value).bind "this" (some x)) body)
        (eng.eval env initial)

/-! ## An engine with them -/

/-- An array operator whose operands `eng` evaluates, or another operator of `base`. -/
def arrayOperator (base eng : Engine) (env : Env) (name : String) (operand : Value) :
    Option Value :=
  match name, operand with
  | "$arrayElemAt", .array [array, .int32 position] =>
    match eng.eval env array with
    | some (.array items) => itemAt? items position
    | _ => none
  | "$let", .document [("vars", .document [(x, value)]), ("in", body)] =>
    eng.eval (env.bind x (eng.eval env value)) body
  | "$map", .document [("input", input), ("as", .string x), ("in", body)] =>
    match eng.eval env input with
    | some (.array items) =>
      some (.array (items.map fun item => (eng.eval (env.bind x (some item)) body).getD .null))
    | _ => none
  | "$reduce", .document [("input", input), ("initialValue", initial), ("in", body)] =>
    match eng.eval env input with
    | some (.array items) =>
      items.foldl (fun value x => eng.eval ((env.bind "value" value).bind "this" (some x)) body)
        (eng.eval env initial)
    | _ => none
  | name, operand => base.other env name operand

namespace Engine

/-- The engine with array operators that are nested at most so deep. -/
def withArraysUpTo (base : Engine) : Nat → Engine
  | 0 => base
  | n + 1 => { base with other := arrayOperator base (base.withArraysUpTo n) }

/-- The engine with array operators. -/
noncomputable def withArrays (base : Engine) : Engine :=
  { base with other := fun env name operand =>
      arrayOperator base (base.withArraysUpTo (sizeOf operand)) env name operand }

end Engine

variable {base eng : Engine} {env : Env}

/-! Evaluation reaches an operator only through the values inside the one it evaluates. -/

section Congruence

variable {other : Env → String → Value → Option Value}

mutual
theorem eval_congr (eng : Engine) : ∀ (v : Value),
    (∀ name operand, sizeOf operand < sizeOf v →
      other env name operand = eng.other env name operand) →
    Engine.eval { eng with other := other } env v = eng.eval env v
  | .string s, _ => by simp only [Engine.eval]
  | .array items, h => by
    have hsize : sizeOf (Value.array items) = sizeOf items + 1 := by simp; omega
    have hitems := evalItems_congr eng items fun name operand ho => h name operand (by omega)
    rw [Engine.eval, Engine.eval, hitems]
  | .document [], _ => rfl
  | .document ((key, v) :: rest), h => by
    have hsize : sizeOf (Value.document ((key, v) :: rest)) =
      sizeOf key + sizeOf v + sizeOf rest + 3 := by simp; omega
    have hv := eval_congr eng v fun name operand ho => h name operand (by omega)
    have hrest := evalFields_congr eng rest fun name operand ho =>
      h name operand (by omega)
    have hkey := h key v (by omega)
    simp only [Engine.eval, Engine.evalDocument, hv, hrest]
    simp only [Engine.operator, hkey]
    rfl
  | .null, _ | .bool _, _ | .int32 _, _ | .int64 _, _ | .double _, _ | .objectId _, _
  | .dateTime _, _ | .regex .., _ | .decimal _, _ | .binary _, _ | .timestamp .., _
  | .symbol _, _ | .javaScript _, _ | .minKey, _ | .maxKey, _ | .undefined, _ => rfl
theorem evalItems_congr (eng : Engine) : ∀ (items : List Value),
    (∀ name operand, sizeOf operand < sizeOf items →
      other env name operand = eng.other env name operand) →
    Engine.evalItems { eng with other := other } env items = eng.evalItems env items
  | [], _ => rfl
  | v :: rest, h => by
    have hsize : sizeOf (v :: rest) = sizeOf v + sizeOf rest + 1 := by simp; omega
    have hv := eval_congr eng v fun name operand ho => h name operand (by omega)
    have hrest := evalItems_congr eng rest fun name operand ho => h name operand (by omega)
    simp only [Engine.evalItems, hv, hrest]
theorem evalFields_congr (eng : Engine) : ∀ (fields : List (String × Value)),
    (∀ name operand, sizeOf operand < sizeOf fields →
      other env name operand = eng.other env name operand) →
    Engine.evalFields { eng with other := other } env fields = eng.evalFields env fields
  | [], _ => rfl
  | (key, v) :: rest, h => by
    have hsize : sizeOf ((key, v) :: rest) = sizeOf key + sizeOf v + sizeOf rest + 2 := by
      simp; omega
    have hv := eval_congr eng v fun name operand ho => h name operand (by omega)
    have hrest := evalFields_congr eng rest fun name operand ho =>
      h name operand (by omega)
    simp only [Engine.evalFields, hv, hrest]
end

end Congruence

/-- An array operator evaluates values inside its operand. -/
theorem arrayOperator_congr {eng' : Engine} {name : String} {operand : Value}
    (h : ∀ env v, sizeOf v < sizeOf operand → eng.eval env v = eng'.eval env v) :
    arrayOperator base eng env name operand = arrayOperator base eng' env name operand := by
  unfold arrayOperator
  split
  · rw [h _ _ (by simp; omega)]
  · rw [h _ _ (by simp; omega), h _ _ (by simp; omega)]
  · rename_i input x body
    have hbody (env) := h env body (by simp; omega)
    rw [h env input (by simp; omega)]
    simp only [hbody]
  · rename_i input initial body
    have hbody (env) := h env body (by simp; omega)
    rw [h env input (by simp; omega), h env initial (by simp; omega)]
    simp only [hbody]
  · rfl

/-- How deep operators may be nested does not matter if it is no less than the value. -/
theorem eval_withArraysUpTo {n k : Nat} {v : Value} (hn : sizeOf v ≤ n) (hk : sizeOf v ≤ k) :
    (base.withArraysUpTo n).eval env v = (base.withArraysUpTo k).eval env v := by
  induction n generalizing k v env with
  | zero => cases v <;> simp at hn
  | succ n ih =>
    cases k with
    | zero => cases v <;> simp at hk
    | succ k =>
      refine eval_congr (base.withArraysUpTo (k + 1)) v fun name operand ho => ?_
      exact arrayOperator_congr fun env w hw => ih (by omega) (by omega)

theorem eval_withArrays {n : Nat} {v : Value} (hn : sizeOf v ≤ n) :
    base.withArrays.eval env v = (base.withArraysUpTo n).eval env v := by
  cases n with
  | zero => cases v <;> simp at hn
  | succ n =>
    refine eval_congr (base.withArraysUpTo (n + 1)) v fun name operand ho => ?_
    exact arrayOperator_congr fun env w hw => eval_withArraysUpTo (by omega) (by omega)

theorem eval_op_withArrays {name : String} (hname : isOperator name = true)
    (hlit : name ≠ "$literal") (hstrict : ∀ values, base.strict? name values = none)
    (operand : Value) :
    base.withArrays.eval env (op name operand) =
      arrayOperator base base.withArrays env name operand := by
  have hnone (values) : base.withArrays.strict? name values = none := hstrict values
  rw [eval_op hname, Engine.operator, if_neg hlit, hnone]
  exact arrayOperator_congr fun env v hv => (eval_withArrays (by omega)).symm

/-- Every engine can be given the array operators. -/
theorem readsArrays_withArrays (base : Engine) : base.withArrays.ReadsArrays where
  item h position := by
    refine (eval_op_withArrays rfl (by decide) (fun _ => rfl) _).trans ?_
    simp only [arrayOperator, h]
  binds env name value body := by
    rw [eval_op_withArrays rfl (by decide) (fun _ => rfl)]
    rfl
  maps h name body := by
    rw [eval_op_withArrays rfl (by decide) (fun _ => rfl)]
    simp only [arrayOperator, h]

theorem readsFolds_withArrays (base : Engine) : base.withArrays.ReadsFolds where
  toReadsArrays := readsArrays_withArrays base
  reduces h initial body := by
    rw [eval_op_withArrays rfl (by decide) (fun _ => rfl)]
    simp only [arrayOperator, h]

end DocQuery.Aggregation
