/-
How the database evaluates an aggregation expression on a document.

A string that begins with `$` is a path into the document, or into a variable
(`$$`). Arrays and documents are evaluated item by item, a document with one field
that begins with `$` is an operator, and `$literal` gives its operand as it is.
What the operators compute is left open (`Engine`): the strict ones are functions
of the values of their operands, all others are given their operand unevaluated.

A value without such strings and names is its own value (`eval_of_isInert`), and no
other value is under every engine (`isInert_of_eval`). What marks a constant
therefore has to look at the whole of it; `constant` looks at strings only
(`eval_constant_iff`).
-/
import DocQuery.Aggregation.Operand
import DocQuery.Filter.Algebra
import DocQuery.Proofs.Dotted

namespace DocQuery

open DocQuery.Filter (isOperator)

/-! ## Paths -/

mutual
/-- Value at the end of a path, if there is one. Of an array, the documents in it are followed. -/
def follow : Value → List String → Option Value
  | v, [] => some v
  | .document d, key :: path => followField d key path
  | .array items, key :: path => some (.array (followItems items key path))
  | _, _ :: _ => none
def followField : List (String × Value) → String → List String → Option Value
  | [], _, _ => none
  | (k, v) :: rest, key, path => if k = key then follow v path else followField rest key path
def followItems : List Value → String → List String → List Value
  | [], _, _ => []
  | .document d :: rest, key, path => (followField d key path).toList ++ followItems rest key path
  | _ :: rest, key, path => followItems rest key path
end

@[simp] theorem follow_nil (v : Value) : follow v [] = some v := by
  cases v <;> rfl

theorem follow_document (d : Document) (key : String) (path : List String) :
    follow (.document d) (key :: path) = (d.get? key).bind fun v => follow v path := by
  rw [follow]
  induction d with
  | nil => rfl
  | cons e rest ih =>
    obtain ⟨k, v⟩ := e
    by_cases hk : k = key
    · simp [followField, Document.get?, hk]
    · simp [followField, Document.get?, hk, ih]

namespace Aggregation

/-! ## Operators -/

/-- Operations on two values. -/
inductive Operation where
  | concat
  | add
  | subtract
  | multiply
  | divide
  | modulo
  | conjunction
  | disjunction
  | equal
  | notEqual
  | greater
  | greaterOrEqual
  | less
  | lessOrEqual
  /-- The first value unless it is null. -/
  | coalesce
deriving DecidableEq

namespace Operation

def ofName? : String → Option Operation
  | "$concat" => some concat
  | "$add" => some add
  | "$subtract" => some subtract
  | "$multiply" => some multiply
  | "$divide" => some divide
  | "$mod" => some modulo
  | "$and" => some conjunction
  | "$or" => some disjunction
  | "$eq" => some equal
  | "$ne" => some notEqual
  | "$gt" => some greater
  | "$gte" => some greaterOrEqual
  | "$lt" => some less
  | "$lte" => some lessOrEqual
  | "$ifNull" => some coalesce
  | _ => none

/-- Whether the operator takes two operands or more. -/
def isFold : Operation → Bool
  | concat | add | multiply | conjunction | disjunction => true
  | _ => false

end Operation

/-- The document and the variables that an expression is evaluated with. -/
structure Env where
  root : Document
  vars : Document := []

namespace Env

/-- Value of a variable. -/
def named (env : Env) (name : String) : Option Value :=
  if name = "ROOT" then some (.document env.root) else env.vars.get? name

/-- Value of a reference. -/
def read (env : Env) (reference : List Char) : Option Value :=
  match reference with
  | '$' :: '$' :: rest =>
    match steps (String.ofList rest) with
    | name :: path => (env.named name).bind fun v => follow v path
    | [] => none
  | '$' :: rest => follow (.document env.root) (steps (String.ofList rest))
  | _ => none

end Env

/-- What the operators compute. -/
structure Engine where
  binary : Operation → Value → Value → Value
  not : Value → Value
  /-- The second or the third value, by the first one. -/
  conditional : Value → Value → Value → Value
  /-- Any other operator, given its operand as it is written. -/
  other : Env → String → Value → Option Value
  /-- Whether a number or a truth value counts as true. -/
  isTrue : Value → Bool

/-- The operands of an operator: the items of a list, or a single one. A missing one is null. -/
def operands (operand : Value) (value : Option Value) : List Value :=
  match operand, value with
  | .array _, some (.array values) => values
  | _, value => [value.getD .null]

namespace Engine

variable (eng : Engine)

/-- An operation on a list of operands, from the left if there are more than two. -/
def combine? (op : Operation) (values : List Value) : Option Value :=
  match op.isFold, values with
  | true, a :: b :: rest => some ((b :: rest).foldl (eng.binary op) a)
  | false, [a, b] => some (eng.binary op a b)
  | _, _ => none

/-- A strict operator on its operands. -/
def strict? (name : String) (values : List Value) : Option Value :=
  match name, values with
  | "$not", [a] => some (eng.not a)
  | "$cond", [test, ifTrue, ifFalse] => some (eng.conditional test ifTrue ifFalse)
  | name, values => (Operation.ofName? name).bind fun op => eng.combine? op values

/-- An operator on an operand and its value. -/
def operator (env : Env) (name : String) (operand : Value) (value : Option Value) : Option Value :=
  if name = "$literal" then some operand
  else
    match eng.strict? name (operands operand value) with
    | some result => some result
    | none => eng.other env name operand

mutual
/-- Value of an expression, if it has one. -/
def eval (env : Env) : Value → Option Value
  | .string s => if isOperator s then env.read s.toList else some (.string s)
  | .array items => some (.array (evalItems env items))
  | .document fields => evalDocument env fields
  | v => some v
def evalItems (env : Env) : List Value → List Value
  | [] => []
  | v :: rest => (eval env v).getD .null :: evalItems env rest
/-- Value of a document: that of the operator, if it has one, or of its fields. -/
def evalDocument (env : Env) : List (String × Value) → Option Value
  | [] => some (.document [])
  | (key, v) :: rest =>
    let value := eval env v
    if isOperator key then
      if rest.isEmpty then eng.operator env key v value else none
    else (evalFields env rest).map fun fields => .document (value.toList.map (key, ·) ++ fields)
def evalFields (env : Env) : List (String × Value) → Option (List (String × Value))
  | [] => some []
  | (key, v) :: rest =>
    let value := eval env v
    if isOperator key then none
    else (evalFields env rest).map fun fields => value.toList.map (key, ·) ++ fields
end

end Engine

/-! ## Operators in expressions -/

variable {eng : Engine} {env : Env}

theorem evalItems_eq_map (items : List Value) :
    eng.evalItems env items = items.map fun v => (eng.eval env v).getD .null := by
  induction items with
  | nil => rfl
  | cons v rest ih => simp only [Engine.evalItems, ih, List.map_cons]

theorem eval_op {name : String} (hname : isOperator name = true) (operand : Value) :
    eng.eval env (op name operand) = eng.operator env name operand (eng.eval env operand) := by
  simp only [op, Value.single, Engine.eval, Engine.evalDocument, hname, if_true, List.isEmpty_nil]

@[simp] theorem eval_literal (v : Value) : eng.eval env (op "$literal" v) = some v := by
  rw [eval_op rfl]
  rfl

/-- A strict operator on a list of operands that it can have. -/
theorem eval_opAll {name : String} (hname : isOperator name = true) (hlit : name ≠ "$literal")
    {items : List Value} {result : Value}
    (h : eng.strict? name (eng.evalItems env items) = some result) :
    eng.eval env (opAll name items) = some result := by
  have hop : opAll name items = op name (.array items) := rfl
  rw [hop, eval_op hname]
  simp only [Engine.operator, hlit, if_false, Engine.eval, operands, h]

/-! ## Documents of fields -/

theorem evalFields_eq_filterMap {fields : Document} (h : ∀ k ∈ fields.keys, isOperator k = false) :
    eng.evalFields env fields =
      some (fields.filterMap fun (k, v) => (eng.eval env v).map (k, ·)) := by
  induction fields with
  | nil => rfl
  | cons e rest ih =>
    obtain ⟨k, v⟩ := e
    have hk : isOperator k = false := h k (by simp [Document.keys])
    have hrest := ih fun k' hk' => h k' (by simp_all [Document.keys])
    rw [Engine.evalFields, hk, hrest, List.filterMap_cons]
    cases hv : eng.eval env v <;> simp [hv]

/-- A document of fields is the document of their values. -/
theorem eval_document {fields : Document} (h : ∀ k ∈ fields.keys, isOperator k = false) :
    eng.eval env (.document fields) =
      some (.document (fields.filterMap fun (k, v) => (eng.eval env v).map (k, ·))) := by
  cases fields with
  | nil => rfl
  | cons e rest =>
    obtain ⟨k, v⟩ := e
    have hfields : eng.evalFields env ((k, v) :: rest) = _ := evalFields_eq_filterMap h
    have hk : isOperator k = false := h k (by simp [Document.keys])
    rw [Engine.evalFields, hk] at hfields
    rw [Engine.eval, Engine.evalDocument, hk]
    simp only [Bool.false_eq_true, if_false] at hfields ⊢
    obtain ⟨values, hvalues, heq⟩ := Option.map_eq_some_iff.1 hfields
    rw [hvalues, ← heq]
    rfl

/-! ## Constants -/

mutual
/-- Whether a value has no string and no field name that begins with `$`, at any depth. -/
def isInert : Value → Bool
  | .string s => !isOperator s
  | .array items => areInert items
  | .document fields => fieldsInert fields
  | _ => true
def areInert : List Value → Bool
  | [] => true
  | v :: rest => isInert v && areInert rest
def fieldsInert : List (String × Value) → Bool
  | [] => true
  | (key, v) :: rest => !isOperator key && isInert v && fieldsInert rest
end

mutual
theorem eval_of_isInert : ∀ {v : Value}, isInert v = true → eng.eval env v = some v
  | .string s, h => by simp_all [isInert, Engine.eval]
  | .array items, h => by rw [Engine.eval, evalItems_of_areInert (by simpa [isInert] using h)]
  | .document [], _ => rfl
  | .document ((key, v) :: rest), h => by
    simp only [isInert, fieldsInert, Bool.and_eq_true, Bool.not_eq_true'] at h
    obtain ⟨⟨hkey, hv⟩, hrest⟩ := h
    simp [Engine.eval, Engine.evalDocument, hkey, eval_of_isInert hv,
      evalFields_of_fieldsInert hrest]
  | .null, _ | .bool _, _ | .int32 _, _ | .int64 _, _ | .double _, _ | .objectId _, _
  | .dateTime _, _ | .regex .., _ | .decimal _, _ | .binary _, _ | .timestamp .., _
  | .symbol _, _ | .javaScript _, _ | .minKey, _ | .maxKey, _ | .undefined, _ => rfl
theorem evalItems_of_areInert : ∀ {items : List Value}, areInert items = true →
    eng.evalItems env items = items
  | [], _ => rfl
  | v :: rest, h => by
    simp only [areInert, Bool.and_eq_true] at h
    simp [Engine.evalItems, eval_of_isInert h.1, evalItems_of_areInert h.2]
theorem evalFields_of_fieldsInert : ∀ {fields : List (String × Value)}, fieldsInert fields = true →
    eng.evalFields env fields = some fields
  | [], _ => rfl
  | (key, v) :: rest, h => by
    simp only [fieldsInert, Bool.and_eq_true, Bool.not_eq_true'] at h
    obtain ⟨⟨hkey, hv⟩, hrest⟩ := h
    simp [Engine.evalFields, hkey, eval_of_isInert hv, evalFields_of_fieldsInert hrest]
end

/-- An engine whose operators give null. -/
def idle : Engine where
  binary _ _ _ := .null
  not _ := .null
  conditional _ _ _ := .null
  other _ _ _ := some .null
  isTrue _ := false

theorem strict?_idle {name : String} {values : List Value} {result : Value}
    (h : idle.strict? name values = some result) : result = .null := by
  have hfold (op : Operation) (a b : Value) (rest : List Value) :
      (b :: rest).foldl (idle.binary op) a = .null := by
    induction rest generalizing a b with
    | nil => rfl
    | cons c rest ih => exact ih _ c
  unfold Engine.strict? at h
  split at h
  · cases h; rfl
  · cases h; rfl
  · obtain ⟨op, -, h⟩ := Option.bind_eq_some_iff.1 h
    unfold Engine.combine? at h
    split at h
    · cases h; exact hfold ..
    · cases h; rfl
    · cases h

theorem read_empty_ne_string (reference : List Char) (s : String) :
    Env.read { root := [] } reference ≠ some (.string s) := by
  have hroot : ∀ path, follow (.document []) path ≠ some (.string s)
    | [] => by simp
    | key :: path => by simp [follow_document, Document.get?]
  unfold Env.read
  split
  · split
    · rename_i name path _
      unfold Env.named
      split
      · exact hroot path
      · simp [Document.get?]
    · simp
  · exact hroot _
  · simp

theorem length_le_of_evalFields {fields values : List (String × Value)}
    (h : eng.evalFields env fields = some values) : values.length ≤ fields.length := by
  induction fields generalizing values with
  | nil => cases h; simp
  | cons e rest ih =>
    obtain ⟨key, v⟩ := e
    simp only [Engine.evalFields] at h
    split at h
    · cases h
    · obtain ⟨values', hrest, rfl⟩ := Option.map_eq_some_iff.1 h
      have := ih hrest
      cases eng.eval env v <;> simp <;> omega

/-- A field that keeps its value, with others that keep theirs. -/
theorem field_eq_of_append {key : String} {v : Value} {value : Option Value}
    {rest values : List (String × Value)} (hlen : values.length ≤ rest.length)
    (h : value.toList.map (key, ·) ++ values = (key, v) :: rest) :
    value = some v ∧ values = rest := by
  cases value with
  | none =>
    have := congrArg List.length h
    simp at this
    omega
  | some x => simpa using h

mutual
/-- What is its own value under the idle engine, with nothing to refer to, is inert. -/
theorem isInert_of_eval : ∀ {v : Value}, idle.eval { root := [] } v = some v → isInert v = true
  | .string s, h => by
    cases hs : isOperator s with
    | false => simp [isInert, hs]
    | true =>
      simp only [Engine.eval, hs, if_true] at h
      exact absurd h (read_empty_ne_string _ s)
  | .array items, h => by
    simp only [Engine.eval, Option.some.injEq, Value.array.injEq] at h
    exact areInert_of_evalItems h
  | .document [], _ => rfl
  | .document ((key, v) :: rest), h => by
    simp only [Engine.eval, Engine.evalDocument] at h
    split at h
    · split at h
      · unfold Engine.operator at h
        split at h
        · have := congrArg sizeOf (Option.some.inj h)
          simp at this
          omega
        · split at h
          · rename_i hstrict
            cases h
            cases strict?_idle hstrict
          · cases h
      · cases h
    · rename_i hkey
      obtain ⟨values, hrest, hdoc⟩ := Option.map_eq_some_iff.1 h
      obtain ⟨hv, rfl⟩ := field_eq_of_append (length_le_of_evalFields hrest) (by simpa using hdoc)
      simp [isInert, fieldsInert, hkey, isInert_of_eval hv, fieldsInert_of_evalFields hrest]
  | .null, _ | .bool _, _ | .int32 _, _ | .int64 _, _ | .double _, _ | .objectId _, _
  | .dateTime _, _ | .regex .., _ | .decimal _, _ | .binary _, _ | .timestamp .., _
  | .symbol _, _ | .javaScript _, _ | .minKey, _ | .maxKey, _ | .undefined, _ => rfl
theorem areInert_of_evalItems : ∀ {items : List Value},
    idle.evalItems { root := [] } items = items → areInert items = true
  | [], _ => rfl
  | v :: rest, h => by
    simp only [Engine.evalItems, List.cons.injEq] at h
    have hv : idle.eval { root := [] } v = some v := by
      cases hv : idle.eval { root := [] } v with
      | some x => rw [hv] at h; exact congrArg some h.1
      | none =>
        rw [hv] at h
        obtain rfl : Value.null = v := h.1
        cases hv
    simp [areInert, isInert_of_eval hv, areInert_of_evalItems h.2]
theorem fieldsInert_of_evalFields : ∀ {fields : List (String × Value)},
    idle.evalFields { root := [] } fields = some fields → fieldsInert fields = true
  | [], _ => rfl
  | (key, v) :: rest, h => by
    simp only [Engine.evalFields] at h
    split at h
    · cases h
    · rename_i hkey
      obtain ⟨values, hrest, hfields⟩ := Option.map_eq_some_iff.1 h
      obtain ⟨hv, rfl⟩ := field_eq_of_append (length_le_of_evalFields hrest) hfields
      simp [fieldsInert, hkey, isInert_of_eval hv, fieldsInert_of_evalFields hrest]
end

/-- A value is its own under every engine exactly if it is inert. -/
theorem eval_self_iff {v : Value} :
    (∀ (eng : Engine) (env : Env), eng.eval env v = some v) ↔ isInert v = true :=
  ⟨fun h => isInert_of_eval (h idle _), fun h _ _ => eval_of_isInert h⟩

/-- Whether a value that is written as a constant stands for itself: a string always does. -/
def isQuoted : Value → Bool
  | .string _ => true
  | v => isInert v

theorem eval_constant {v : Value} (h : isQuoted v = true) :
    eng.eval env (constant v) = some v := by
  unfold constant
  split
  · rename_i s
    split
    · exact eval_literal _
    · rename_i hs
      exact eval_of_isInert (by simpa [isInert, isOperator] using hs)
  · rename_i hstring
    refine eval_of_isInert ?_
    cases v with
    | string s => exact absurd rfl (hstring s)
    | _ => exact h

/-- A constant stands for itself under every engine exactly if it is a string or inert. -/
theorem eval_constant_iff {v : Value} :
    (∀ (eng : Engine) (env : Env), eng.eval env (constant v) = some v) ↔ isQuoted v = true := by
  refine ⟨fun h => ?_, fun h _ _ => eval_constant h⟩
  cases v with
  | string s => rfl
  | _ => exact eval_self_iff.1 h

/-- A member of a stage has the value of the expression. -/
@[simp] theorem eval_stageMember (v : Value) : eng.eval env (stageMember v) = eng.eval env v := by
  cases v <;> rfl

end Aggregation
end DocQuery
