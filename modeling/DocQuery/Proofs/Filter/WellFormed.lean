/-
The form of filters (`isWellFormed`): the keys of a filter are names of fields, or
logical operators over lists of filters that are not empty; a field has a value, a
pattern or operators; and each operator has an operand that it can have. The
operand of `$elemMatch` is a condition on the item itself, or a filter in which no
test is of the item itself.

Conjunction, disjunction and complement keep the form (`isWellFormed_conj`,
`isWellFormed_disj`, `isWellFormed_complement`), and a condition on array items is
an operand of that form or is rejected (`operandFits_elemMatch`). So all filters
that are built from values without operators in them have it
(`isWellFormed_of_built`).
-/
import DocQuery.Proofs.Filter.Emitted

namespace DocQuery

open DocQuery.Filter

namespace Filter

/-! ## The form -/

/-- Whether a value stands for itself wherever it is written: it is no pattern, and no document in
it has an operator. -/
def isLiteral (x : Value) : Bool := isPlain x && x.avoids isOperator

/-- Whether an operator has a value as its operand. Only a condition on the item itself writes
equality as an operator. -/
def takesValue (item : Bool) (op : String) : Bool := op ∈ valueOperators || (item && op = "$eq")

/-- Whether a key can name a field. The empty name stands for the tested value itself. -/
def isFieldName (bare : Bool) (key : String) : Bool := !isOperator key && (bare || key ≠ "")

mutual
/-- Whether the operators on a field, or on an array item itself, have operands that fit. -/
def operatorsFit (item : Bool) : List (String × Value) → Bool
  | [] => true
  | (op, x) :: rest => operandFits item op x && operatorsFit item rest
def operandFits (item : Bool) (op : String) : Value → Bool
  | .document d =>
    if op = "$not" then !d.isEmpty && operatorsFit false d
    else if op = "$elemMatch" then !d.isEmpty && operatorsFit true d || isWellFormed false d
    else takesValue item op && isLiteral (.document d)
  | .array items => (op ∈ listOperators || takesValue item op) && isLiteral (.array items)
  | .regex _ _ => op = "$not" || (item && op = "$regex")
  | _ => takesValue item op
/-- Whether a filter is well formed. Whether it may have tests under the empty name is given. -/
def isWellFormed (bare : Bool) : List (String × Value) → Bool
  | [] => true
  | (key, x) :: rest => entryFits bare key x && isWellFormed bare rest
def entryFits (bare : Bool) (key : String) : Value → Bool
  | .array clauses =>
    if isLogical key then !clauses.isEmpty && clausesFit bare clauses
    else isFieldName bare key && isLiteral (.array clauses)
  | .document d =>
    isFieldName bare key && (isLiteral (.document d) || (!d.isEmpty && operatorsFit false d))
  | _ => isFieldName bare key
def clausesFit (bare : Bool) : List Value → Bool
  | [] => true
  | .document d :: rest => isWellFormed bare d && clausesFit bare rest
  | _ :: _ => false
end

/-- Whether a field can have a condition: a value, a pattern, or operators. -/
def conditionFits : Value → Bool
  | .document d => isLiteral (.document d) || (!d.isEmpty && operatorsFit false d)
  | .regex _ _ => true
  | x => isLiteral x

/-- Whether `$elemMatch` can have an operand: operators on the item itself, or a filter that does
not test the item itself. -/
def itemFits (d : Document) : Bool := !d.isEmpty && operatorsFit true d || isWellFormed false d

/-! ## Lists of entries and of clauses -/

variable {bare item : Bool}

theorem isWellFormed_iff {d : Document} :
    isWellFormed bare d = true ↔ ∀ e ∈ d, entryFits bare e.1 e.2 = true := by
  induction d with
  | nil => simp [isWellFormed]
  | cons e rest ih =>
    obtain ⟨key, x⟩ := e
    simp [isWellFormed, ih]

theorem operatorsFit_iff {ops : Document} :
    operatorsFit item ops = true ↔ ∀ e ∈ ops, operandFits item e.1 e.2 = true := by
  induction ops with
  | nil => simp [operatorsFit]
  | cons e rest ih =>
    obtain ⟨op, x⟩ := e
    simp [operatorsFit, ih]

theorem clausesFit_iff {clauses : List Value} :
    clausesFit bare clauses = true ↔
      ∀ c ∈ clauses, ∃ d, c = .document d ∧ isWellFormed bare d = true := by
  induction clauses with
  | nil => simp [clausesFit]
  | cons c rest ih => cases c <;> simp [clausesFit, ih]

theorem isWellFormed_singleton {key : String} {x : Value} :
    isWellFormed bare [(key, x)] = entryFits bare key x := by
  simp [isWellFormed]

/-- A list of clauses that is not empty stands under a logical operator. -/
theorem entryFits_logical {key : String} (hk : isLogical key = true) {clauses : List Value} :
    entryFits bare key (.array clauses) = (!clauses.isEmpty && clausesFit bare clauses) := by
  simp [entryFits, hk]

theorem isLogical_of_not_isOperator {key : String} (h : isOperator key = false) :
    isLogical key = false := by
  cases hl : isLogical key with
  | false => rfl
  | true =>
    rw [isOperator_of_isLogical hl] at h
    cases h

theorem entryFits_field {key : String} (h : isOperator key = false) (x : Value) :
    entryFits bare key x = (isFieldName bare key && conditionFits x) := by
  have hl := isLogical_of_not_isOperator h
  cases x <;> simp [entryFits, conditionFits, hl, isLiteral, isPlain, Value.avoids]

/-- Under an operator there is a list of clauses. -/
theorem exists_clauses_of_entryFits {key : String} {x : Value} (h : entryFits bare key x = true)
    (hk : isOperator key = true) :
    isLogical key = true ∧ ∃ clauses, x = .array clauses ∧ clauses ≠ [] ∧
      clausesFit bare clauses = true := by
  cases x with
  | array clauses =>
    by_cases hl : isLogical key = true
    · rw [entryFits_logical hl, Bool.and_eq_true] at h
      exact ⟨hl, clauses, rfl, by simpa using h.1, h.2⟩
    · simp [entryFits, hl, isFieldName, hk] at h
  | document d => simp [entryFits, isFieldName, hk] at h
  | _ => simp [entryFits, isFieldName, hk] at h

/-- Operators are no value. -/
theorem not_isLiteral_of_isOperators {d : Document} (h : isOperators d = true) :
    isLiteral (.document d) = false := by
  simp [isLiteral, isPlain, h]

/-- Every operand stands under an operator. -/
theorem isOperator_of_operandFits {op : String} {x : Value} (h : operandFits item op x = true) :
    isOperator op = true := by
  have htakes : takesValue item op = true → isOperator op = true := by
    intro ht
    simp only [takesValue, Bool.or_eq_true, decide_eq_true_eq, Bool.and_eq_true] at ht
    rcases ht with ht | ⟨-, rfl⟩
    · exact (by decide : ∀ op ∈ valueOperators, isOperator op = true) op ht
    · rfl
  cases x with
  | document d =>
    rw [operandFits] at h
    split at h
    · rename_i hop
      rw [hop]
      rfl
    · split at h
      · rename_i hop
        rw [hop]
        rfl
      · rw [Bool.and_eq_true] at h
        exact htakes h.1
  | array items =>
    simp only [operandFits, Bool.and_eq_true, Bool.or_eq_true, decide_eq_true_eq] at h
    rcases h.1 with hop | hop
    · exact (by decide : ∀ op ∈ listOperators, isOperator op = true) op hop
    · exact htakes hop
  | regex pattern options =>
    simp only [operandFits, Bool.or_eq_true, decide_eq_true_eq, Bool.and_eq_true] at h
    rcases h with rfl | ⟨-, rfl⟩ <;> rfl
  | _ => exact htakes h

theorem isOperators_of_operatorsFit {ops : Document} (hne : ops ≠ [])
    (h : operatorsFit item ops = true) : isOperators ops = true := by
  rw [operatorsFit_iff] at h
  rw [isOperators, Bool.and_eq_true, List.all_eq_true]
  exact ⟨by simpa using hne, fun e he => isOperator_of_operandFits (h e he)⟩

/-- Operators among the conditions of a field fit. -/
theorem operatorsFit_of_conditionFits {ops : Document} (h : conditionFits (.document ops) = true)
    (ho : isOperators ops = true) : operatorsFit false ops = true := by
  simp only [conditionFits, not_isLiteral_of_isOperators ho, Bool.false_or, Bool.and_eq_true] at h
  exact h.2

theorem conditionFits_of_operatorsFit {ops : Document} (hne : ops ≠ [])
    (h : operatorsFit false ops = true) : conditionFits (.document ops) = true := by
  have hempty : ops.isEmpty = false := by simpa using hne
  simp [conditionFits, h, hempty]

/-- A condition that is neither a pattern nor operators is a value. -/
theorem isLiteral_of_conditionFits {x : Value} (h : conditionFits x = true)
    (hp : isPlain x = true) : isLiteral x = true := by
  cases x with
  | document d =>
    simp only [conditionFits, Bool.or_eq_true, Bool.and_eq_true] at h
    rcases h with h | h
    · exact h
    · have hops := isOperators_of_operatorsFit (by simpa using h.1) h.2
      simp [isPlain, hops] at hp
  | regex pattern options => cases hp
  | _ => exact h

/-- Operators on a field are operators on an item as well. -/
theorem operandFits_item {op : String} {x : Value} (h : operandFits false op x = true) :
    operandFits true op x = true := by
  have htakes : takesValue false op = true → takesValue true op = true := by
    intro ht
    simp only [takesValue, Bool.false_and, Bool.or_false] at ht
    simp only [takesValue, ht, Bool.true_or]
  cases x with
  | document d =>
    rw [operandFits] at h ⊢
    split at h
    · rename_i hop
      rw [if_pos hop]
      exact h
    · rename_i hop
      rw [if_neg hop]
      split at h
      · rename_i hop'
        rw [if_pos hop']
        exact h
      · rename_i hop'
        rw [Bool.and_eq_true] at h
        rw [if_neg hop', htakes h.1, h.2]
        rfl
  | array items =>
    simp only [operandFits, Bool.and_eq_true, Bool.or_eq_true] at h ⊢
    exact ⟨h.1.imp_right htakes, h.2⟩
  | regex pattern options =>
    simp only [operandFits, Bool.false_and, Bool.or_false] at h
    simp only [operandFits, h, Bool.true_or]
  | _ => exact htakes h

/-! ## Conjunction -/

theorem isWellFormed_promote {d : Document} {key : String} {x : Value}
    (hd : isWellFormed bare d = true) (hx : entryFits bare key x = true) :
    isWellFormed bare (promote d key x) = true := by
  rw [promote, isWellFormed_singleton, entryFits_logical rfl, Bool.and_eq_true, clausesFit_iff]
  refine ⟨by simp, ?_⟩
  intro c hc
  obtain ⟨⟨k, y⟩, he, rfl⟩ := List.mem_map.1 hc
  refine ⟨[(k, y)], rfl, ?_⟩
  rw [isWellFormed_singleton]
  rcases List.mem_append.1 he with he | he
  · exact isWellFormed_iff.1 hd _ he
  · cases List.mem_singleton.1 he
    exact hx

theorem isWellFormed_insert {d : Document} {key : String} {x : Value}
    (hd : isWellFormed bare d = true) (hx : entryFits bare key x = true) :
    isWellFormed bare (d.insert key x) = true := by
  rw [isWellFormed_iff]
  intro e he
  rcases Document.mem_insert he with rfl | he
  · exact hx
  · exact isWellFormed_iff.1 hd e he

/-- Operators that join those of a field that is tested already. -/
theorem operatorsFit_joined {present incoming : Document} (hp : operatorsFit item present = true)
    (hi : operatorsFit item incoming = true) :
    operatorsFit item (incoming.foldl (fun d (k, v) => Document.insert d k v) present) = true := by
  rw [operatorsFit_iff] at hp hi ⊢
  intro e he
  rcases Document.mem_of_mem_foldl_insert he with he | he
  · exact hp e he
  · exact hi e he

theorem isWellFormed_addTest {d : Document} {key : String} {x : Value}
    (hd : isWellFormed bare d = true) (hx : entryFits bare key x = true) :
    isWellFormed bare (addTest d key x) = true := by
  unfold addTest
  split
  · exact isWellFormed_insert hd hx
  · rename_i present hkey
    split
    · rename_i incoming
      split
      · rename_i hjoin
        simp only [Bool.and_eq_true] at hjoin
        obtain ⟨⟨hp, hi⟩, -⟩ := hjoin
        have hop : isOperator key = false := by
          cases hop : isOperator key with
          | false => rfl
          | true =>
            obtain ⟨-, clauses, hclauses, -⟩ := exists_clauses_of_entryFits hx hop
            cases hclauses
        have hpresent := isWellFormed_iff.1 hd _ (Document.mem_of_get? hkey)
        rw [entryFits_field hop, Bool.and_eq_true] at hx hpresent
        have hall := operatorsFit_joined (operatorsFit_of_conditionFits hpresent.2 hp)
          (operatorsFit_of_conditionFits hx.2 hi)
        refine isWellFormed_insert hd ?_
        rw [entryFits_field hop, Bool.and_eq_true]
        refine ⟨hx.1, conditionFits_of_operatorsFit ?_ hall⟩
        intro hnil
        have hkeys : ∀ k ∈ Document.keys incoming, k ∈ Document.keys ([] : Document) := by
          intro k hk
          rw [← hnil]
          exact Document.mem_keys_foldl_insert.2 (.inr hk)
        have hempty : incoming = [] := by
          simpa [Document.keys, List.eq_nil_iff_forall_not_mem] using hkeys
        rw [hempty] at hi
        cases hi
      · exact isWellFormed_promote hd hx
    · exact isWellFormed_promote hd hx
  · exact isWellFormed_promote hd hx

theorem isWellFormed_foldl_addTest {d clause : Document} (hd : isWellFormed bare d = true)
    (hc : isWellFormed bare clause = true) :
    isWellFormed bare (clause.foldl (fun d (k, x) => addTest d k x) d) = true := by
  induction clause generalizing d with
  | nil => exact hd
  | cons e rest ih =>
    obtain ⟨key, x⟩ := e
    simp only [isWellFormed, Bool.and_eq_true] at hc
    exact ih (isWellFormed_addTest hd hc.1) hc.2

theorem isWellFormed_addTests {d clause : Document} (hd : isWellFormed bare d = true)
    (hc : isWellFormed bare clause = true) : isWellFormed bare (addTests d clause) = true := by
  unfold addTests
  split
  · rename_i hand
    obtain ⟨x, rfl⟩ := eq_singleton_of_only? hand
    rw [isWellFormed_singleton] at hd
    obtain ⟨hl, clauses, rfl, -, hclauses⟩ := exists_clauses_of_entryFits hd rfl
    have happ : append [("$and", .array clauses)] clause =
        [("$and", .array (clauses ++ [.document clause]))] := by
      simp [append, Document.get?, Document.insert]
    rw [happ, isWellFormed_singleton, entryFits_logical hl, Bool.and_eq_true, clausesFit_iff]
    refine ⟨by simp, ?_⟩
    intro c hmem
    rcases List.mem_append.1 hmem with hmem | hmem
    · exact clausesFit_iff.1 hclauses c hmem
    · exact ⟨clause, List.mem_singleton.1 hmem, hc⟩
  · exact isWellFormed_foldl_addTest hd hc

/-- Adding a clause keeps the form, also where the clauses under its `$and` are added one by
one. -/
theorem isWellFormed_addClause {d clause : Document} (hd : isWellFormed bare d = true)
    (hc : isWellFormed bare clause = true) : isWellFormed bare (addClause d clause) = true := by
  refine addClause.induct
    (fun d clause => isWellFormed bare d = true → isWellFormed bare clause = true →
      isWellFormed bare (addClause d clause) = true)
    (fun d items => isWellFormed bare d = true → clausesFit bare items = true →
      isWellFormed bare (addItems d items) = true)
    ?empty ?listed ?other ?plain ?noItem ?clause ?noClause d clause hd hc
  case empty =>
    intro d hd _
    rwa [addClause]
  case listed =>
    intro d items ih hd hc
    rw [isWellFormed_singleton, entryFits_logical rfl, Bool.and_eq_true] at hc
    simpa [addClause] using ih hd hc.2
  case other =>
    intro d key items hk hd hc
    simpa [addClause, hk] using isWellFormed_addTests hd hc
  case plain =>
    intro d clause hne hnl hd hc
    have heq : addClause d clause = addTests d clause := by
      unfold addClause
      split
      · exact (hne rfl).elim
      · exact (hnl _ _ rfl).elim
      · rfl
    rw [heq]
    exact isWellFormed_addTests hd hc
  case noItem =>
    intro d hd _
    rwa [addItems]
  case clause =>
    intro d clause rest ihClause ihRest hd hi
    simp only [clausesFit, Bool.and_eq_true] at hi
    rw [addItems]
    exact ihRest (ihClause hd hi.1) hi.2
  case noClause =>
    intro d item rest hitem _ _ hi
    cases item <;> simp_all [clausesFit]

theorem isWellFormed_conj {a b : Document} (ha : isWellFormed bare a = true)
    (hb : isWellFormed bare b = true) : isWellFormed bare (conj [a, b]) = true :=
  isWellFormed_addClause (isWellFormed_addClause rfl ha) hb

/-! ## Disjunction and complement -/

/-- The alternatives of a clause are clauses, and there is one at least. -/
theorem clausesFit_alternatives {clause : Document} (hc : isWellFormed bare clause = true) :
    clausesFit bare (alternatives clause) = true ∧ alternatives clause ≠ [] := by
  unfold alternatives
  split
  · rename_i items hor
    obtain ⟨x, rfl⟩ := eq_singleton_of_only? (by rw [hor]; rfl)
    have hitems : x = .array items := by simpa [Document.only?] using hor
    rw [isWellFormed_singleton, hitems, entryFits_logical rfl, Bool.and_eq_true] at hc
    exact ⟨hc.2, by simpa using hc.1⟩
  · simp [clausesFit, hc]

theorem isWellFormed_disj {a b : Document} (ha : isWellFormed bare a = true)
    (hb : isWellFormed bare b = true) : isWellFormed bare (disj [a, b]) = true := by
  obtain ⟨hfita, hnea⟩ := clausesFit_alternatives ha
  obtain ⟨hfitb, -⟩ := clausesFit_alternatives hb
  rw [disj, test, isWellFormed_singleton, entryFits_logical rfl, Bool.and_eq_true, clausesFit_iff]
  refine ⟨by simp [hnea], ?_⟩
  intro c hc
  simp only [List.flatMap_cons, List.flatMap_nil, List.append_nil, List.mem_append] at hc
  rcases hc with hc | hc
  · exact clausesFit_iff.1 hfita c hc
  · exact clausesFit_iff.1 hfitb c hc

theorem isWellFormed_nor {d : Document} (hd : isWellFormed bare d = true) :
    isWellFormed bare (nor d) = true := by
  rw [nor, test, isWellFormed_singleton, entryFits_logical rfl]
  simp [clausesFit, hd]

theorem isWellFormed_test {name : String} (hn : isFieldName bare name = true) {x : Value}
    (hx : conditionFits x = true) : isWellFormed bare (test name x) = true := by
  have hop : isOperator name = false := by
    simp only [isFieldName, Bool.and_eq_true, Bool.not_eq_true'] at hn
    exact hn.1
  rw [test, isWellFormed_singleton, entryFits_field hop, hn, hx]
  rfl

theorem conditionFits_single {op : String} {x : Value} (hx : operandFits false op x = true) :
    conditionFits (.single op x) = true :=
  conditionFits_of_operatorsFit (by simp) (by simpa [operatorsFit] using hx)

theorem isWellFormed_testOp {name op : String} (hn : isFieldName bare name = true) {x : Value}
    (hx : operandFits false op x = true) : isWellFormed bare (testOp name op x) = true :=
  isWellFormed_test hn (conditionFits_single hx)

theorem conditionFits_of_isLiteral {x : Value} (h : isLiteral x = true) :
    conditionFits x = true := by
  cases x <;> simp_all [conditionFits]

/-- An operator that takes a value takes every value. -/
theorem operandFits_of_isLiteral {op : String} {x : Value} (ho : takesValue item op = true)
    (hx : isLiteral x = true) : operandFits item op x = true := by
  have hop : op ≠ "$not" ∧ op ≠ "$elemMatch" := by
    constructor <;> rintro rfl <;> cases item <;> revert ho <;> decide
  cases x with
  | regex pattern options => cases hx
  | document d => simp [operandFits, hop.1, hop.2, ho, hx]
  | array items => simp [operandFits, ho, hx]
  | _ => exact ho

/-- What `$not` refuses is a condition. -/
theorem conditionFits_of_not {x : Value} (h : operandFits false "$not" x = true) :
    conditionFits x = true := by
  cases x with
  | document d =>
    simp only [operandFits, if_true] at h
    simp [conditionFits, h]
  | array items => exact absurd h (by simp [operandFits, takesValue, valueOperators, listOperators])
  | regex pattern options => rfl
  | _ => exact absurd h (by simp [operandFits, takesValue, valueOperators])

/-- What differs from a value by `$ne` equals it otherwise. -/
theorem conditionFits_of_ne {x : Value} (h : operandFits false "$ne" x = true) :
    conditionFits x = true := by
  cases x with
  | document d =>
    have hliteral : isLiteral (.document d) = true := by
      simpa [operandFits, takesValue, valueOperators] using h
    exact conditionFits_of_isLiteral hliteral
  | array items =>
    simp only [operandFits, Bool.and_eq_true] at h
    exact conditionFits_of_isLiteral h.2
  | _ => rfl

/-- All operators that have a list can have the same lists. -/
theorem operandFits_list {op op' : String} (ho : op ∈ listOperators) (ho' : op' ∈ listOperators)
    {x : Value} (h : operandFits false op x = true) : operandFits false op' x = true := by
  have hno : ∀ o ∈ listOperators,
      takesValue false o = false ∧ o ≠ "$not" ∧ o ≠ "$elemMatch" := by decide
  obtain ⟨htakes, hnot, helem⟩ := hno op ho
  cases x with
  | array items =>
    simp only [operandFits, Bool.and_eq_true] at h
    simp [operandFits, ho', h.2]
  | document d => simp [operandFits, hnot, helem, htakes] at h
  | regex pattern options => simp [operandFits, hnot] at h
  | _ => simp [operandFits, htakes] at h

theorem operandFits_not {ops : Document} (hne : ops ≠ []) (h : operatorsFit false ops = true) :
    operandFits false "$not" (.document ops) = true := by
  have hempty : ops.isEmpty = false := by simpa using hne
  simp [operandFits, h, hempty]

theorem isWellFormed_complementOperators {name : String} {ops : Document}
    (hn : isFieldName bare name = true) (hne : ops ≠ []) (ho : operatorsFit false ops = true) :
    isWellFormed bare (complementOperators name ops) = true := by
  unfold complementOperators
  split
  · rename_i op x
    have hx : operandFits false op x = true := by simpa [operatorsFit] using ho
    split
    · exact isWellFormed_testOp hn rfl
    · exact isWellFormed_testOp hn (operandFits_list (by decide) (by decide) hx)
    · exact isWellFormed_testOp hn (operandFits_list (by decide) (by decide) hx)
    · exact isWellFormed_test hn (conditionFits_of_ne hx)
    · exact isWellFormed_test hn (conditionFits_of_not hx)
    · exact isWellFormed_testOp hn (operandFits_not hne ho)
  · exact isWellFormed_nor (isWellFormed_test hn (conditionFits_of_operatorsFit hne ho))

theorem isWellFormed_complement {d : Document} (hd : isWellFormed bare d = true) :
    isWellFormed bare (complement d) = true := by
  unfold complement
  split
  · rename_i name x
    have hx := hd
    rw [isWellFormed_singleton] at hx
    split
    · -- The clauses under `$or` and `$nor` stay, so that the list is not empty.
      split
      · rwa [entryFits_logical rfl] at hx
      · rwa [entryFits_logical rfl] at hx
      · exact isWellFormed_nor hd
    · rename_i hop
      have hop : isOperator name = false := by simpa using hop
      rw [entryFits_field hop, Bool.and_eq_true] at hx
      obtain ⟨hn, hx⟩ := hx
      split
      · rename_i ops
        split
        · rename_i hops
          have hne : ops ≠ [] := by
            rintro rfl
            cases hops
          exact isWellFormed_complementOperators hn hne (operatorsFit_of_conditionFits hx hops)
        · rename_i hops
          have hliteral := isLiteral_of_conditionFits hx (by simpa [isPlain] using hops)
          exact isWellFormed_testOp hn (operandFits_of_isLiteral (by decide) hliteral)
      · exact isWellFormed_testOp hn rfl
      · rename_i hdocument hregex
        have hplain : isPlain x = true := by cases x <;> simp_all [isPlain]
        have hliteral := isLiteral_of_conditionFits hx hplain
        exact isWellFormed_testOp hn (operandFits_of_isLiteral (by decide) hliteral)
  · exact isWellFormed_nor hd

/-! ## Conditions on array items -/

mutual
/-- A filter with no test under the empty name at any depth. -/
theorem isWellFormed_of_not_testsItem : ∀ d : List (String × Value),
    isWellFormed true d = true → testsItem d = false → isWellFormed false d = true
  | [], _, _ => rfl
  | (key, .array items) :: rest, hd, ht => by
    simp only [testsItem, Bool.or_eq_false_iff, Bool.and_eq_false_iff, decide_eq_false_iff_not]
      at ht
    simp only [isWellFormed, Bool.and_eq_true] at hd ⊢
    refine ⟨?_, isWellFormed_of_not_testsItem rest hd.2 ht.2⟩
    have hentry := hd.1
    rw [entryFits] at hentry ⊢
    split at hentry
    · rename_i hl
      rw [Bool.and_eq_true] at hentry
      have hclauses : clausesTestItem items = false := by
        rcases ht.1.2 with hop | hclauses
        · rw [isOperator_of_isLogical hl] at hop
          cases hop
        · exact hclauses
      rw [if_pos hl, hentry.1, clausesFit_of_not_testsItem items hentry.2 hclauses]
      rfl
    · rename_i hl
      rw [if_neg hl]
      simpa [isFieldName, ht.1.1] using hentry
  | (key, .document ops) :: rest, hd, ht => by
    simp only [testsItem, Bool.or_eq_false_iff, decide_eq_false_iff_not] at ht
    simp only [isWellFormed, Bool.and_eq_true] at hd ⊢
    refine ⟨?_, isWellFormed_of_not_testsItem rest hd.2 ht.2⟩
    simpa [entryFits, isFieldName, ht.1] using hd.1
  | (key, .null) :: rest, hd, ht | (key, .bool _) :: rest, hd, ht | (key, .int32 _) :: rest, hd, ht
  | (key, .int64 _) :: rest, hd, ht | (key, .double _) :: rest, hd, ht
  | (key, .string _) :: rest, hd, ht | (key, .objectId _) :: rest, hd, ht
  | (key, .dateTime _) :: rest, hd, ht | (key, .regex _ _) :: rest, hd, ht
  | (key, .decimal _) :: rest, hd, ht | (key, .binary _) :: rest, hd, ht
  | (key, .timestamp _ _) :: rest, hd, ht | (key, .symbol _) :: rest, hd, ht
  | (key, .javaScript _) :: rest, hd, ht | (key, .minKey) :: rest, hd, ht
  | (key, .maxKey) :: rest, hd, ht | (key, .undefined) :: rest, hd, ht => by
    simp only [testsItem, Bool.or_eq_false_iff, decide_eq_false_iff_not] at ht
    simp only [isWellFormed, Bool.and_eq_true] at hd ⊢
    refine ⟨?_, isWellFormed_of_not_testsItem rest hd.2 ht.2⟩
    simpa [entryFits, isFieldName, ht.1] using hd.1
theorem clausesFit_of_not_testsItem : ∀ clauses : List Value,
    clausesFit true clauses = true → clausesTestItem clauses = false →
      clausesFit false clauses = true
  | [], _, _ => rfl
  | .document d :: rest, hc, ht => by
    simp only [clausesTestItem, Bool.or_eq_false_iff] at ht
    simp only [clausesFit, Bool.and_eq_true] at hc ⊢
    exact ⟨isWellFormed_of_not_testsItem d hc.1 ht.1, clausesFit_of_not_testsItem rest hc.2 ht.2⟩
  | .null :: _, hc, _ | .bool _ :: _, hc, _ | .int32 _ :: _, hc, _ | .int64 _ :: _, hc, _
  | .double _ :: _, hc, _ | .string _ :: _, hc, _ | .array _ :: _, hc, _ | .objectId _ :: _, hc, _
  | .dateTime _ :: _, hc, _ | .regex _ _ :: _, hc, _ | .decimal _ :: _, hc, _
  | .binary _ :: _, hc, _ | .timestamp _ _ :: _, hc, _ | .symbol _ :: _, hc, _
  | .javaScript _ :: _, hc, _ | .minKey :: _, hc, _ | .maxKey :: _, hc, _
  | .undefined :: _, hc, _ => by cases hc
end

/-- The only entry of a document that has a value under a name. -/
theorem eq_singleton_of_get? {e : String × Value} {key : String} {x : Value}
    (h : Document.get? [e] key = some x) : [e] = [(key, x)] := by
  obtain ⟨k, y⟩ := e
  simp only [Document.get?] at h
  split at h
  · rename_i hk
    cases h
    rw [hk]
  · cases h

/-- The condition on array items that a filter gives is an operand of `$elemMatch`. -/
theorem itemFits_itemCondition (node : Expr) {body : Document}
    (hb : isWellFormed true body = true) :
    Post (fun d => itemFits d = true) (fun _ => True) (itemCondition node body) := by
  have hsingle {op : String} {x : Value} (h : operandFits true op x = true) :
      itemFits (test op x) = true := by
    simp [itemFits, test, operatorsFit, h]
  unfold itemCondition
  split
  · split
    · trivial
    · rename_i htests
      have hfilter := isWellFormed_of_not_testsItem _ hb (by simpa using htests)
      simp [itemFits, hfilter]
  · rename_i ops e hget
    rw [eq_singleton_of_get? hget, isWellFormed_singleton, entryFits_field rfl,
      Bool.and_eq_true] at hb
    rw [post_ok]
    split
    · rename_i hops
      have hfit := operatorsFit_iff.1 (operatorsFit_of_conditionFits hb.2 hops)
      have hne : ops.isEmpty = false := by
        cases ops with
        | nil => cases hops
        | cons e rest => rfl
      simp [itemFits, hne, operatorsFit_iff.2 fun e he => operandFits_item (hfit e he)]
    · rename_i hops
      have hliteral := isLiteral_of_conditionFits hb.2 (by simpa [isPlain] using hops)
      exact hsingle (operandFits_of_isLiteral (by decide) hliteral)
  · exact hsingle rfl
  · rename_i x e hdocument hregex hget
    rw [eq_singleton_of_get? hget, isWellFormed_singleton, entryFits_field rfl,
      Bool.and_eq_true] at hb
    have hplain : isPlain x = true := by cases x <;> simp_all [isPlain]
    have hliteral := isLiteral_of_conditionFits hb.2 hplain
    exact hsingle (operandFits_of_isLiteral (by decide) hliteral)
  · trivial

theorem operandFits_elemMatch {d : Document} (h : itemFits d = true) :
    operandFits false "$elemMatch" (.document d) = true := by
  rw [operandFits, if_neg (by decide), if_pos rfl]
  exact h

/-! ## Filters -/

theorem operandFits_operation {op : String} {x : Value}
    (h : Operation (fun x => isLiteral x = true) op x) : operandFits false op x = true := by
  cases h with
  | value ho hx => exact operandFits_of_isLiteral (by simp [takesValue, ho]) hx
  | list ho hx => simp [operandFits, ho, hx]

theorem conditionFits_leaf {c : Value} (h : Leaf (fun x => isLiteral x = true) c) :
    conditionFits c = true := by
  cases h with
  | equal hx => exact conditionFits_of_isLiteral hx
  | regex pattern options => rfl
  | operation ho => exact conditionFits_single (operandFits_operation ho)
  | refused ho =>
    have hinner := operandFits_operation ho
    exact conditionFits_single (operandFits_not (by simp) (by simpa [operatorsFit] using hinner))
  | nonEmpty => decide

/-- Every way to build a filter from values without operators in them gives a well-formed one. -/
theorem isWellFormed_of_built {q : Expr → Bool} (hq : ∀ d, q (.inject d) = false) {d : Document}
    (h : Built q (fun x => isLiteral x = true) d) : isWellFormed true d = true := by
  have hname {name : String} (hn : isOperator name = false) : isFieldName true name = true := by
    simp [isFieldName, hn]
  induction h with
  | always => rfl
  | test hn hc => exact isWellFormed_test (hname hn) (conditionFits_leaf hc)
  | inject _ hd => cases (hq _).symm.trans hd
  | conj _ _ iha ihb => exact isWellFormed_conj iha ihb
  | disj _ _ iha ihb => exact isWellFormed_disj iha ihb
  | complement _ ih => exact isWellFormed_complement ih
  | someItem hn _ ho ih =>
    have hitem := (itemFits_itemCondition _ ih).of_ok ho
    exact isWellFormed_testOp (hname hn) (operandFits_elemMatch hitem)
  | noItem hn _ ho ih =>
    have hitem := (itemFits_itemCondition _ ih).of_ok ho
    refine isWellFormed_testOp (hname hn) (operandFits_not (by simp) ?_)
    simpa [operatorsFit] using operandFits_elemMatch hitem

end Filter

/-- Whether a node brings no operators into a filter but those of the rules. -/
def Expr.bringsNoOperators : Expr → Bool
  | .inject _ => false
  | e => e.nodeAvoids isOperator

namespace Mapping

variable {m : Mapping}

/-- A mapping without operators in its names and in what its converters give keeps literals. -/
theorem keeps_isLiteral (hm : m.IsPlain) (hs : m.schema.Avoids isOperator) :
    m.Keeps Expr.bringsNoOperators (fun x => isLiteral x = true) where
  toIsPlain := hm
  scalar x hx := by cases x <;> first | rfl | cases hx
  scalars items hitems := by
    have havoids : Value.itemsAvoid isOperator items = true := by
      rw [Value.itemsAvoid_iff]
      intro v hv
      have hscalar := List.all_eq_true.1 hitems v hv
      cases v <;> first | rfl | cases hscalar
    simpa [isLiteral, isPlain, Value.avoids] using havoids
  known {e l} he hl := by
    have hnode : ∀ e : Expr, e.bringsNoOperators = true → e.nodeAvoids isOperator = true := by
      intro e h
      cases e <;> first | exact h | cases h
    rw [isLiteral, Expr.isPlain_known? he.plain hl, Expr.avoids_known? hnode he.every hl]
    rfl
  stored t l hl := by
    rw [isLiteral, Bool.and_eq_true] at hl
    have havoids : Post (fun x => x.avoids isOperator = true) (fun _ => True) (m.encodeFor t l) :=
      Schema.avoids_encode hs _ _ _ (Schema.avoids_coerce hs _ _ hl.2)
    refine ((plain_encodeFor hm t hl.1).and havoids).imp fun x hx => ?_
    rw [isLiteral, hx.1, hx.2]
    rfl
  listed node t l hl := by
    rw [isLiteral, Bool.and_eq_true] at hl
    unfold encodeItemsFor
    split
    · rename_i items hvalue
      rw [hvalue, Value.avoids, Value.itemsAvoid_iff] at hl
      have hitems : Post (fun stored => ∀ v ∈ stored, v.avoids isOperator = true) (fun _ => True)
          (items.mapM fun v => m.encodeFor t ⟨v, l.type.item?.getD .any⟩) :=
        Post.mapM fun v hv =>
          Schema.avoids_encode hs _ _ _ (Schema.avoids_coerce hs _ _ (hl.2 v hv))
      refine hitems.imp fun stored hstored => ?_
      simpa [isLiteral, isPlain, Value.avoids] using Value.itemsAvoid_iff.2 hstored
    · trivial
  receiver {e call} hc _ := by
    unfold Expr.receiverForm? at hc
    split at hc
    · split at hc <;> cases hc
      rfl
    · cases hc

/-- **Every filter is well formed.** Let a predicate take over no filter as it is, let no name in
it and in the mapping start like an operator, and let no literal in it and nothing that a converter
gives be a pattern or have an operator in it. Then its filter has names of fields and logical
operators as keys, at every depth, and each operator has an operand that it can have; under
`$elemMatch` stands a condition on the item itself, or a filter that does not test it. -/
theorem isWellFormed_filter (hm : m.IsPlain) (hs : m.schema.Avoids isOperator) {predicate : Expr}
    (hplain : predicate.isPlain m.schema = true)
    (hevery : predicate.every Expr.bringsNoOperators = true) {d : Document}
    (h : m.filter predicate = .ok d) : isWellFormed true d = true := by
  have hpasses : predicate.Passes m.schema Expr.bringsNoOperators := ⟨hplain, hevery⟩
  unfold filter at h
  split at h
  · cases h
  · rename_i param body hlambda
    obtain ⟨-, -, hbody⟩ := bind_eq_ok.1 h
    have hbuilt := (built_filterOf (keeps_isLiteral hm hs) body (Scope.isPlain_root param.name)
      (hpasses.body hlambda)).of_ok hbody
    exact isWellFormed_of_built (fun _ => rfl) hbuilt

/-- Families whose children may be pupils. -/
def familyMapping : Mapping :=
  { schema := {
      documents := [
        { name := "Family"
          members := [
            ⟨"Children", "children", .array (.document "Child"), .natural⟩,
            ⟨"Years", "years", .array .int32, .natural⟩] },
        { name := "Child"
          members := [
            ⟨"Name", "name", .string, .natural⟩, ⟨"Tags", "tags", .array .string, .natural⟩] },
        { name := "Pupil", base := some "Child", discriminator := some "pupil" }] } }

theorem isPlain_family : familyMapping.IsPlain where
  elements := by decide
  marks := by decide
  mark := by decide
  converters := by simp [familyMapping]

theorem avoids_family : familyMapping.schema.Avoids isOperator where
  elements := by decide
  converters := by simp [familyMapping]

/-- Some pupil has another name than `a` or only tags other than `b`, and some year is between two
others. -/
def somePupil : Expr :=
  let x : Expr := .param ⟨"x", .document "Family"⟩
  let c : Expr := .param ⟨"c", .document "Pupil"⟩
  let n : Expr := .param ⟨"n", .int32⟩
  let text (s : String) : Expr := .literal ⟨.string s, .string⟩
  let number (i : Int32) : Expr := .literal ⟨.int32 i, .int32⟩
  let otherTags : Expr := .call (.member c "Tags") "All"
    [.lambda [⟨"t", .string⟩] (.binary .notEqual (.param ⟨"t", .string⟩) (text "b"))]
  .lambda [⟨"x", .document "Family"⟩] (.binary .andAlso
    (.call (.call (.member x "Children") "OfType" [text "Pupil"]) "Any"
      [.lambda [⟨"c", .document "Pupil"⟩] (.binary .orElse
        (.not (.binary .equal (.member c "Name") (text "a"))) otherTags)])
    (.call (.member x "Years") "Any"
      [.lambda [⟨"n", .int32⟩] (.binary .andAlso
        (.binary .greater n (number 2000)) (.binary .less n (number 2010)))]))

theorem filter_somePupil :
    familyMapping.filter somePupil = .ok
      [("children", .single "$elemMatch" (.document
        [("_t", .string "pupil"),
          ("$or", .array [
            .single "name" (.single "$ne" (.string "a")),
            .single "tags" (.single "$not"
              (.single "$elemMatch" (.single "$eq" (.string "b"))))])])),
        ("years", .single "$elemMatch"
          (.document [("$gt", .int32 2000), ("$lt", .int32 2010)]))] := by
  with_unfolding_all rfl

theorem isWellFormed_filter_somePupil :
    ∃ d, familyMapping.filter somePupil = .ok d ∧ isWellFormed true d = true :=
  ⟨_, filter_somePupil, isWellFormed_filter isPlain_family avoids_family rfl rfl filter_somePupil⟩

end Mapping
end DocQuery
