/-
What a filter means, and that conjunction, disjunction and complement of filters
mean what their names say.

A filter is read over an answer to every leaf test (`Valuation`): the entries of
a document are joined by "and", `$and`, `$or` and `$nor` join the clauses in
their lists, the operators on a field are joined by "and", and `$ne`, `$nin`,
`$not` and `{$exists: false}` are the opposites of other tests.

The algebra works on filters in which the logical operators have lists of
filters and `$ne` has a value that stands for equality when it is written alone
(`isValid`). On those, `conj`, `disj` and `complement` are the connectives, and
what they give is such a filter again (`conj_spec`, `disj_spec`,
`complement_spec`).
-/
import DocQuery.Filter.Algebra
import DocQuery.Proofs.Document

namespace DocQuery.Filter

/-- An answer to every leaf test. -/
structure Valuation where
  /-- A field passes an operator with its operand. Equality is the operator `$eq`. -/
  field : String → String → Value → Bool
  /-- The document passes an operator that is on no field. -/
  whole : String → Value → Bool

/-- A field passes an operator other than `$not`. No identifier has the type number -1. -/
def operatorHolds (v : Valuation) (name op : String) (x : Value) : Bool :=
  if op = "$ne" then !v.field name "$eq" x
  else if op = "$nin" then !v.field name "$in" x
  else
    match op, x with
    | "$exists", .bool b => v.field name "$exists" (.bool true) == b
    | "$type", .int32 n => !(name = "_id" && n = -1) && v.field name "$type" (.int32 n)
    | op, x => v.field name op x

mutual
/-- A field passes the operators of a document, matches a pattern, or equals a value. -/
def conditionHolds (v : Valuation) (name : String) : Value → Bool
  | .document ops =>
    if isOperators ops then operatorsHold v name ops else v.field name "$eq" (.document ops)
  | .regex pattern options => v.field name "$regex" (.regex pattern options)
  | x => v.field name "$eq" x
def operatorsHold (v : Valuation) (name : String) : List (String × Value) → Bool
  | [] => true
  | (op, x) :: rest =>
    (if op = "$not" then !conditionHolds v name x else operatorHolds v name op x)
      && operatorsHold v name rest
end

mutual
/-- Whether a filter holds. -/
def holds (v : Valuation) : List (String × Value) → Bool
  | [] => true
  | (key, c) :: rest => entryHolds v key c && holds v rest
def entryHolds (v : Valuation) (key : String) : Value → Bool
  | .array clauses =>
    if key = "$and" then everyHolds v clauses
    else if key = "$or" then someHolds v clauses
    else if key = "$nor" then !someHolds v clauses
    else if isOperator key then v.whole key (.array clauses)
    else conditionHolds v key (.array clauses)
  | c => if isOperator key then v.whole key c else conditionHolds v key c
def everyHolds (v : Valuation) : List Value → Bool
  | [] => true
  | .document d :: rest => holds v d && everyHolds v rest
  | _ :: _ => false
def someHolds (v : Valuation) : List Value → Bool
  | [] => false
  | .document d :: rest => holds v d || someHolds v rest
  | _ :: rest => someHolds v rest
end

/-- Whether a value that stands alone in a filter is tested for equality. -/
def isPlain : Value → Bool
  | .document d => !isOperators d
  | .regex .. => false
  | _ => true

mutual
/-- Whether the operators of a condition, if it has any, are distinct and each has an operand that
it can have. -/
def isCondition : Value → Bool
  | .document ops => !isOperators ops || areConditions ops
  | _ => true
def areConditions : List (String × Value) → Bool
  | [] => true
  | (op, x) :: rest =>
    !Document.hasKey rest op
      && (if op = "$not" then isCondition x else op ≠ "$ne" || isPlain x)
      && areConditions rest
end

def isLogical (key : String) : Bool := key = "$and" || key = "$or" || key = "$nor"

mutual
/-- Whether a filter has only logical operators on lists of filters, and conditions on fields. -/
def isValid : List (String × Value) → Bool
  | [] => true
  | (key, c) :: rest => isValidEntry key c && isValid rest
def isValidEntry (key : String) : Value → Bool
  | .array clauses => if isLogical key then areValid clauses else !isOperator key
  | c => !isOperator key && isCondition c
def areValid : List Value → Bool
  | [] => true
  | .document d :: rest => isValid d && areValid rest
  | _ :: _ => false
end

variable {v : Valuation}

/-! ## Lists of entries and of clauses -/

theorem holds_append (a b : Document) : holds v (a ++ b) = (holds v a && holds v b) := by
  induction a with
  | nil => simp [holds]
  | cons e rest ih =>
    obtain ⟨k, c⟩ := e
    simp [holds, ih, Bool.and_assoc]

@[simp] theorem holds_singleton (k : String) (c : Value) : holds v [(k, c)] = entryHolds v k c := by
  simp [holds]

theorem isValid_append (a b : Document) : isValid (a ++ b) = (isValid a && isValid b) := by
  induction a with
  | nil => simp [isValid]
  | cons e rest ih =>
    obtain ⟨k, c⟩ := e
    simp [isValid, ih, Bool.and_assoc]

@[simp] theorem isValid_singleton (k : String) (c : Value) :
    isValid [(k, c)] = isValidEntry k c := by
  simp [isValid]

theorem everyHolds_append (a b : List Value) :
    everyHolds v (a ++ b) = (everyHolds v a && everyHolds v b) := by
  induction a with
  | nil => simp [everyHolds]
  | cons x rest ih => cases x <;> simp [everyHolds, ih, Bool.and_assoc]

theorem someHolds_append (a b : List Value) :
    someHolds v (a ++ b) = (someHolds v a || someHolds v b) := by
  induction a with
  | nil => simp [someHolds]
  | cons x rest ih => cases x <;> simp [someHolds, ih, Bool.or_assoc]

theorem areValid_append (a b : List Value) : areValid (a ++ b) = (areValid a && areValid b) := by
  induction a with
  | nil => simp [areValid]
  | cons x rest ih => cases x <;> simp [areValid, ih, Bool.and_assoc]

/-- The entries of a document, each as a clause of its own. -/
theorem everyHolds_map_single (d : Document) :
    everyHolds v (d.map fun (k, c) => .single k c) = holds v d := by
  induction d with
  | nil => rfl
  | cons e rest ih =>
    obtain ⟨k, c⟩ := e
    change (holds v [(k, c)] && everyHolds v _) = holds v ((k, c) :: rest)
    rw [ih, holds_singleton, holds]

theorem areValid_map_single (d : Document) :
    areValid (d.map fun (k, c) => .single k c) = isValid d := by
  induction d with
  | nil => rfl
  | cons e rest ih =>
    obtain ⟨k, c⟩ := e
    change (isValid [(k, c)] && areValid _) = isValid ((k, c) :: rest)
    rw [ih, isValid_singleton, isValid]

theorem isOperator_of_isLogical {key : String} (h : isLogical key = true) :
    isOperator key = true := by
  simp only [isLogical, Bool.or_eq_true, decide_eq_true_eq] at h
  rcases h with (rfl | rfl) | rfl <;> simp [isOperator]

/-- A valid entry under a logical operator is a list of valid clauses. -/
theorem exists_clauses {key : String} {c : Value} (hk : isLogical key = true)
    (hc : isValidEntry key c = true) : ∃ clauses, c = .array clauses ∧ areValid clauses = true := by
  have hop := isOperator_of_isLogical hk
  cases c <;> simp_all [isValidEntry]

@[simp] theorem entryHolds_and (clauses : List Value) :
    entryHolds v "$and" (.array clauses) = everyHolds v clauses := by
  simp [entryHolds]

@[simp] theorem entryHolds_or (clauses : List Value) :
    entryHolds v "$or" (.array clauses) = someHolds v clauses := by
  simp [entryHolds]

@[simp] theorem entryHolds_nor (clauses : List Value) :
    entryHolds v "$nor" (.array clauses) = !someHolds v clauses := by
  simp [entryHolds]

/-- An entry under a name that is no operator is a condition on that field. -/
theorem entryHolds_field {name : String} (h : isOperator name = false) (c : Value) :
    entryHolds v name c = conditionHolds v name c := by
  have hand : name ≠ "$and" := by rintro rfl; simp [isOperator] at h
  have hor : name ≠ "$or" := by rintro rfl; simp [isOperator] at h
  have hnor : name ≠ "$nor" := by rintro rfl; simp [isOperator] at h
  cases c <;> simp [entryHolds, h, hand, hor, hnor]

theorem isValidEntry_field {name : String} (h : isOperator name = false) (c : Value) :
    isValidEntry name c = isCondition c := by
  have hl : isLogical name = false := by
    cases hl : isLogical name with
    | false => rfl
    | true => rw [isOperator_of_isLogical hl] at h; cases h
  cases c <;> simp [isValidEntry, isCondition, h, hl]

/-! ## Setting entries -/

/-- An entry that is strengthened strengthens the filter. -/
theorem holds_insert {d : Document} {k : String} {c₀ c : Value} {b : Bool}
    (h : d.get? k = some c₀) (hc : entryHolds v k c = (entryHolds v k c₀ && b)) :
    holds v (d.insert k c) = (holds v d && b) := by
  induction d with
  | nil => cases h
  | cons e rest ih =>
    obtain ⟨k', c'⟩ := e
    by_cases hk : k' = k
    · subst hk
      simp only [Document.get?, if_true, Option.some.injEq] at h
      subst h
      simp only [Document.insert, if_true, holds, hc]
      rw [Bool.and_assoc, Bool.and_comm b, ← Bool.and_assoc]
    · simp only [Document.get?, hk, if_false] at h
      simp only [Document.insert, hk, if_false, holds, ih h, Bool.and_assoc]

theorem isValid_insert {d : Document} {k : String} {c : Value} (hd : isValid d = true)
    (hc : isValidEntry k c = true) : isValid (d.insert k c) = true := by
  induction d with
  | nil => simpa [Document.insert] using hc
  | cons e rest ih =>
    obtain ⟨k', c'⟩ := e
    simp only [isValid, Bool.and_eq_true] at hd
    by_cases hk : k' = k
    · simp [Document.insert, hk, isValid, hc, hd.2]
    · simp [Document.insert, hk, isValid, hd.1, ih hd.2]

theorem isValidEntry_of_get? {d : Document} {k : String} {c : Value} (hd : isValid d = true)
    (h : d.get? k = some c) : isValidEntry k c = true := by
  induction d with
  | nil => cases h
  | cons e rest ih =>
    obtain ⟨k', c'⟩ := e
    simp only [isValid, Bool.and_eq_true] at hd
    by_cases hk : k' = k
    · subst hk
      simp only [Document.get?, if_true, Option.some.injEq] at h
      exact h ▸ hd.1
    · simp only [Document.get?, hk, if_false] at h
      exact ih hd.2 h

/-! ## Operators on one field -/

theorem operatorsHold_append (name : String) (a b : Document) :
    operatorsHold v name (a ++ b) = (operatorsHold v name a && operatorsHold v name b) := by
  induction a with
  | nil => simp [operatorsHold]
  | cons e rest ih =>
    obtain ⟨op, x⟩ := e
    simp [operatorsHold, ih, Bool.and_assoc]

theorem areConditions_append {a b : Document} (ha : areConditions a = true)
    (hb : areConditions b = true) (hab : ∀ e ∈ b, a.hasKey e.1 = false) :
    areConditions (a ++ b) = true := by
  induction a with
  | nil => exact hb
  | cons e rest ih =>
    obtain ⟨op, x⟩ := e
    simp only [areConditions, Bool.and_eq_true, Bool.not_eq_true'] at ha
    obtain ⟨⟨hop, hx⟩, hrest⟩ := ha
    have hnew : ∀ e ∈ b, e.1 ≠ op ∧ Document.hasKey rest e.1 = false := by
      intro e he
      have h := hab e he
      by_cases heq : op = e.1
      · simp [Document.hasKey, Document.get?, heq] at h
      · refine ⟨Ne.symm heq, ?_⟩
        simpa [Document.hasKey, Document.get?, heq] using h
    have hbop : Document.hasKey b op = false := by
      cases hb' : Document.hasKey b op with
      | false => rfl
      | true =>
        obtain ⟨y, hy⟩ := Option.isSome_iff_exists.1 hb'
        exact absurd rfl (hnew (op, y) (Document.mem_of_get? hy)).1
    have happ := ih hrest fun e he => (hnew e he).2
    simp only [List.cons_append, areConditions, Document.hasKey_append, hop, hbop, hx, happ]
    rfl

/-- New operators come after those that are there. -/
theorem foldl_insert_eq_append {present incoming : Document} (hi : areConditions incoming = true)
    (hp : ∀ e ∈ incoming, present.hasKey e.1 = false) :
    incoming.foldl (fun d (k, c) => Document.insert d k c) present = present ++ incoming := by
  induction incoming generalizing present with
  | nil => simp
  | cons e rest ih =>
    obtain ⟨op, x⟩ := e
    simp only [areConditions, Bool.and_eq_true, Bool.not_eq_true'] at hi
    obtain ⟨⟨hop, -⟩, hrest⟩ := hi
    have hnone : present.get? op = none := by
      simpa [Document.hasKey] using hp (op, x) (by simp)
    have hdisj : ∀ e ∈ rest, Document.hasKey (present ++ [(op, x)]) e.1 = false := by
      intro e he
      have hne : op ≠ e.1 := by
        rintro rfl
        rw [Document.hasKey_of_mem he] at hop
        cases hop
      rw [Document.hasKey_append, hp e (by simp [he])]
      simp [Document.hasKey, Document.get?, hne]
    simp only [List.foldl_cons]
    rw [Document.insert_eq_append hnone, ih hrest hdisj]
    simp

/-! ## Conjunction -/

/-- `d'` says what `d` says and `b`, and is a filter again. -/
structure Joins (v : Valuation) (d : Document) (b : Bool) (d' : Document) : Prop where
  means : holds v d' = (holds v d && b)
  valid : isValid d' = true

theorem Joins.trans {d d' d'' : Document} {b b' : Bool} (h : Joins v d b d')
    (h' : Joins v d' b' d'') : Joins v d (b && b') d'' :=
  ⟨by rw [h'.means, h.means, Bool.and_assoc], h'.valid⟩

theorem joins_promote {d : Document} {k : String} {c : Value} (hd : isValid d = true)
    (hc : isValidEntry k c = true) : Joins v d (entryHolds v k c) (promote d k c) where
  means := by
    rw [promote, holds_singleton, entryHolds_and, everyHolds_map_single, holds_append,
      holds_singleton]
  valid := by
    rw [promote, isValid_singleton, isValidEntry, areValid_map_single, isValid_append, hd,
      isValid_singleton, hc]
    rfl

/-- Operators that join those of a field that is tested already. -/
theorem joined_operators (name : String) {present incoming : Document}
    (hp : isOperators present = true) (hi : isOperators incoming = true)
    (hpc : isCondition (.document present) = true) (hic : isCondition (.document incoming) = true)
    (hnew : (incoming.all fun (k, _) => !Document.hasKey present k) = true) :
    conditionHolds v name
        (.document (incoming.foldl (fun d (k, c) => Document.insert d k c) present)) =
      (conditionHolds v name (.document present) && conditionHolds v name (.document incoming)) ∧
    isCondition (.document (incoming.foldl (fun d (k, c) => Document.insert d k c) present)) =
      true := by
  simp only [isCondition, hp, hi, Bool.not_true, Bool.false_or] at hpc hic
  have hfresh : ∀ e ∈ incoming, present.hasKey e.1 = false := by
    intro e he
    simpa using List.all_eq_true.1 hnew e he
  rw [foldl_insert_eq_append hic hfresh]
  have happ : isOperators (present ++ incoming) = true := by
    simp only [isOperators, Bool.and_eq_true, List.all_append] at hp hi ⊢
    refine ⟨?_, hp.2, hi.2⟩
    simp_all
  constructor
  · simp [conditionHolds, happ, hp, hi, operatorsHold_append]
  · simp [isCondition, areConditions_append hpc hic hfresh]

theorem joins_addTest {d : Document} {k : String} {c : Value} (hd : isValid d = true)
    (hc : isValidEntry k c = true) : Joins v d (entryHolds v k c) (addTest d k c) := by
  unfold addTest
  split
  · rename_i hk
    rw [Document.insert_eq_append hk]
    exact ⟨by rw [holds_append, holds_singleton], by simp [isValid_append, hd, hc]⟩
  · rename_i present hk
    split
    · rename_i incoming
      split
      · rename_i hjoin
        simp only [Bool.and_eq_true] at hjoin
        obtain ⟨⟨hp, hi⟩, hnew⟩ := hjoin
        have hpv := isValidEntry_of_get? hd hk
        have hop : isOperator k = false := by
          simp only [isValidEntry, Bool.and_eq_true, Bool.not_eq_true'] at hc
          exact hc.1
        rw [isValidEntry_field hop] at hpv hc
        obtain ⟨hmeans, hvalid⟩ := joined_operators (v := v) k hp hi hpv hc hnew
        refine ⟨holds_insert hk ?_, isValid_insert hd ?_⟩
        · rw [entryHolds_field hop, entryHolds_field hop, entryHolds_field hop, hmeans]
        · rw [isValidEntry_field hop, hvalid]
      · exact joins_promote hd hc
    · exact joins_promote hd hc
  · exact joins_promote hd hc

theorem joins_foldl_addTest {d clause : Document} (hd : isValid d = true)
    (hc : isValid clause = true) :
    Joins v d (holds v clause) (clause.foldl (fun d (k, c) => addTest d k c) d) := by
  induction clause generalizing d with
  | nil => exact ⟨by simp [holds], hd⟩
  | cons e rest ih =>
    obtain ⟨k, c⟩ := e
    simp only [isValid, Bool.and_eq_true] at hc
    have htest := joins_addTest (v := v) hd hc.1
    exact htest.trans (ih htest.valid hc.2)

/-- A list of clauses under `$and` takes one more. -/
theorem joins_append {clauses : List Value} {clause : Document} (hd : areValid clauses = true)
    (hc : isValid clause = true) :
    Joins v [("$and", .array clauses)] (holds v clause)
      (append [("$and", .array clauses)] clause) := by
  have happ : append [("$and", .array clauses)] clause =
      [("$and", .array (clauses ++ [.document clause]))] := by
    simp [append, Document.get?, Document.insert]
  rw [happ]
  constructor
  · simp [everyHolds_append, everyHolds]
  · simp [isValidEntry, isLogical, areValid_append, areValid, hd, hc]

/-- A document with a value of the only key is that entry. -/
theorem eq_singleton_of_only? {d : Document} {k : String} (h : (d.only? k).isSome = true) :
    ∃ c, d = [(k, c)] := by
  unfold Document.only? at h
  split at h
  · rename_i k' c
    split at h
    · rename_i hk
      exact ⟨c, by rw [hk]⟩
    · cases h
  · cases h

theorem joins_addTests {d clause : Document} (hd : isValid d = true) (hc : isValid clause = true) :
    Joins v d (holds v clause) (addTests d clause) := by
  unfold addTests
  split
  · rename_i hand
    obtain ⟨c, rfl⟩ := eq_singleton_of_only? hand
    rw [isValid_singleton] at hd
    obtain ⟨clauses, rfl, hv⟩ := exists_clauses rfl hd
    exact joins_append hv hc
  · exact joins_foldl_addTest hd hc

/-- Adding a clause is "and", also where the clauses under its `$and` are added one by one. -/
theorem joins_addClause {d clause : Document} (hd : isValid d = true)
    (hc : isValid clause = true) : Joins v d (holds v clause) (addClause d clause) := by
  refine addClause.induct
    (fun d clause => isValid d = true → isValid clause = true →
      Joins v d (holds v clause) (addClause d clause))
    (fun d items => isValid d = true → areValid items = true →
      Joins v d (everyHolds v items) (addItems d items))
    ?empty ?listed ?other ?plain ?noItem ?clause ?noClause d clause hd hc
  case empty =>
    intro d hd _
    exact ⟨by simp [addClause, holds], by rw [addClause, hd]⟩
  case listed =>
    intro d items ih hd hc
    have hitems : areValid items = true := by simpa [isValidEntry, isLogical] using hc
    simpa [addClause] using ih hd hitems
  case other =>
    intro d key items hk hd hc
    simpa [addClause, hk] using joins_addTests (v := v) hd hc
  case plain =>
    intro d clause hne hnl hd hc
    have heq : addClause d clause = addTests d clause := by
      unfold addClause
      split
      · exact (hne rfl).elim
      · exact (hnl _ _ rfl).elim
      · rfl
    rw [heq]
    exact joins_addTests hd hc
  case noItem =>
    intro d hd _
    exact ⟨by simp [addItems, everyHolds], by rw [addItems, hd]⟩
  case clause =>
    intro d clause rest ihClause ihRest hd hi
    simp only [areValid, Bool.and_eq_true] at hi
    have hclause := ihClause hd hi.1
    rw [addItems, everyHolds]
    exact hclause.trans (ihRest hclause.valid hi.2)
  case noClause =>
    intro d item rest hitem _ _ hi
    cases item <;> simp_all [areValid]

theorem conj_spec {clauses : List Document} (h : ∀ c ∈ clauses, isValid c = true) :
    holds v (conj clauses) = (clauses.all fun c => holds v c) ∧ isValid (conj clauses) = true := by
  have hfold : ∀ {d : Document}, isValid d = true →
      Joins v d (clauses.all fun c => holds v c) (clauses.foldl addClause d) := by
    intro d hd
    induction clauses generalizing d with
    | nil => exact ⟨by simp, hd⟩
    | cons c rest ih =>
      have hclause := joins_addClause (v := v) hd (h c (by simp))
      exact hclause.trans (ih (fun c' hc' => h c' (by simp [hc'])) hclause.valid)
  obtain ⟨hmeans, hvalid⟩ := hfold (d := always) rfl
  exact ⟨by simpa [conj, always, holds] using hmeans, hvalid⟩

/-! ## Disjunction -/

theorem someHolds_alternatives (clause : Document) :
    someHolds v (alternatives clause) = holds v clause := by
  unfold alternatives
  split
  · rename_i items hor
    obtain ⟨c, rfl⟩ := eq_singleton_of_only? (by rw [hor]; rfl)
    have hitems : c = .array items := by simpa [Document.only?] using hor
    subst hitems
    simp
  · simp [someHolds]

/-- A disjunction means "or", also of clauses that are not valid. -/
theorem holds_disj (clauses : List Document) :
    holds v (disj clauses) = clauses.any fun c => holds v c := by
  have hlist : someHolds v (clauses.flatMap alternatives) = clauses.any fun c => holds v c := by
    induction clauses with
    | nil => rfl
    | cons c rest ih =>
      rw [List.flatMap_cons, someHolds_append, someHolds_alternatives, ih, List.any_cons]
  rw [disj, test, holds_singleton, entryHolds_or, hlist]

theorem areValid_alternatives {clause : Document} (hc : isValid clause = true) :
    areValid (alternatives clause) = true := by
  unfold alternatives
  split
  · rename_i items hor
    obtain ⟨c, rfl⟩ := eq_singleton_of_only? (by rw [hor]; rfl)
    have hitems : c = .array items := by simpa [Document.only?] using hor
    subst hitems
    simpa [isValidEntry, isLogical] using hc
  · simp [areValid, hc]

theorem disj_spec {clauses : List Document} (h : ∀ c ∈ clauses, isValid c = true) :
    holds v (disj clauses) = (clauses.any fun c => holds v c) ∧ isValid (disj clauses) = true := by
  have hvalid : areValid (clauses.flatMap alternatives) = true := by
    induction clauses with
    | nil => rfl
    | cons c rest ih =>
      rw [List.flatMap_cons, areValid_append, areValid_alternatives (h c (by simp)),
        ih fun c' hc' => h c' (by simp [hc'])]
      rfl
  refine ⟨holds_disj clauses, ?_⟩
  rw [disj, test, isValid_singleton]
  simpa [isValidEntry, isLogical] using hvalid

/-! ## Complement -/

theorem holds_test {name : String} (hn : isOperator name = false) (c : Value) :
    holds v (test name c) = conditionHolds v name c := by
  rw [test, holds_singleton, entryHolds_field hn]

theorem isValid_test {name : String} (hn : isOperator name = false) (c : Value) :
    isValid (test name c) = isCondition c := by
  rw [test, isValid_singleton, isValidEntry_field hn]

/-- A single operator on a field. -/
theorem holds_testOp {name op : String} (hn : isOperator name = false) (ho : isOperator op = true)
    (x : Value) :
    holds v (testOp name op x) =
      if op = "$not" then !conditionHolds v name x else operatorHolds v name op x := by
  rw [testOp, holds_test hn, Value.single]
  simp [conditionHolds, isOperators, ho, operatorsHold]

theorem isValid_testOp {name op : String} (hn : isOperator name = false)
    (ho : isOperator op = true) (x : Value) :
    isValid (testOp name op x) =
      if op = "$not" then isCondition x else op ≠ "$ne" || isPlain x := by
  rw [testOp, isValid_test hn, Value.single]
  simp [isCondition, isOperators, ho, areConditions, Document.hasKey, Document.get?]

theorem nor_spec {d : Document} (hd : isValid d = true) :
    holds v (nor d) = !holds v d ∧ isValid (nor d) = true := by
  simp [nor, test, someHolds, isValidEntry, isLogical, areValid, hd]

theorem conditionHolds_of_isPlain {x : Value} (h : isPlain x = true) (name : String) :
    conditionHolds v name x = v.field name "$eq" x := by
  cases x <;> simp_all [isPlain, conditionHolds]

theorem isCondition_of_isPlain {x : Value} (h : isPlain x = true) : isCondition x = true := by
  cases x <;> simp_all [isPlain, isCondition]

theorem complementOperators_spec {name : String} {ops : Document} (hn : isOperator name = false)
    (ho : isOperators ops = true) (hc : isCondition (.document ops) = true) :
    holds v (complementOperators name ops) = !conditionHolds v name (.document ops) ∧
      isValid (complementOperators name ops) = true := by
  have hnor := nor_spec (v := v) (d := test name (.document ops)) (by rw [isValid_test hn, hc])
  rw [holds_test hn] at hnor
  unfold complementOperators
  split
  · rename_i op x
    have hop : isOperator op = true := by simpa [isOperators] using ho
    have hmeans := holds_testOp (v := v) hn hop x
    have hvalid := isValid_testOp hn hop x
    rw [testOp, holds_test hn, Value.single] at hmeans
    rw [testOp, isValid_test hn, Value.single, hc] at hvalid
    rw [hmeans]
    split
    · rename_i b
      rw [holds_testOp hn rfl, isValid_testOp hn rfl]
      cases b <;> cases h : v.field name "$exists" (.bool true) <;> simp [operatorHolds, h]
    · rw [holds_testOp hn rfl, isValid_testOp hn rfl]
      simp [operatorHolds]
    · rw [holds_testOp hn rfl, isValid_testOp hn rfl]
      simp [operatorHolds]
    · rw [holds_test hn, isValid_test hn]
      have hplain : isPlain x = true := by simpa using hvalid.symm
      simp [operatorHolds, conditionHolds_of_isPlain hplain, isCondition_of_isPlain hplain]
    · rw [holds_test hn, isValid_test hn]
      simpa using hvalid.symm
    · rw [holds_testOp hn rfl, isValid_testOp hn rfl, hc, ← hmeans]
      simp
  · exact hnor

theorem complement_spec {d : Document} (hd : isValid d = true) :
    holds v (complement d) = !holds v d ∧ isValid (complement d) = true := by
  unfold complement
  split
  · rename_i name c
    split
    · split
      · simpa [test, isValidEntry, isLogical] using hd
      · simpa [test, isValidEntry, isLogical] using hd
      · exact nor_spec hd
    · rename_i hn
      have hn : isOperator name = false := by simpa using hn
      rw [isValid_singleton, isValidEntry_field hn] at hd
      rw [holds_singleton, entryHolds_field hn]
      split
      · rename_i ops
        split
        · rename_i ho
          exact complementOperators_spec hn ho hd
        · rename_i ho
          rw [holds_testOp hn rfl, isValid_testOp hn rfl]
          simp [operatorHolds, conditionHolds, isPlain, ho]
      · rw [holds_testOp hn rfl, isValid_testOp hn rfl]
        simp [isCondition]
      · rename_i hdoc hregex
        have hplain : isPlain c = true := by cases c <;> simp_all [isPlain]
        rw [holds_testOp hn rfl, isValid_testOp hn rfl]
        simp [operatorHolds, conditionHolds_of_isPlain hplain, hplain]
  · exact nor_spec hd

end DocQuery.Filter
