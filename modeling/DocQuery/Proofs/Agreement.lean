/-
A predicate selects the same documents as a filter and as a projected truth value
(`read_project_eq_accepts`).

The predicates are built from comparisons of a stored field with a literal, stored
truth values and truth constants by "and", "or" and "not" (`Shared`). Filters
merge and negate tests of fields, and turn a comparison so that the literal is on
the right; aggregation expressions are trees of operators on both sides as they
stand. One order of the stored values answers the comparisons of both
(`Collation`). What is stored for a literal has to be a value to both, and must not
differ from a truth value that a filter takes for a test (`Comparable`).
-/
import DocQuery.Proofs.Aggregation.Binary
import DocQuery.Proofs.Aggregation.Stage
import DocQuery.Proofs.Filter.Comparison

namespace DocQuery

open DocQuery.Filter Aggregation

/-! ## Comparisons of stored values -/

namespace Value

/-- Whether a value is neither an array nor a document. -/
def isAtomic : Value → Bool
  | .array _ | .document _ => false
  | _ => true

/-- The value without the items or fields that it has. -/
def emptied : Value → Value
  | .array _ => .array []
  | .document _ => .document []
  | v => v

end Value

/-- Equality and order of stored values. An atomic value compares alike with all arrays, and with
all documents. -/
structure Collation where
  equal : Value → Value → Bool
  less : Value → Value → Bool
  equal_comm : ∀ a b, equal a b = equal b a
  equal_bool : ∀ a b, equal (.bool a) (.bool b) = (a == b)
  equal_emptied : ∀ v x, v.isAtomic = true → equal v x.emptied = equal v x
  less_emptied : ∀ v x, v.isAtomic = true → less v x.emptied = less v x
  emptied_less : ∀ v x, v.isAtomic = true → less x.emptied v = less x v

namespace Collation

variable (c : Collation)

/-- The comparison that an operator stands for. -/
def compares (op : BinaryOp) (a b : Value) : Bool :=
  match op with
  | .equal => c.equal a b
  | .notEqual => !c.equal a b
  | .less => c.less a b
  | .lessOrEqual => c.less a b || c.equal a b
  | .greater => c.less b a
  | .greaterOrEqual => c.less b a || c.equal a b
  | _ => false

/-- A comparison with its sides exchanged. -/
theorem compares_flip (op : BinaryOp) (a b : Value) :
    c.compares op.flip a b = c.compares op b a := by
  cases op <;> simp [compares, BinaryOp.flip, c.equal_comm a b]

theorem compares_emptied (op : BinaryOp) {v : Value} (hv : v.isAtomic = true) (x : Value) :
    c.compares op v x.emptied = c.compares op v x := by
  cases op <;> simp only [compares, c.equal_emptied v x hv, c.less_emptied v x hv,
    c.emptied_less v x hv]

/-- The database answers comparisons in filters and in expressions by the collation, and computes
the truth functions. -/
structure Serves (srv : Server) (eng : Engine) : Prop where
  passes_eq : ∀ x v, v.isAtomic = true → srv.passes "$eq" x (some v) = c.compares .equal v x
  passes_gt : ∀ x v, v.isAtomic = true → srv.passes "$gt" x (some v) = c.compares .greater v x
  passes_gte : ∀ x v, v.isAtomic = true →
    srv.passes "$gte" x (some v) = c.compares .greaterOrEqual v x
  passes_lt : ∀ x v, v.isAtomic = true → srv.passes "$lt" x (some v) = c.compares .less v x
  passes_lte : ∀ x v, v.isAtomic = true →
    srv.passes "$lte" x (some v) = c.compares .lessOrEqual v x
  binary_comparison : ∀ (op : BinaryOp) (l r : ValueType) (a b : Value), op.isComparison = true →
    eng.binary (op.operation l r) a b = .bool (c.compares op a b)
  binary_conjunction : ∀ a b, eng.binary .conjunction (.bool a) (.bool b) = .bool (a && b)
  binary_disjunction : ∀ a b, eng.binary .disjunction (.bool a) (.bool b) = .bool (a || b)
  not_bool : ∀ a, eng.not (.bool a) = .bool !a

/-- A server that answers by the collation, and nothing but comparisons. -/
def server : Server where
  passes op x stored :=
    match op, stored with
    | "$eq", some v => c.compares .equal v x
    | "$gt", some v => c.compares .greater v x
    | "$gte", some v => c.compares .greaterOrEqual v x
    | "$lt", some v => c.compares .less v x
    | "$lte", some v => c.compares .lessOrEqual v x
    | _, _ => false

/-- An engine that computes comparisons by the collation, and the truth functions. -/
def engine : Engine where
  binary op a b :=
    match op, a, b with
    | .equal, a, b => .bool (c.compares .equal a b)
    | .notEqual, a, b => .bool (c.compares .notEqual a b)
    | .greater, a, b => .bool (c.compares .greater a b)
    | .greaterOrEqual, a, b => .bool (c.compares .greaterOrEqual a b)
    | .less, a, b => .bool (c.compares .less a b)
    | .lessOrEqual, a, b => .bool (c.compares .lessOrEqual a b)
    | .conjunction, .bool a, .bool b => .bool (a && b)
    | .disjunction, .bool a, .bool b => .bool (a || b)
    | _, _, _ => .null
  not
    | .bool a => .bool !a
    | _ => .null
  conditional _ _ _ := .null
  other _ _ _ := none
  isTrue _ := false

theorem serves_engine : c.Serves c.server c.engine where
  passes_eq _ _ _ := rfl
  passes_gt _ _ _ := rfl
  passes_gte _ _ _ := rfl
  passes_lt _ _ _ := rfl
  passes_lte _ _ _ := rfl
  binary_comparison op _ _ _ _ hop := by cases op <;> first | rfl | cases hop
  binary_conjunction _ _ := rfl
  binary_disjunction _ _ := rfl
  not_bool _ := rfl

end Collation

/-! ## Predicates that both can read -/

/-- Whether values of a type are neither arrays nor documents. -/
def ValueType.isScalar (t : ValueType) : Bool :=
  match t.underlying with
  | .document _ | .array _ | .dictionary .. | .any => false
  | _ => true

/-- The field is in a document, with an atomic value, and a truth value if it is declared as one. -/
def FieldPath.PresentIn (f : FieldPath) (d : Document) : Prop :=
  ∃ v, follow (.document d) (steps f.dotted) = some v ∧ v.isAtomic = true ∧
    (f.type.isBoolean = true → ∃ b, v = .bool b)

/-- The stored fields that a predicate reads. -/
def Schema.fieldsRead (s : Schema) : Expr → List FieldPath
  | .not e => s.fieldsRead e
  | .binary _ left right => s.fieldsRead left ++ s.fieldsRead right
  | e => (s.chain? e).toList

namespace Mapping

/-- A literal that a field may be compared with: its stored form is no regular expression and no
document with operators. Where the field is a truth value that filters take for a test, a literal
truth value is stored as it is. -/
structure Comparable (m : Mapping) (e : Expr) (f : FieldPath) (l : Literal) : Prop where
  noRegex : ∀ pattern options, m.schema.storedForm f l ≠ .ok (.regex pattern options)
  noOperators : ∀ fields, m.schema.storedForm f l = .ok (.document fields) →
    ∀ key ∈ Document.keys fields, isOperator key = false
  unconverted : e.isTest = true → f.type.isBoolean = true → ∀ b, l.asBool? = some b →
    m.schema.storedForm f l = .ok (.bool b)

/-- Predicates that are read both as filters and as expressions. -/
inductive Shared (m : Mapping) : Expr → Prop
  | constant {l : Literal} {b : Bool} (h : l.value = .bool b) : Shared m (.literal l)
  | truth {e : Expr} {f : FieldPath} (h : m.schema.Reads e f) (htype : f.type.isBoolean = true) :
      Shared m e
  | compare {op : BinaryOp} {e : Expr} {f : FieldPath} {l : Literal} (hop : op.isComparison = true)
      (h : m.schema.Reads e f) (htype : f.type.isScalar = true) (hl : m.Comparable e f l) :
      Shared m (.binary op e (.literal l))
  | compareFlipped {op : BinaryOp} {e : Expr} {f : FieldPath} {l : Literal}
      (hop : op.isComparison = true) (h : m.schema.Reads e f) (htype : f.type.isScalar = true)
      (hl : m.Comparable e f l) : Shared m (.binary op (.literal l) e)
  | not {e : Expr} (h : Shared m e) : Shared m (.not e)
  | connective {op : BinaryOp} {left right : Expr}
      (hop : op ∈ [BinaryOp.andAlso, .orElse, .and, .or]) (hl : Shared m left)
      (hr : Shared m right) : Shared m (.binary op left right)

variable {m : Mapping} {e P : Expr} {f : FieldPath} {p : Param} {l : Literal} {op : BinaryOp}
  {d : Document} {srv : Server} {eng : Engine} {c : Collation}

/-! ## Filters -/

theorem holds_ofBool (v : Valuation) (b : Bool) : holds v (ofBool b) = b := by
  cases b with
  | true => rfl
  | false =>
    have hname : isOperator "_id" = false := rfl
    have hop : isOperator "$type" = true := rfl
    change holds v (testOp "_id" "$type" (.int32 (-1))) = false
    rw [holds_testOp hname hop]
    simp [operatorHolds]

theorem isPlain_document {fields : Document}
    (h : ∀ key ∈ fields.keys, isOperator key = false) : isPlain (.document fields) = true := by
  rw [isPlain, Bool.not_eq_true', Bool.eq_false_iff, ne_eq, isOperators_iff]
  rintro ⟨hne, hall⟩
  obtain ⟨key, rest, hkeys⟩ := List.exists_cons_of_ne_nil hne
  have hkey : key ∈ fields.keys := by simp [hkeys]
  exact absurd (hall key hkey) (by simp [h key hkey])

/-- The test that a comparison of a field gives. -/
theorem holds_comparison? (hc : c.Serves srv eng) (hname : isOperator f.dotted = false)
    {v x : Value} (hv : follow (.document d) (steps f.dotted) = some v)
    (hatomic : v.isAtomic = true) (hx : Filter.isPlain x = true) {q : Document}
    (hq : comparison? f.dotted op x = some q) :
    holds (srv.reads d) q = c.compares op v x := by
  have hfield (op : String) : (srv.reads d).field f.dotted op x = srv.passes op x (some v) := by
    rw [← hv]
    refine srv.atDocument_of_follow (steps_ne_nil f.dotted) ?_ op x
    rintro items hitems
    rw [hv] at hitems
    cases hitems
    cases hatomic
  have htest (op : String) (hop : isOperator op = true) (hnot : op ≠ "$not") :
      holds (srv.reads d) (testOp f.dotted op x) = operatorHolds (srv.reads d) f.dotted op x := by
    rw [holds_testOp hname hop, if_neg hnot]
  cases op with
  | equal =>
    cases hq
    rw [holds_test hname, conditionHolds_of_isPlain hx, hfield, hc.passes_eq x v hatomic]
  | notEqual =>
    cases hq
    rw [htest "$ne" rfl (by decide)]
    simp [operatorHolds, hfield, hc.passes_eq x v hatomic, Collation.compares]
  | greater =>
    cases hq
    rw [htest "$gt" rfl (by decide)]
    simp [operatorHolds, hfield, hc.passes_gt x v hatomic]
  | greaterOrEqual =>
    cases hq
    rw [htest "$gte" rfl (by decide)]
    simp [operatorHolds, hfield, hc.passes_gte x v hatomic]
  | less =>
    cases hq
    rw [htest "$lt" rfl (by decide)]
    simp [operatorHolds, hfield, hc.passes_lt x v hatomic]
  | lessOrEqual =>
    cases hq
    rw [htest "$lte" rfl (by decide)]
    simp [operatorHolds, hfield, hc.passes_lte x v hatomic]
  | _ => cases hq

/-- A stored truth value, as a test and with its negation. -/
theorem holds_test_true (hc : c.Serves srv eng) (hname : isOperator f.dotted = false) {b : Bool}
    (hv : follow (.document d) (steps f.dotted) = some (.bool b)) :
    isValid (test f.dotted (.bool true)) = true ∧
      holds (srv.reads d) (test f.dotted (.bool true)) = b := by
  refine ⟨isValid_comparison? hname .equal rfl _ rfl, ?_⟩
  have htest : comparison? f.dotted .equal (.bool true) = some (test f.dotted (.bool true)) := rfl
  rw [holds_comparison? hc hname hv rfl rfl htest, Collation.compares, c.equal_bool]
  cases b <;> rfl

/-- A field that is compared with a literal as a plain field. -/
theorem holds_plainComparison (hc : c.Serves srv eng) (h : m.schema.Reads e f)
    (hp : f.param = p.name) (hl : m.Comparable e f l) {v x : Value}
    (hv : follow (.document d) (steps f.dotted) = some v) (hatomic : v.isAtomic = true)
    (hx : m.schema.storedForm f l = .ok x) {node : Expr} {q : Document}
    (hq : m.plainComparison node ⟨op, e, l⟩ (.root p.name) = .ok q) :
    isValid q = true ∧ holds (srv.reads d) q = c.compares op v x := by
  have hplain : isPlain x = true := by
    cases x with
    | document fields => exact isPlain_document (hl.noOperators fields hx)
    | regex pattern options => exact absurd hx (hl.noRegex pattern options)
    | _ => rfl
  rw [plainComparison_chain h.chain hp] at hq
  obtain ⟨x', hx', hq⟩ := bind_eq_ok.1 hq
  cases hx.symm.trans hx'
  split at hq
  · rename_i q' hq'
    cases hq
    exact ⟨isValid_comparison? h.name op hplain q hq',
      holds_comparison? hc h.name hv hatomic hplain hq'⟩
  · cases hq

/-- A stored truth value that is compared with a truth value as a test. -/
theorem holds_comparedTest (hc : c.Serves srv eng) (h : m.schema.Reads e f) {b b' : Bool}
    (hv : follow (.document d) (steps f.dotted) = some (.bool b))
    (hop : op = .equal ∨ op = .notEqual) {q : Document}
    (hq : q = if b' == (op = .equal) then test f.dotted (.bool true)
      else complement (test f.dotted (.bool true))) :
    isValid q = true ∧ holds (srv.reads d) q = c.compares op (.bool b) (.bool b') := by
  obtain ⟨hvalid, hholds⟩ := holds_test_true hc h.name hv
  have hcomplement := complement_spec (v := srv.reads d) hvalid
  rcases hop with rfl | rfl
  · cases b' <;> simp [hq, hvalid, hholds, hcomplement, Collation.compares, c.equal_bool]
  · cases b' <;> simp [hq, hvalid, hholds, hcomplement, Collation.compares, c.equal_bool]

/-- The filter of a comparison of a field with a literal, on whichever side it stands. -/
theorem holds_filterOf_comparison (hc : c.Serves srv eng) (h : m.schema.Reads e f)
    (hp : f.param = p.name) (htype : f.type.isScalar = true) (hl : m.Comparable e f l)
    {left right : Expr} {op' : BinaryOp} (hop : op.isComparison = true)
    (hof : Comparison.of? op left right = some ⟨op', e, l⟩) {v x : Value}
    (hv : follow (.document d) (steps f.dotted) = some v) (hatomic : v.isAtomic = true)
    (hbool : f.type.isBoolean = true → ∃ b, v = .bool b)
    (hx : m.schema.storedForm f l = .ok x) {q : Document}
    (hq : m.filterOf (.binary op left right) (.root p.name) = .ok q) :
    isValid q = true ∧ holds (srv.reads d) q = c.compares op' v x := by
  rw [filterOf_comparison hop] at hq
  have hplain (htest : e.isTest = false ∨ l.asBool? = none ∨ op' ≠ .equal ∧ op' ≠ .notEqual) :
      isValid q = true ∧ holds (srv.reads d) q = c.compares op' v x := by
    rw [comparison_chain h.chain hof htest] at hq
    exact holds_plainComparison hc h hp hl hv hatomic hx hq
  cases htest : e.isTest with
  | false => exact hplain (.inl htest)
  | true =>
    cases hb : l.asBool? with
    | none => exact hplain (.inr (.inl hb))
    | some b =>
      by_cases hop' : op' = .equal ∨ op' = .notEqual
      · rw [comparison_test h.chain hof htest hb hop'] at hq
        obtain ⟨q', hq', hq⟩ := bind_eq_ok.1 hq
        obtain ⟨rfl, hdeclared⟩ := eq_of_filterOf_chain h.chain hp hq'
        have hboolean : f.type.isBoolean = true := by
          refine hdeclared.resolve_right fun hany => ?_
          simp [ValueType.isScalar, hany] at htype
        obtain ⟨bv, rfl⟩ := hbool hboolean
        rw [hl.unconverted htest hboolean b hb] at hx
        cases hx
        cases hq
        exact holds_comparedTest hc h hv hop' rfl
      · exact hplain (.inr (.inr (not_or.1 hop')))

theorem filterOf_connective {left right : Expr} {s : Scope} {q : Document}
    (hop : op ∈ [BinaryOp.andAlso, .orElse, .and, .or])
    (hq : m.filterOf (.binary op left right) s = .ok q) :
    ∃ ql qr, m.filterOf left s = .ok ql ∧ m.filterOf right s = .ok qr ∧
      (q = conj [ql, qr] ∧ (op = .andAlso ∨ op = .and) ∨
        q = disj [ql, qr] ∧ (op = .orElse ∨ op = .or)) := by
  have hboth {join : List Document → Document} {left right : Expr} {q : Document}
      (h : (do return join [← m.filterOf left s, ← m.filterOf right s] : Result Document) = .ok q) :
      ∃ ql qr, m.filterOf left s = .ok ql ∧ m.filterOf right s = .ok qr ∧ q = join [ql, qr] := by
    obtain ⟨ql, hql, h⟩ := bind_eq_ok.1 h
    obtain ⟨qr, hqr, h⟩ := bind_eq_ok.1 h
    cases h
    exact ⟨ql, qr, hql, hqr, rfl⟩
  rw [filterOf_eq] at hq
  simp only [List.mem_cons, List.not_mem_nil, or_false] at hop
  rcases hop with rfl | rfl | rfl | rfl
  · obtain ⟨ql, qr, hql, hqr, rfl⟩ := hboth hq
    exact ⟨ql, qr, hql, hqr, .inl ⟨rfl, .inl rfl⟩⟩
  · obtain ⟨ql, qr, hql, hqr, rfl⟩ := hboth hq
    exact ⟨ql, qr, hql, hqr, .inr ⟨rfl, .inl rfl⟩⟩
  · simp only [filterNode] at hq
    split at hq
    · obtain ⟨ql, qr, hql, hqr, rfl⟩ := hboth hq
      exact ⟨ql, qr, hql, hqr, .inl ⟨rfl, .inr rfl⟩⟩
    · cases hq
  · simp only [filterNode] at hq
    split at hq
    · obtain ⟨ql, qr, hql, hqr, rfl⟩ := hboth hq
      exact ⟨ql, qr, hql, hqr, .inr ⟨rfl, .inr rfl⟩⟩
    · cases hq

/-! ## Expressions -/

variable {o : Value}

/-- An atomic value compares with a constant as with its value. -/
theorem compares_constant {env : Env} {v x : Value} (hv : v.isAtomic = true)
    (hx : ∀ fields, x = .document fields → ∀ key ∈ Document.keys fields, isOperator key = false)
    (op : BinaryOp) :
    c.compares op v ((eng.eval env (constant x)).getD .null) = c.compares op v x := by
  rw [← c.compares_emptied op hv, ← c.compares_emptied op hv x]
  cases x with
  | document fields =>
    change c.compares op v ((eng.eval env (.document fields)).getD .null).emptied = _
    rw [eval_document (hx fields rfl)]
    rfl
  | array items => rfl
  | _ => rw [eval_constant rfl, Option.getD_some]

/-- The expression of a comparison of a field with a literal, on whichever side it stands. -/
theorem eval_operandOf_comparison (hc : c.Serves srv eng) (h : m.schema.Reads e f)
    (hl : ∀ fields, m.schema.storedForm f l = .ok (.document fields) →
      ∀ key ∈ Document.keys fields, isOperator key = false)
    {left right : Expr} {op' : BinaryOp} (hop : op.isComparison = true)
    (hsides : left = e ∧ right = .literal l ∧ op' = op ∨
      left = .literal l ∧ right = e ∧ op' = op.flip) {v : Value}
    (hv : follow (.document d) (steps f.dotted) = some v) (hatomic : v.isAtomic = true)
    (ho : m.operandOf (.binary op left right) (.root p.name) = .ok o) :
    f.param = p.name ∧ ∃ x, m.schema.storedForm f l = .ok x ∧
      eng.eval { root := d } o = some (.bool (c.compares op' v x)) := by
  obtain ⟨a, b, ha, hb, heval⟩ := eval_comparison eng { root := d } hop ho
  rw [hc.binary_comparison op _ _ _ _ hop] at heval
  have hfield {a other : _} (ha : m.compared m.operandOf e other (.root p.name) = .ok a) :
      f.param = p.name ∧ eng.eval { root := d } a = some v := by
    rw [compared, Schema.asLiteral?_of_chain? h.chain] at ha
    exact ⟨(operandOf_chain h.chain ha).1, (eval_operandOf_chain h ha).trans hv⟩
  have hliteral {b : Value} (hb : m.compared m.operandOf (.literal l) e (.root p.name) = .ok b) :
      ∃ x, m.schema.storedForm f l = .ok x ∧ b = constant x :=
    comparedConstant_stored (Schema.fieldPath?_of_chain? h.chain) hb
  have hfields {x : Value} (hx : m.schema.storedForm f l = .ok x) :
      ∀ fields, x = .document fields → ∀ key ∈ Document.keys fields, isOperator key = false := by
    rintro fields rfl
    exact hl fields hx
  rcases hsides with ⟨rfl, rfl, rfl⟩ | ⟨rfl, rfl, rfl⟩
  · obtain ⟨hp, hleft⟩ := hfield ha
    obtain ⟨x, hx, rfl⟩ := hliteral hb
    refine ⟨hp, x, hx, ?_⟩
    rw [heval, hleft, Option.getD_some, compares_constant hatomic (hfields hx)]
  · obtain ⟨hp, hright⟩ := hfield hb
    obtain ⟨x, hx, rfl⟩ := hliteral ha
    refine ⟨hp, x, hx, ?_⟩
    rw [heval, hright, Option.getD_some, ← c.compares_flip,
      compares_constant hatomic (hfields hx)]

/-! ## Agreement -/

/-- The expression of a predicate has the truth value that its filter has on a document. -/
def Agrees (m : Mapping) (p : Param) (srv : Server) (eng : Engine) (d : Document) (P : Expr) :
    Prop :=
  ∀ (q : Document) (o : Value), m.filterOf P (.root p.name) = .ok q →
    m.operandOf P (.root p.name) = .ok o →
    isValid q = true ∧ eng.eval { root := d } o = some (.bool (holds (srv.reads d) q))

theorem agrees_literal {b : Bool} (hl : l.value = .bool b) : m.Agrees p srv eng d (.literal l) := by
  intro q o hq ho
  rw [operandOf_of_not_reference rfl] at ho
  cases ho
  rw [filterOf_eq] at hq
  simp only [filterNode, Literal.asBool?, hl, Value.asBool?] at hq
  cases hq
  rw [hl, holds_ofBool]
  exact ⟨isValid_ofBool b, rfl⟩

theorem agrees_chain (hc : c.Serves srv eng) (h : m.schema.Reads e f)
    (htype : f.type.isBoolean = true) (hd : f.PresentIn d) : m.Agrees p srv eng d e := by
  intro q o hq ho
  obtain ⟨v, hv, -, hbool⟩ := hd
  obtain ⟨b, rfl⟩ := hbool htype
  obtain ⟨rfl, -⟩ := eq_of_filterOf_chain h.chain (operandOf_chain h.chain ho).1 hq
  obtain ⟨hvalid, hholds⟩ := holds_test_true hc h.name hv
  exact ⟨hvalid, by rw [eval_operandOf_chain h ho, hv, hholds]⟩

theorem agrees_comparison (hc : c.Serves srv eng) (h : m.schema.Reads e f)
    (htype : f.type.isScalar = true) (hl : m.Comparable e f l) (hop : op.isComparison = true)
    {left right : Expr} {op' : BinaryOp}
    (hsides : left = e ∧ right = .literal l ∧ op' = op ∨
      left = .literal l ∧ right = e ∧ op' = op.flip) (hd : f.PresentIn d) :
    m.Agrees p srv eng d (.binary op left right) := by
  intro q o hq ho
  obtain ⟨v, hv, hatomic, hbool⟩ := hd
  obtain ⟨hp, x, hx, heval⟩ := eval_operandOf_comparison hc h hl.noOperators hop hsides hv hatomic
    ho
  have hof : Comparison.of? op left right = some ⟨op', e, l⟩ := by
    have hknown := Schema.known?_of_chain? h.chain
    rcases hsides with ⟨rfl, rfl, rfl⟩ | ⟨rfl, rfl, rfl⟩
    · simp [Comparison.of?, hknown, Expr.known?]
    · simp [Comparison.of?, hknown, Expr.known?]
  obtain ⟨hvalid, hholds⟩ :=
    holds_filterOf_comparison hc h hp htype hl hop hof hv hatomic hbool hx hq
  exact ⟨hvalid, by rw [heval, hholds]⟩

theorem agrees_not (hc : c.Serves srv eng) (h : m.Agrees p srv eng d e)
    (hinner : ∀ inner, e.strip = .not inner → m.Agrees p srv eng d inner) :
    m.Agrees p srv eng d (.not e) := by
  intro q o hq ho
  obtain ⟨a, ha, heval⟩ := eval_not eng { root := d } ho
  rcases filterOf_not_cases hq with ⟨inner, hstrip, hq'⟩ | ⟨q', hq', rfl⟩
  · -- The filter has neither of two negations, the expression has both.
    rw [← operandOf_strip, hstrip] at ha
    obtain ⟨a', ha', heval'⟩ := eval_not eng { root := d } ha
    obtain ⟨hvalid, hb⟩ := hinner inner hstrip q a' hq' ha'
    refine ⟨hvalid, ?_⟩
    rw [heval, heval', hb]
    simp [hc.not_bool]
  · obtain ⟨hvalid, hb⟩ := h q' a hq' ha
    obtain ⟨hcomplement, hvalid'⟩ := complement_spec (v := srv.reads d) hvalid
    refine ⟨hvalid', ?_⟩
    rw [hcomplement, heval, hb]
    simp [hc.not_bool]

theorem agrees_connective (hc : c.Serves srv eng) {left right : Expr}
    (hop : op ∈ [BinaryOp.andAlso, .orElse, .and, .or]) (hl : m.Agrees p srv eng d left)
    (hr : m.Agrees p srv eng d right) : m.Agrees p srv eng d (.binary op left right) := by
  intro q o hq ho
  obtain ⟨ql, qr, hql, hqr, hjoin⟩ := filterOf_connective hop hq
  have hcomparison : op.isComparison = false := by
    rcases hjoin with ⟨-, rfl | rfl⟩ | ⟨-, rfl | rfl⟩ <;> rfl
  obtain ⟨l, r, hl', hr', heval⟩ := eval_operation eng { root := d } hcomparison ho
  obtain ⟨hvl, hbl⟩ := hl ql l hql hl'
  obtain ⟨hvr, hbr⟩ := hr qr r hqr hr'
  have hclauses : ∀ q ∈ [ql, qr], isValid q = true := by simp [hvl, hvr]
  rw [heval, hbl, hbr, Option.getD_some, Option.getD_some]
  rcases hjoin with ⟨rfl, hop'⟩ | ⟨rfl, hop'⟩
  · obtain ⟨hholds, hvalid⟩ := conj_spec (v := srv.reads d) hclauses
    refine ⟨hvalid, ?_⟩
    rcases hop' with rfl | rfl <;> simp [BinaryOp.operation, hc.binary_conjunction, hholds]
  · obtain ⟨hholds, hvalid⟩ := disj_spec (v := srv.reads d) hclauses
    refine ⟨hvalid, ?_⟩
    rcases hop' with rfl | rfl <;> simp [BinaryOp.operation, hc.binary_disjunction, hholds]

theorem mem_fieldsRead (h : m.schema.chain? e = some f) : f ∈ m.schema.fieldsRead e := by
  cases e with
  | param => simp [Schema.fieldsRead, h]
  | member => simp [Schema.fieldsRead, h]
  | _ => cases h

theorem Shared.strip (h : Shared m P) : P.strip = P := by
  cases h with
  | truth h => exact Schema.strip_of_chain? h.chain
  | _ => rfl

theorem Shared.asObject? (h : Shared m P) : P.asObject? = none := by
  cases h with
  | truth h =>
    cases P with
    | param => rfl
    | member => rfl
    | _ => cases h.chain
  | _ => rfl

/-- A shared predicate agrees, and so does what it negates, since filters drop double negations. -/
theorem Shared.agrees (hc : c.Serves srv eng) (h : Shared m P)
    (hd : ∀ f ∈ m.schema.fieldsRead P, f.PresentIn d) :
    m.Agrees p srv eng d P ∧ ∀ inner, P = .not inner → m.Agrees p srv eng d inner := by
  induction h with
  | constant hl => exact ⟨agrees_literal hl, by rintro inner ⟨⟩⟩
  | truth h htype =>
    refine ⟨agrees_chain hc h htype (hd _ (mem_fieldsRead h.chain)), ?_⟩
    rintro inner rfl
    cases h.chain
  | compare hop h htype hl =>
    refine ⟨agrees_comparison hc h htype hl hop (.inl ⟨rfl, rfl, rfl⟩) (hd _ ?_),
      by rintro inner ⟨⟩⟩
    exact List.mem_append_left _ (mem_fieldsRead h.chain)
  | compareFlipped hop h htype hl =>
    refine ⟨agrees_comparison hc h htype hl hop (.inr ⟨rfl, rfl, rfl⟩) (hd _ ?_),
      by rintro inner ⟨⟩⟩
    exact List.mem_append_right _ (mem_fieldsRead h.chain)
  | not h ih =>
    obtain ⟨he, hinner⟩ := ih hd
    refine ⟨agrees_not hc he fun inner hstrip => hinner inner (h.strip ▸ hstrip), ?_⟩
    rintro inner ⟨⟩
    exact he
  | connective hop _ _ ihl ihr =>
    have hl := (ihl fun f hf => hd f (List.mem_append_left _ hf)).1
    have hr := (ihr fun f hf => hd f (List.mem_append_right _ hf)).1
    exact ⟨agrees_connective hc hop hl hr, by rintro inner ⟨⟩⟩

/-- **Filters and projections agree.** On every document that has the fields that a predicate reads,
the stage of the predicate returns a document from which the shape reads the truth value that says
whether its filter accepts the document. -/
theorem read_project_eq_accepts {predicate : Expr} {q : Document} {stage : Stage}
    (hc : c.Serves srv eng) (hl : predicate.asUnaryLambda? = some (p, P)) (hP : Shared m P)
    (hd : ∀ f ∈ m.schema.fieldsRead P, f.PresentIn d) (hq : m.filter predicate = .ok q)
    (hstage : m.project predicate = .ok stage) :
    ∃ result, eng.project d stage.body = some result ∧
      stage.shape.read result = .ok (.bool (srv.accepts q d)) := by
  obtain ⟨v, hv, rfl⟩ := project_value hl hP.asObject? hstage
  rw [hP.strip] at hv
  have hq' : m.filterOf P (.root p.name) = .ok q := by
    unfold filter at hq
    simp only [hl] at hq
    exact (bind_eq_ok.1 hq).choose_spec.2
  obtain ⟨-, heval⟩ := (hP.agrees hc hd).1 q v hq' hv
  refine returns_valueStage.2 ?_
  rw [heval]
  rfl

open Classical in
/-- Values that are the same are equal, and 64-bit integers are ordered. -/
noncomputable def integerCollation : Collation where
  equal a b := a = b
  less
    | .int64 a, .int64 b => a < b
    | _, _ => false
  equal_comm a b := by simp [eq_comm]
  equal_bool a b := by cases a <;> cases b <;> simp
  equal_emptied v x hv := by
    cases v <;> cases x <;> simp_all [Value.isAtomic, Value.emptied]
  less_emptied v x _ := by cases v <;> cases x <;> rfl
  emptied_less v x _ := by cases v <;> cases x <;> rfl

/-- Switches with a level, which is stored as a 64-bit integer. -/
def switches : Mapping where
  schema := Schema.builtin.addDocument
    { name := "Switch"
      members := [⟨"On", "on", .boolean, .natural⟩, ⟨"Level", "level", .int64, .natural⟩] }
  options := {}

def switch : Param := ⟨"x", .document "Switch"⟩

/-- `!(x.On && 5 < x.Level) || !!(x.Level >= 7)`, with 32-bit integers. -/
def offOrHigh : Expr :=
  .binary .orElse
    (.not (.binary .andAlso (.member (.param switch) "On")
      (.binary .less (.literal ⟨.int32 5, .int32⟩) (.member (.param switch) "Level"))))
    (.not (.not (.binary .greaterOrEqual (.member (.param switch) "Level")
      (.literal ⟨.int32 7, .int32⟩))))

theorem read_project_eq_accepts_offOrHigh :
    ∃ q stage, switches.filter (.lambda [switch] offOrHigh) = .ok q ∧
      switches.project (.lambda [switch] offOrHigh) = .ok stage ∧
      ∃ result, integerCollation.engine.project [("on", .bool true), ("level", .int64 6)]
          stage.body = some result ∧
        stage.shape.read result = .ok (.bool
          (integerCollation.server.accepts q [("on", .bool true), ("level", .int64 6)])) := by
  have hlevel : switches.schema.Reads (.member (.param switch) "Level")
      ⟨"x", ["level"], .int64, .natural, false⟩ := ⟨rfl, by simp, rfl⟩
  have hon : switches.schema.Reads (.member (.param switch) "On")
      ⟨"x", ["on"], .boolean, .natural, false⟩ := ⟨rfl, by simp, rfl⟩
  have hliteral (n : Int32) : switches.Comparable (.member (.param switch) "Level")
      ⟨"x", ["level"], .int64, .natural, false⟩ ⟨.int32 n, .int32⟩ := by
    exact ⟨by rintro pattern options ⟨⟩, by rintro fields ⟨⟩, by rintro ⟨⟩⟩
  have hshared : Shared switches offOrHigh := by
    refine .connective (by simp) (.not (.connective (by simp) (.truth hon rfl) ?_)) (.not (.not ?_))
    · exact .compareFlipped rfl hlevel rfl (hliteral 5)
    · exact .compare rfl hlevel rfl (hliteral 7)
  have hpresent : ∀ f ∈ switches.schema.fieldsRead offOrHigh,
      f.PresentIn [("on", .bool true), ("level", .int64 6)] := by
    have hfields : switches.schema.fieldsRead offOrHigh =
        [⟨"x", ["on"], .boolean, .natural, false⟩, ⟨"x", ["level"], .int64, .natural, false⟩,
          ⟨"x", ["level"], .int64, .natural, false⟩] := rfl
    have hlevel : FieldPath.PresentIn ⟨"x", ["level"], .int64, .natural, false⟩
        [("on", .bool true), ("level", .int64 6)] := ⟨.int64 6, rfl, rfl, by rintro ⟨⟩⟩
    rw [hfields]
    simp only [List.forall_mem_cons, List.not_mem_nil, false_imp_iff, implies_true, and_true]
    exact ⟨⟨.bool true, rfl, rfl, fun _ => ⟨true, rfl⟩⟩, hlevel, hlevel⟩
  obtain ⟨q, hq⟩ : ∃ q, switches.filter (.lambda [switch] offOrHigh) = .ok q := ⟨_, rfl⟩
  obtain ⟨stage, hstage⟩ : ∃ stage, switches.project (.lambda [switch] offOrHigh) = .ok stage :=
    ⟨_, rfl⟩
  exact ⟨q, stage, hq, hstage, read_project_eq_accepts integerCollation.serves_engine rfl hshared
    hpresent hq hstage⟩

/-- Flags that texts are compared with as documents. -/
def wrappedFlags : Mapping where
  schema := (Schema.builtin.addDocument
      { name := "Flag", members := [⟨"HasValue", "HasValue", .boolean, .natural⟩] }).addConverter
    ⟨.string, .boolean, fun v => some (.document [("converted", v)])⟩
  options := {}

/-- `x.HasValue == true`, with a truth value that is declared as a text. -/
def declaredText : Expr :=
  .binary .equal (.member (.param ⟨"x", .document "Flag"⟩) "HasValue")
    (.literal ⟨.bool true, .string⟩)

/-- The filter asks whether the flag is true, and the expression compares it with the converted
value. -/
theorem read_project_ne_accepts_declaredText :
    ∃ q stage result, wrappedFlags.filter (.lambda [⟨"x", .document "Flag"⟩] declaredText) = .ok q ∧
      wrappedFlags.project (.lambda [⟨"x", .document "Flag"⟩] declaredText) = .ok stage ∧
      (∀ f ∈ wrappedFlags.schema.fieldsRead declaredText, f.PresentIn [("HasValue", .bool true)]) ∧
      integerCollation.server.accepts q [("HasValue", .bool true)] = true ∧
      integerCollation.engine.project [("HasValue", .bool true)] stage.body = some result ∧
      stage.shape.read result = .ok (.bool false) := by
  have hreads : wrappedFlags.schema.Reads (.member (.param ⟨"x", .document "Flag"⟩) "HasValue")
      ⟨"x", ["HasValue"], .boolean, .natural, false⟩ := ⟨rfl, by simp, rfl⟩
  have hfields : wrappedFlags.schema.fieldsRead declaredText =
      [⟨"x", ["HasValue"], .boolean, .natural, false⟩] := rfl
  have hform : wrappedFlags.schema.storedForm ⟨"x", ["HasValue"], .boolean, .natural, false⟩
      ⟨.bool true, .string⟩ = .ok (.document [("converted", .bool true)]) := rfl
  have hstored : follow (.document [("HasValue", .bool true)]) (steps "HasValue") =
      some (.bool true) := rfl
  obtain ⟨-, haccepts⟩ := holds_test_true integerCollation.serves_engine hreads.name hstored
  obtain ⟨stage, hstage⟩ : ∃ stage, wrappedFlags.project
      (.lambda [⟨"x", .document "Flag"⟩] declaredText) = .ok stage := ⟨_, rfl⟩
  obtain ⟨o, ho, rfl⟩ := project_value rfl rfl hstage
  obtain ⟨-, x, hx, heval⟩ := eval_operandOf_comparison (p := ⟨"x", .document "Flag"⟩)
    integerCollation.serves_engine hreads
    (by rw [hform]; rintro fields ⟨⟩; decide) rfl (.inl ⟨rfl, rfl, rfl⟩) hstored rfl ho
  cases hform.symm.trans hx
  have hdiffer : integerCollation.compares .equal (.bool true)
      (.document [("converted", .bool true)]) = false := by
    simp [Collation.compares, integerCollation]
  rw [hdiffer] at heval
  obtain ⟨result, hresult, hread⟩ :=
    returns_valueStage.2 (show (integerCollation.engine.eval _ o).getD .null = .bool false by
      rw [heval, Option.getD_some])
  refine ⟨test "HasValue" (.bool true), _, result, rfl, hstage, ?_, haccepts, hresult, hread⟩
  rw [hfields]
  exact List.forall_mem_singleton.2 ⟨.bool true, hstored, rfl, fun _ => ⟨true, rfl⟩⟩

end Mapping
end DocQuery
