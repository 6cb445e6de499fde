/-
A projection of computed values returns the values of the expressions
(`read_project_scalar`).

The expressions are built from chains of stored members and constants by
arithmetic, comparisons, truth functions, `??` and `?:` (`Scalar`), and `valueOf`
is their value on a document, under the same engine as the database's. The
aggregation expression of each has its value (`eval_operandOf`), whatever its
parameters stand for (`eval_operandOf_args`); the stage returns it under the name of
its member, and the shape reads it from there.
-/
import DocQuery.Proofs.Aggregation.Binary
import DocQuery.Proofs.Aggregation.Stage

namespace DocQuery.Mapping

open DocQuery.Filter Aggregation

variable {m : Mapping} {eng : Engine} {d : Document} {p : Param} {e : Expr} {o : Value}

/-! ## Values of expressions -/

/-- The value that a literal stands for where it is compared with an expression: its stored form if
that is a stored field. A literal that cannot be stored so is not translated. -/
def comparedValue (m : Mapping) (l : Literal) (other : Expr) : Value :=
  match m.schema.chain? other.strip with
  | some f => (m.schema.storedForm f l).toOption.getD l.value
  | none => l.value

/-- The value of a side of an operation, given its value as an expression. -/
def sideValue (m : Mapping) (op : BinaryOp) (side other : Expr) (value : Value) : Value :=
  match op.isComparison, side.asLiteral? with
  | true, some l => m.comparedValue l other
  | _, _ => value

/-- The value of an expression where each parameter has a value. A missing field is null. -/
def valueWith (m : Mapping) (eng : Engine) (args : String → Value) : Expr → Value
  | .quote inner => m.valueWith eng args inner
  | .convert operand _ => m.valueWith eng args operand
  | .literal l => l.value
  | .not operand => eng.not (m.valueWith eng args operand)
  | .negate operand => eng.binary .subtract (.int32 0) (m.valueWith eng args operand)
  | .binary op left right =>
    eng.binary (op.operation (m.schema.typeOf left) (m.schema.typeOf right))
      (m.sideValue op left right (m.valueWith eng args left))
      (m.sideValue op right left (m.valueWith eng args right))
  | .conditional test ifTrue ifFalse =>
    eng.conditional (m.valueWith eng args test) (m.valueWith eng args ifTrue)
      (m.valueWith eng args ifFalse)
  | e => ((m.schema.chain? e).bind fun f => follow (args f.param) f.path).getD .null

/-- The value of an expression on a document, which every parameter stands for. -/
def valueOf (m : Mapping) (eng : Engine) (d : Document) : Expr → Value :=
  m.valueWith eng fun _ => .document d

/-- Expressions of stored values and constants. Constants, in the form in which they are compared,
are strings or have no `$` inside, as all numbers, truth values and null do. -/
inductive Scalar (m : Mapping) : Expr → Prop
  | chain {e : Expr} {f : FieldPath} (h : m.schema.chain? e = some f)
      (hpath : ∀ k ∈ f.path, isOperator k = false ∧ '.' ∉ k.toList) : Scalar m e
  | constant {l : Literal} (h : isQuoted l.value = true) : Scalar m (.literal l)
  | quote {e : Expr} (h : Scalar m e) : Scalar m (.quote e)
  | convert {e : Expr} {type : ValueType} (h : Scalar m e) : Scalar m (.convert e type)
  /-- The complement of an integer's bits is no truth function. -/
  | not {e : Expr} (htype : (m.schema.typeOf e).isInteger = false) (h : Scalar m e) :
      Scalar m (.not e)
  | negate {e : Expr} (h : Scalar m e) : Scalar m (.negate e)
  | binary {op : BinaryOp} {left right : Expr} (hl : Scalar m left) (hr : Scalar m right)
      (hconst : op.isComparison = true → ∀ side other l, (side = left ∧ other = right ∨
        side = right ∧ other = left) → side.asLiteral? = some l →
        isQuoted (m.comparedValue l other) = true) : Scalar m (.binary op left right)
  | conditional {test ifTrue ifFalse : Expr} (hc : Scalar m test) (ht : Scalar m ifTrue)
      (hf : Scalar m ifFalse) : Scalar m (.conditional test ifTrue ifFalse)

/-! ## Values of aggregation expressions -/

/-- Of these expressions, exactly the chains are stored fields. -/
theorem Scalar.fieldPath? (h : Scalar m e) :
    m.schema.fieldPath? e = .ok (m.schema.chain? e.strip) := by
  induction h with
  | chain h => rw [Schema.strip_of_chain? h, Schema.fieldPath?_of_chain? h, h]
  | quote _ ih => rw [Schema.fieldPath?, ih, Expr.strip]
  | convert _ ih => rw [Schema.fieldPath?, ih, Expr.strip]
  | constant => simp [Schema.fieldPath?, Expr.strip, Schema.chain?]
  | not => simp [Schema.fieldPath?, Expr.strip, Schema.chain?]
  | negate => simp [Schema.fieldPath?, Expr.strip, Schema.chain?]
  | binary => simp [Schema.fieldPath?, Expr.strip, Schema.chain?]
  | conditional => simp [Schema.fieldPath?, Expr.strip, Schema.chain?]

/-- A literal is compared as a constant of the value that it stands for. -/
theorem comparedConstant_eq {l : Literal} {other : Expr} (hother : Scalar m other)
    (h : m.comparedConstant l other = .ok o) : o = constant (m.comparedValue l other) := by
  have hpath := hother.fieldPath?
  unfold comparedValue
  cases hf : m.schema.chain? other.strip with
  | some f =>
    rw [hf] at hpath
    obtain ⟨x, hx, rfl⟩ := comparedConstant_stored hpath h
    simp [hx, Except.toOption]
  | none =>
    rw [comparedConstant, hpath, hf] at h
    cases h
    rfl

theorem eval_chain {f : FieldPath} (h : m.schema.chain? e = some f)
    (hpath : ∀ k ∈ f.path, isOperator k = false ∧ '.' ∉ k.toList)
    (ho : m.operandOf e (.root p.name) = .ok o) :
    eng.eval { root := d } o = follow (.document d) f.path := by
  by_cases hne : f.path = []
  · obtain ⟨-, rfl⟩ := operandOf_chain h ho
    rw [hne]
    rfl
  · have hplain : PlainPath f.path := fun k hk => (hpath k hk).1
    rw [eval_operandOf_chain ⟨h, hne, hplain.isOperator⟩ ho, FieldPath.dotted,
      steps_intercalate hne fun k hk => (hpath k hk).2]

/-- In a scope, under an environment, chains have the values that are given for the parameters. -/
def ReadsArgs (m : Mapping) (eng : Engine) (s : Scope) (env : Env) (args : String → Value) : Prop :=
  ∀ ⦃e f o⦄, m.schema.chain? e = some f →
    (∀ k ∈ f.path, isOperator k = false ∧ '.' ∉ k.toList) → m.operandOf e s = .ok o →
    (eng.eval env o).getD .null = (follow (args f.param) f.path).getD .null

theorem readsArgs_root (m : Mapping) (eng : Engine) (p : Param) (d : Document) :
    m.ReadsArgs eng (.root p.name) { root := d } fun _ => .document d :=
  fun _ _ _ h hpath ho => congrArg (Option.getD · .null) (eval_chain h hpath ho)

section Args

variable {s : Scope} {env : Env} {args : String → Value}

/-- A side of a comparison. -/
theorem eval_compared (eng : Engine) (args : String → Value) {op : BinaryOp} {side other : Expr}
    (hop : op.isComparison = true) (hother : Scalar m other)
    (hconst : ∀ l, side.asLiteral? = some l → isQuoted (m.comparedValue l other) = true)
    (hside : ∀ {o}, m.operandOf side s = .ok o →
      (eng.eval env o).getD .null = m.valueWith eng args side)
    (ho : m.compared m.operandOf side other s = .ok o) :
    (eng.eval env o).getD .null = m.sideValue op side other (m.valueWith eng args side) := by
  unfold compared at ho
  unfold sideValue
  split at ho
  · rename_i l hl
    rw [comparedConstant_eq hother ho, eval_constant (hconst l hl)]
    simp [hop, hl]
  · rename_i hl
    simp [hl, hside ho]

/-- The aggregation expression of an expression has its value. -/
theorem eval_operandOf_args (hargs : m.ReadsArgs eng s env args) (h : Scalar m e)
    (ho : m.operandOf e s = .ok o) : (eng.eval env o).getD .null = m.valueWith eng args e := by
  induction h generalizing o with
  | @chain e f h hpath =>
    rw [hargs h hpath ho]
    cases e with
    | param q => simp [valueWith, h]
    | member target name => simp [valueWith, h]
    | _ => cases h
  | constant hl =>
    rw [operandOf_of_not_reference rfl] at ho
    cases ho
    rw [eval_constant hl]
    rfl
  | quote _ ih => exact ih (operandOf_quote.1 ho)
  | convert _ ih => exact ih (operandOf_convert.1 ho)
  | not _ _ ih =>
    obtain ⟨a, ha, heval⟩ := eval_not eng env ho
    rw [heval, Option.getD_some, ih ha]
    rfl
  | negate _ ih =>
    rw [operandOf_of_not_reference rfl] at ho
    obtain ⟨a, ha, ho⟩ := bind_eq_ok.1 ho
    cases ho
    have heval : eng.eval env (opAll "$subtract" [.int32 0, a]) =
        some (eng.binary .subtract (.int32 0) ((eng.eval env a).getD .null)) :=
      eval_opAll rfl (by decide) rfl
    rw [heval, Option.getD_some, ih ha]
    rfl
  | conditional _ _ _ ihc iht ihf =>
    rw [operandOf_of_not_reference rfl] at ho
    obtain ⟨c, hc, ho⟩ := bind_eq_ok.1 ho
    obtain ⟨t, ht, ho⟩ := bind_eq_ok.1 ho
    obtain ⟨f, hf, ho⟩ := bind_eq_ok.1 ho
    cases ho
    have heval : eng.eval env (opAll "$cond" [c, t, f]) =
        some (eng.conditional ((eng.eval env c).getD .null) ((eng.eval env t).getD .null)
          ((eng.eval env f).getD .null)) :=
      eval_opAll rfl (by decide) rfl
    rw [heval, Option.getD_some, ihc hc, iht ht, ihf hf]
    rfl
  | @binary op left right hl hr hconst ihl ihr =>
    rw [valueWith]
    cases hop : op.isComparison with
    | true =>
      obtain ⟨a, b, ha, hb, heval⟩ := eval_comparison eng env hop ho
      have hleft := eval_compared eng args hop hr
        (fun l => hconst hop left right l (.inl ⟨rfl, rfl⟩)) (fun h => ihl h) ha
      have hright := eval_compared eng args hop hl
        (fun l => hconst hop right left l (.inr ⟨rfl, rfl⟩)) (fun h => ihr h) hb
      rw [heval, Option.getD_some, hleft, hright]
    | false =>
      obtain ⟨l, r, hl', hr', heval⟩ := eval_operation eng env hop ho
      rw [heval, Option.getD_some, ihl hl', ihr hr']
      simp [sideValue, hop]

end Args

theorem eval_operandOf (h : Scalar m e) (ho : m.operandOf e (.root p.name) = .ok o) :
    (eng.eval { root := d } o).getD .null = m.valueOf eng d e :=
  eval_operandOf_args (readsArgs_root m eng p d) h ho

/-! ## Stages and shapes -/

/-- Members of a new object without a type, each under its own name and with its value. -/
theorem map_projectedMembers {members : List (String × Expr)}
    {projected : List (String × Value × String)}
    (h : m.projectedMembers none members (.root p.name) = .ok projected)
    (hscalar : ∀ q ∈ members, Scalar m q.2) (eng : Engine) (d : Document) :
    (projected.map fun (element, v, name) =>
        (element, name, (eng.eval { root := d } v).getD .null)) =
      members.map fun (name, e) => (name, name, m.valueOf eng d e) := by
  induction members generalizing projected with
  | nil => cases h; rfl
  | cons q rest ih =>
    obtain ⟨name, e⟩ := q
    obtain ⟨element, o, others, helement, ho, hothers, rfl⟩ := projectedMembers_cons h
    cases helement
    have hvalue : (eng.eval { root := d } o).getD .null = m.valueOf eng d e :=
      eval_operandOf (hscalar (name, e) (by simp)) ho
    simp only [List.map_cons, eval_stageMember, hvalue,
      ih hothers fun q hq => hscalar q (by simp [hq])]

/-- A computed member is read where it is returned. -/
theorem readMembers_computed (members : List (String × String)) (result : Document) :
    Shape.readMembers (members.map fun (name, element) => (name, .computed [element])) result =
      .ok (members.map fun (name, element) => (name, (result.get? element).getD .null)) := by
  induction members with
  | nil => rfl
  | cons p rest ih =>
    obtain ⟨name, element⟩ := p
    simp only [List.map_cons, Shape.readMembers, read_computed, ih]
    rfl

/-- From what the stage of an object returns, its shape reads the value of each member. -/
theorem read_projected (eng : Engine) (d : Document) {projected : List (String × Value × String)}
    (hnames : ∀ q ∈ projected, isFieldName q.1 = true) (hnodup : (projected.map Prod.fst).Nodup)
    (hflags : ∀ q ∈ projected, q.2.1.isFlag = false) :
    ∃ result, eng.project d (withoutId
        (Document.ofFields (projected.map fun (element, v, _) => (element, v)))) = some result ∧
      Shape.read (.object (projected.map fun (element, _, name) => (name, .computed [element])))
          result =
        .ok (.document (Document.ofFields (projected.map fun (_, v, name) =>
          (name, (eng.eval { root := d } v).getD .null)))) := by
  have hkeys : (Document.keys (projected.map fun (element, v, _) => (element, v))).Nodup := by
    simpa [Document.keys, Function.comp_def] using hnodup
  obtain ⟨result, hresult, hget⟩ := get?_project eng d (List.forall_mem_map.2 hnames) hkeys
    (List.forall_mem_map.2 hflags)
  rw [Document.ofFields_of_nodup hkeys]
  refine ⟨result, hresult, ?_⟩
  have hread :=
    readMembers_computed (projected.map fun (element, _, name) => (name, element)) result
  simp only [List.map_map, Function.comp_def] at hread
  have hmembers : (projected.map fun (element, _, name) =>
      (name, (result.get? element).getD .null)) =
        projected.map fun (_, v, name) => (name, (eng.eval { root := d } v).getD .null) := by
    refine List.map_congr_left fun q hq => ?_
    obtain ⟨element, v, name⟩ := q
    simp only [hget (element, v) (List.mem_map.2 ⟨_, hq, rfl⟩)]
  rw [Shape.read, hread, hmembers]
  rfl

/-- **Projections compute the values of their members.** On every document and under every engine,
the stage of a selector of a new object returns a document from which the shape reads the object
with the value of each member's expression. -/
theorem read_project_scalar {selector body : Expr} {members : List (String × Expr)} {stage : Stage}
    (hl : selector.asUnaryLambda? = some (p, body)) (hb : body.asObject? = some (none, members))
    (hscalar : ∀ q ∈ members, Scalar m q.2) (hnames : ∀ q ∈ members, isFieldName q.1 = true)
    (hnodup : (members.map Prod.fst).Nodup) (hstage : m.project selector = .ok stage)
    (eng : Engine) (d : Document) :
    ∃ result, eng.project d stage.body = some result ∧
      stage.shape.read result =
        .ok (.document (members.map fun (name, e) => (name, m.valueOf eng d e))) := by
  obtain ⟨projected, hprojected, rfl⟩ := project_object hl hb hstage
  have hmembers := map_projectedMembers hprojected hscalar eng d
  have helements : projected.map Prod.fst = members.map Prod.fst := by
    simpa [Function.comp_def] using congrArg (List.map Prod.fst) hmembers
  have hvalues : (projected.map fun (_, v, name) =>
      (name, (eng.eval { root := d } v).getD .null)) =
        members.map fun (name, e) => (name, m.valueOf eng d e) := by
    simpa [Function.comp_def] using congrArg (List.map Prod.snd) hmembers
  have hnames' : ∀ q ∈ projected, isFieldName q.1 = true := by
    intro q hq
    have hmem : q.1 ∈ members.map Prod.fst := helements ▸ List.mem_map_of_mem hq
    obtain ⟨r, hr, heq⟩ := List.mem_map.1 hmem
    exact heq ▸ hnames r hr
  obtain ⟨result, hresult, hread⟩ := read_projected eng d hnames' (helements ▸ hnodup)
    (isFlag_projectedMembers hprojected)
  refine ⟨result, hresult, ?_⟩
  rw [hread, hvalues, Document.ofFields_of_nodup]
  simpa [Document.keys, Function.comp_def] using hnodup

/-- A sum of three terms, a text that begins with `$`, a number alone and a comparison. -/
def computedMembers : List (String × Expr) :=
  [ ("Sum", .binary .add (.binary .add (.fieldOfParam "x" "A") (.fieldOfParam "x" "B"))
      (.literal ⟨.int32 1, .int32⟩)),
    ("Label", .binary .add (.literal ⟨.string "$", .string⟩) (.fieldOfParam "x" "S")),
    ("Five", .literal ⟨.int32 5, .int32⟩),
    ("Known", .binary .equal (.fieldOfParam "x" "A") (.literal ⟨.string "$B", .string⟩)) ]

theorem read_project_scalar_computedMembers :
    ∃ stage, (mk {} {}).project (.lambda [⟨"x", .any⟩] (.object none computedMembers)) = .ok stage ∧
      ∀ eng : Engine, ∃ result,
        eng.project [("A", .int32 2), ("S", .string "s")] stage.body = some result ∧
        stage.shape.read result = .ok (.document
          [ ("Sum", eng.binary .add (eng.binary .add (.int32 2) .null) (.int32 1)),
            ("Label", eng.binary .concat (.string "$") (.string "s")),
            ("Five", .int32 5),
            ("Known", eng.binary .equal (.int32 2) (.string "$B")) ]) := by
  have hfield (name : String) (hname : isOperator name = false ∧ '.' ∉ name.toList) :
      Scalar (mk {} {}) (.fieldOfParam "x" name) :=
    .chain (f := ⟨"x", [name], .any, .natural, false⟩) rfl (by simpa using hname)
  have hscalar : ∀ q ∈ computedMembers, Scalar (mk {} {}) q.2 := by
    simp only [computedMembers, List.forall_mem_cons, List.not_mem_nil, false_imp_iff,
      implies_true, and_true]
    refine ⟨?_, ?_, ?_, ?_⟩
    · exact .binary (.binary (hfield "A" (by decide)) (hfield "B" (by decide)) (by rintro ⟨⟩))
        (.constant rfl) (by rintro ⟨⟩)
    · exact .binary (.constant rfl) (hfield "S" (by decide)) (by rintro ⟨⟩)
    · exact .constant rfl
    · refine .binary (hfield "A" (by decide)) (.constant rfl) ?_
      rintro - side other l (⟨rfl, rfl⟩ | ⟨rfl, rfl⟩) hl
      · cases hl
      · cases hl
        rfl
  obtain ⟨stage, hstage⟩ : ∃ stage, (mk {} {}).project
      (.lambda [⟨"x", .any⟩] (.object none computedMembers)) = .ok stage := ⟨_, rfl⟩
  refine ⟨stage, hstage, fun eng => ?_⟩
  exact read_project_scalar rfl rfl hscalar (by decide) (by decide) hstage eng _

/-- Items with a number that texts are compared with as documents. -/
def wrapping : Mapping where
  schema := (Schema.builtin.addDocument
      { name := "Item"
        members := [⟨"P", "P", .int32, .natural⟩, ⟨"A", "A", .string, .natural⟩] }).addConverter
    ⟨.string, .int32, fun v => some (.document [("converted", v)])⟩
  options := {}

/-- `x.P == "$A"`. -/
def equalsText : Expr :=
  .binary .equal (.member (.param ⟨"x", .document "Item"⟩) "P") (.literal ⟨.string "$A", .string⟩)

open Classical in
/-- An engine of which all operations ask whether two values are the same. -/
noncomputable def equalityEngine : Engine where
  binary _ a b := .bool (a = b)
  not v := v
  conditional _ v _ := v
  other _ _ _ := none
  isTrue _ := false

/-- The stored form `{converted: "$A"}` of a text is not marked, so the stage compares with what the
field `A` puts into it. -/
theorem read_project_equalsText :
    ∃ stage result, wrapping.project
        (.lambda [⟨"x", .document "Item"⟩] (.object none [("Same", equalsText)])) = .ok stage ∧
      equalityEngine.project [("P", .document [("converted", .int32 7)]), ("A", .int32 7)]
        stage.body = some result ∧
      stage.shape.read result = .ok (.document [("Same", .bool true)]) ∧
      wrapping.valueOf equalityEngine
        [("P", .document [("converted", .int32 7)]), ("A", .int32 7)] equalsText = .bool false := by
  have hsame (v : Value) : equalityEngine.binary .equal v v = .bool true := by
    simp [equalityEngine]
  have hother : equalityEngine.binary .equal (.document [("converted", .int32 7)])
      (.document [("converted", .string "$A")]) = .bool false := by
    simp [equalityEngine]
  refine ⟨_, [("Same", equalityEngine.binary .equal (.document [("converted", .int32 7)])
    (.document [("converted", .int32 7)]))], rfl, rfl, ?_, hother⟩
  rw [hsame]
  rfl

end DocQuery.Mapping
