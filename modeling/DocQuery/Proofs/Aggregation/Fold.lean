/-
Folds over stored arrays (`project_aggregate`).

`Aggregate` goes through an array from the left with a function of what came before
and of the item (`Fold`). Its stage does the same with the aggregation expression of the
function, whatever that is, and with its value where the function is built from its
parameters and constants (`Scalar`).

A fold starts from the value that it is given, or from the zero of the items' type
(`zeroOf`), not from the first item. It is the fold from the first item on if the
function takes zero and that item to the item. A sum does so, a product does not
(`project_product`).
-/
import DocQuery.Proofs.Aggregation.ElementMembers
import DocQuery.Proofs.Aggregation.Scalar

namespace DocQuery

open DocQuery.Filter Aggregation

/-! ## Variables -/

namespace Aggregation

variable {eng : Engine} {env : Env}

theorem get?_filter_of_ne {name other : String} (h : other ≠ name) (d : Document) :
    Document.get? (d.filter fun (k, _) => k ≠ name) other = d.get? other := by
  induction d with
  | nil => rfl
  | cons e rest ih =>
    obtain ⟨k, v⟩ := e
    by_cases hk : k = name
    · have hne : k ≠ other := fun heq => h (heq.symm.trans hk)
      simpa [Document.get?, hk, hk ▸ hne] using ih
    · simp only [ne_eq, decide_not] at ih
      simp [Document.get?, hk, ih]

theorem get?_bind_of_ne {name other : String} (h : other ≠ name) (value : Option Value) :
    (env.bind name value).vars.get? other = env.vars.get? other := by
  have hnew : Document.get? (value.toList.map (name, ·)) other = none :=
    Document.get?_eq_none (by cases value <;> simp [Document.keys, h])
  rw [Env.bind, Document.get?_append, hnew, Option.none_or, get?_filter_of_ne h]

/-- A field of a variable, of which each step is a name. -/
theorem eval_variableRef_path {name : String} (hdot : '.' ∉ name.toList) (hroot : name ≠ "ROOT")
    {path : List String} (hpath : ∀ k ∈ path, '.' ∉ k.toList) :
    eng.eval env (.string (variableRef name path)) =
      (env.vars.get? name).bind fun v => follow v path := by
  have hchars : (variableRef name path).toList =
      '$' :: '$' :: (String.intercalate "." (name :: path)).toList := by
    cases path <;> simp [variableRef, String.toList_intercalate, List.intercalate]
  have href : isOperator (variableRef name path) = true := by simp [isOperator, hchars]
  have hsteps : steps (String.intercalate "." (name :: path)) = name :: path :=
    steps_intercalate (by simp) (by simpa using ⟨hdot, hpath⟩)
  simp only [Engine.eval, href, if_true, hchars, Env.read, String.ofList_toList, hsteps, Env.named,
    hroot, if_false]

theorem getD_follow (value : Option Value) (path : List String) :
    (value.bind fun v => follow v path).getD .null =
      (follow (value.getD .null) path).getD .null := by
  cases value with
  | some v => rfl
  | none => cases path <;> rfl

theorem eval_zeroOf (type : ValueType) : eng.eval env (zeroOf type) = some (zeroOf type) := by
  unfold zeroOf
  split <;> rfl

end Aggregation

/-! ## Folds -/

/-- What `Aggregate` is given: a start, a function of what came before and of an item, and a
function of the end. -/
structure Fold where
  seed : Option Expr
  accumulator : Param
  item : Param
  body : Expr
  result : Option (Param × Expr)

namespace Fold

def ofParts? (seed : Option Expr) (step : Expr) (result : Option Expr) : Option Fold :=
  match step.asLambda? with
  | some ([accumulator, item], body) =>
    match result with
    | none => some ⟨seed, accumulator, item, body, none⟩
    | some result => result.asUnaryLambda?.map fun r => ⟨seed, accumulator, item, body, some r⟩
  | _ => none

def ofArgs? : List Expr → Option Fold
  | [step] => ofParts? none step none
  | [seed, step] => ofParts? (some seed) step none
  | [seed, step, result] => ofParts? (some seed) step (some result)
  | _ => none

variable (m : Mapping) (eng : Engine) (fold : Fold)

/-! The fold of the values of expressions. Of two parameters with one name, the item is read. -/

def start (d : Document) (type : ValueType) : Value :=
  match fold.seed with
  | some seed => m.valueOf eng d seed
  | none => zeroOf type

def next (value x : Value) : Value :=
  m.valueWith eng (fun param => if param = fold.item.name then x else value) fold.body

def finish (value : Value) : Value :=
  match fold.result with
  | some (_, result) => m.valueWith eng (fun _ => value) result
  | none => value

/-- All that the fold is given is built from stored values, parameters and constants. -/
structure IsScalar : Prop where
  seed : ∀ e ∈ fold.seed, m.Scalar e
  body : m.Scalar fold.body
  result : ∀ r ∈ fold.result, m.Scalar r.2 ∧ '.' ∉ r.1.name.toList ∧ r.1.name ≠ "ROOT"

/-! The fold of the values of aggregation expressions. -/

def frame : Frame :=
  (Frame.of fold.accumulator.name (.variable "value")).bind fold.item.name (.variable "this")

end Fold

/-- Value of the aggregation expression of an expression. -/
def Mapping.operandValue? (m : Mapping) (eng : Engine) (env : Env) (s : Scope) (e : Expr) :
    Option Value :=
  (m.operandOf e s).toOption.bind (eng.eval env)

namespace Fold

variable (m : Mapping) (eng : Engine) (env : Env) (s : Scope) (fold : Fold)

def startOperand? (type : ValueType) : Option Value :=
  match fold.seed with
  | some seed => m.operandValue? eng env s seed
  | none => some (zeroOf type)

def nextOperand? (value : Option Value) (x : Value) : Option Value :=
  m.operandValue? eng ((env.bind "value" value).bind "this" (some x)) (s.push fold.frame) fold.body

def finishOperand? (value : Option Value) : Option Value :=
  match fold.result with
  | some (r, result) =>
    m.operandValue? eng (env.bind r.name value) (s.push (.of r.name (.variable r.name))) result
  | none => value

/-- All that the fold is given has an aggregation expression. -/
structure Translates : Prop where
  seed : ∀ e ∈ fold.seed, ∃ o, m.operandOf e s = .ok o
  body : ∃ o, m.operandOf fold.body (s.push fold.frame) = .ok o
  result : ∀ r ∈ fold.result,
    ∃ o, m.operandOf r.2 (s.push (.of r.1.name (.variable r.1.name))) = .ok o

end Fold

namespace Mapping

variable {m : Mapping} {eng : Engine} {env : Env} {s : Scope} {fold : Fold} {e : Expr} {o : Value}

theorem operandValue?_of_ok (h : m.operandOf e s = .ok o) :
    m.operandValue? eng env s e = eng.eval env o := by
  rw [operandValue?, h]
  rfl

/-! ## Parameters -/

theorem binding?_of_resolve {frame : Frame} {param : String} {node : Expr} {b : Binding}
    (h : (s.push frame).resolve param node = .ok b) : frame.binding? param = some b := by
  unfold Scope.resolve Scope.classify at h
  simp only [Scope.push] at h
  split at h
  · rename_i hown
    cases h
    split at hown
    · cases hown
      assumption
    · split at hown <;> cases hown
  · cases h
  · cases h

/-- The parameters of a function are read from the variables that they stand for. -/
theorem readsArgs_push {frame : Frame} {args : String → Value}
    (h : ∀ param b, frame.binding? param = some b → ∃ name, b = .variable name ∧
      '.' ∉ name.toList ∧ name ≠ "ROOT" ∧ (env.vars.get? name).getD .null = args param) :
    m.ReadsArgs eng (s.push frame) env args := by
  intro e f o hchain hpath ho
  obtain ⟨b, hb, -, ho⟩ := operandOf_chain_of_scope hchain ho
  obtain ⟨name, rfl, hdot, hroot, hvalue⟩ := h f.param b (binding?_of_resolve hb)
  rw [ho name rfl, eval_variableRef_path hdot hroot fun k hk => (hpath k hk).2, getD_follow, hvalue]

/-! ## Folds of aggregation expressions -/

theorem foldItems_eq_ok {sub : Expr → Scope → Result Value} {node source step : Expr}
    {array : Value} {seed result : Option Expr}
    (h : m.foldItems sub node source array seed step result s = .ok o) :
    ∃ fold initial body reduced, Fold.ofParts? seed step result = some fold ∧
      m.foldSeed sub source fold.seed s = .ok initial ∧
      sub fold.body (s.push fold.frame) = .ok body ∧
      reduced = op "$reduce" (.document
        [("input", array), ("initialValue", initial), ("in", body)]) ∧
      (fold.result = none ∧ o = reduced ∨ ∃ r e v, fold.result = some (r, e) ∧
        sub e (s.push (.of r.name (.variable r.name))) = .ok v ∧
        o = op "$let" (.document [("vars", .single r.name reduced), ("in", v)])) := by
  unfold foldItems at h
  split at h
  · rename_i accumulator item body hstep
    obtain ⟨initial, hinitial, h⟩ := bind_eq_ok.1 h
    obtain ⟨body', hbody, h⟩ := bind_eq_ok.1 h
    unfold foldResult at h
    cases result with
    | none =>
      cases h
      exact ⟨⟨seed, accumulator, item, body, none⟩, initial, body', _,
        by simp [Fold.ofParts?, hstep], hinitial, hbody, rfl, .inl ⟨rfl, rfl⟩⟩
    | some result =>
      obtain ⟨⟨name, v⟩, hlambda, h⟩ := bind_eq_ok.1 h
      cases h
      unfold lambdaBody at hlambda
      split at hlambda
      · cases hlambda
      · rename_i r e hr
        obtain ⟨v', hv, hlambda⟩ := bind_eq_ok.1 hlambda
        cases hlambda
        exact ⟨⟨seed, accumulator, item, body, some (r, e)⟩, initial, body', _,
          by simp [Fold.ofParts?, hstep, hr], hinitial, hbody, rfl, .inr ⟨r, e, v, rfl, hv, rfl⟩⟩
  · cases h

variable {p : Param} {coll : Expr} {f : FieldPath} {type : ValueType} {args : List Expr}

/-- `Aggregate` with what it may be given. -/
theorem operandOf_aggregate (hcoll : m.schema.chain? coll = some f)
    (harray : f.type.isArray = true)
    (ho : m.operandOf (.call coll "Aggregate" args) s = .ok o) :
    ∃ node array seed step result, m.operandOf coll s = .ok array ∧
      Fold.ofArgs? args = Fold.ofParts? seed step result ∧
      m.foldItems m.operandOf node coll array seed step result s = .ok o := by
  rw [operandOf_of_not_reference rfl, computedOperand,
    callOperand_array hcoll harray (by decide) (by decide)] at ho
  unfold arrayCall at ho
  rcases args with _ | ⟨a, _ | ⟨b, _ | ⟨c, _ | ⟨_, _⟩⟩⟩⟩
  · obtain ⟨array, -, h⟩ := bind_eq_ok.1 ho
    cases h
  · obtain ⟨array, harray, h⟩ := bind_eq_ok.1 ho
    exact ⟨_, array, none, a, none, harray, rfl, h⟩
  · obtain ⟨array, harray, h⟩ := bind_eq_ok.1 ho
    exact ⟨_, array, some a, b, none, harray, rfl, h⟩
  · obtain ⟨array, harray, h⟩ := bind_eq_ok.1 ho
    exact ⟨_, array, some a, b, some c, harray, rfl, h⟩
  · obtain ⟨array, -, h⟩ := bind_eq_ok.1 ho
    cases h

/-- The stage of a fold goes through the array with the aggregation expression of the function. -/
theorem eval_foldItems (heng : eng.ReadsFolds) {node source step : Expr} {array : Value}
    {seed result : Option Expr} (hitem : (m.schema.typeOf source).item? = some type)
    (h : m.foldItems m.operandOf node source array seed step result s = .ok o) :
    ∃ fold, Fold.ofParts? seed step result = some fold ∧ fold.Translates m s ∧ ∀ env items,
      eng.eval env array = some (.array items) →
      eng.eval env o = fold.finishOperand? m eng env s
        (items.foldl (fold.nextOperand? m eng env s) (fold.startOperand? m eng env s type)) := by
  obtain ⟨fold, initial, body, reduced, hfold, hinitial, hbody, rfl, hresult⟩ := foldItems_eq_ok h
  have htranslates : fold.Translates m s := by
    refine ⟨fun e he => ?_, ⟨body, hbody⟩, fun r hr => ?_⟩
    · rw [Option.mem_def.1 he] at hinitial
      exact ⟨initial, hinitial⟩
    · obtain ⟨hnone, -⟩ | ⟨r', e, v, hsome, hv, -⟩ := hresult
      · cases hnone.symm.trans hr
      · cases hsome.symm.trans hr
        exact ⟨v, hv⟩
  refine ⟨fold, hfold, htranslates, fun env items harray => ?_⟩
  have hstart : fold.startOperand? m eng env s type = eng.eval env initial := by
    unfold Fold.startOperand?
    cases hseed : fold.seed with
    | some seed' =>
      rw [hseed] at hinitial
      exact operandValue?_of_ok hinitial
    | none =>
      rw [hseed] at hinitial
      cases hinitial
      rw [hitem, Option.getD_some, eval_zeroOf]
  have hnext : fold.nextOperand? m eng env s = fun value x =>
      eng.eval ((env.bind "value" value).bind "this" (some x)) body := by
    funext value x
    exact operandValue?_of_ok hbody
  have hreduced := heng.reduces harray initial body
  rw [hstart, hnext, ← hreduced, Fold.finishOperand?]
  obtain ⟨hnone, rfl⟩ | ⟨r, e, v, hsome, hv, rfl⟩ := hresult
  · rw [hnone]
  · rw [hsome, heng.binds]
    exact (operandValue?_of_ok hv).symm

/-! ## Folds of values -/

/-- In the function of a fold, the accumulator and the item have the values of its variables. -/
theorem readsArgs_fold (m : Mapping) (eng : Engine) (env : Env) (s : Scope) (fold : Fold)
    (value : Option Value) (x : Value) :
    m.ReadsArgs eng (s.push fold.frame) ((env.bind "value" value).bind "this" (some x))
      fun param => if param = fold.item.name then x else value.getD .null := by
  refine readsArgs_push fun param b hb => ?_
  by_cases hitem : param = fold.item.name
  · have hthis : b = .variable "this" := by
      simpa [Fold.frame, Frame.bind, Frame.of, Frame.binding?, hitem] using hb.symm
    refine ⟨"this", hthis, by decide, by decide, ?_⟩
    rw [get?_bind, if_pos hitem, Option.getD_some]
  · have hvalue : b = .variable "value" := by
      by_cases hacc : fold.accumulator.name = param
      · simpa [Fold.frame, Frame.bind, Frame.of, Frame.binding?, Ne.symm hitem, hacc] using hb.symm
      · simp [Fold.frame, Frame.bind, Frame.of, Frame.binding?, Ne.symm hitem, hacc] at hb
    refine ⟨"value", hvalue, by decide, by decide, ?_⟩
    rw [get?_bind_of_ne (by decide), get?_bind, if_neg hitem]

theorem getD_operandValue? {args : String → Value} (hargs : m.ReadsArgs eng s env args)
    (h : m.Scalar e) (ho : ∃ o, m.operandOf e s = .ok o) :
    (m.operandValue? eng env s e).getD .null = m.valueWith eng args e := by
  obtain ⟨o, ho⟩ := ho
  rw [operandValue?_of_ok ho, eval_operandOf_args hargs h ho]

/-- A fold of the values of aggregation expressions is the fold of the values of the expressions. -/
theorem getD_foldOperand? (htranslates : fold.Translates m (.root p.name))
    (hscalar : fold.IsScalar m) (d : Document) (items : List Value) (type : ValueType) :
    (fold.finishOperand? m eng { root := d } (.root p.name)
      (items.foldl (fold.nextOperand? m eng { root := d } (.root p.name))
        (fold.startOperand? m eng { root := d } (.root p.name) type))).getD .null =
      fold.finish m eng (items.foldl (fold.next m eng) (fold.start m eng d type)) := by
  have hstart : (fold.startOperand? m eng { root := d } (.root p.name) type).getD .null =
      fold.start m eng d type := by
    unfold Fold.startOperand? Fold.start
    split
    · rename_i seed hseed
      exact getD_operandValue? (readsArgs_root m eng p d) (hscalar.seed seed hseed)
        (htranslates.seed seed hseed)
    · rfl
  have hnext (value : Option Value) (x : Value) :
      fold.next m eng (value.getD .null) x =
        (fold.nextOperand? m eng { root := d } (.root p.name) value x).getD .null :=
    (getD_operandValue? (readsArgs_fold m eng _ _ fold value x) hscalar.body
      htranslates.body).symm
  have hfold (start : Option Value) : items.foldl (fold.next m eng) (start.getD .null) =
      (items.foldl (fold.nextOperand? m eng { root := d } (.root p.name)) start).getD .null :=
    List.foldl_hom (Option.getD · Value.null) hnext
  rw [← hstart, hfold]
  generalize items.foldl _ _ = value
  unfold Fold.finishOperand? Fold.finish
  split
  · rename_i r result hresult
    obtain ⟨hresult', hdot, hroot⟩ := hscalar.result _ hresult
    refine getD_operandValue? (readsArgs_push fun param b hb => ?_) hresult'
      (htranslates.result _ hresult)
    obtain ⟨-, rfl⟩ : r.name = param ∧ .variable r.name = b := by
      simpa [Frame.of, Frame.binding?] using hb
    exact ⟨r.name, rfl, hdot, hroot, by rw [get?_bind]⟩
  · rfl

/-! ## Stages of folds -/

/-- The stage of `Aggregate` returns the fold of the values of aggregation expressions. -/
theorem returns_aggregate {selector : Expr} {stage : Stage} (heng : eng.ReadsFolds)
    (hcoll : m.schema.Reads coll f) (hitem : f.type.item? = some type)
    (hl : selector.asUnaryLambda? = some (p, .call coll "Aggregate" args))
    (hstage : m.project selector = .ok stage) :
    ∃ fold, Fold.ofArgs? args = some fold ∧ fold.Translates m (.root p.name) ∧
      ∀ d items v, follow (.document d) (steps f.dotted) = some (.array items) →
        (stage.Returns eng d v ↔ (fold.finishOperand? m eng { root := d } (.root p.name)
          (items.foldl (fold.nextOperand? m eng { root := d } (.root p.name))
            (fold.startOperand? m eng { root := d } (.root p.name) type))).getD .null = v) := by
  obtain ⟨o, ho, rfl⟩ := project_value hl rfl hstage
  have harray : f.type.isArray = true := by rw [ValueType.isArray, hitem, Option.isSome_some]
  have htype : (m.schema.typeOf coll).item? = some type := by
    rw [Schema.typeOf_of_chain? hcoll.chain, hitem]
  obtain ⟨node, array, seed, step, result, hsource, hargs, hfold⟩ :=
    operandOf_aggregate hcoll.chain harray ho
  obtain ⟨fold, hparts, htranslates, heval⟩ := eval_foldItems heng htype hfold
  refine ⟨fold, hargs.trans hparts, htranslates, fun d items v hitems => ?_⟩
  rw [← heval { root := d } items ((eval_operandOf_chain hcoll hsource).trans hitems)]
  exact returns_valueStage

/-- **`Aggregate` is a fold from the left.** Whatever it is given, its stage returns the fold of
the values of the aggregation expressions, with the accumulator and the item as variables. Given
expressions of parameters, stored values and constants, that is the fold of their values. It starts
from the seed, or else from the zero of the items' type. -/
theorem project_aggregate {selector : Expr} {stage : Stage} (heng : eng.ReadsFolds)
    (hcoll : m.schema.Reads coll f) (hitem : f.type.item? = some type)
    (hl : selector.asUnaryLambda? = some (p, .call coll "Aggregate" args))
    (hstage : m.project selector = .ok stage) :
    ∃ fold, Fold.ofArgs? args = some fold ∧ fold.Translates m (.root p.name) ∧
      ∀ d items, follow (.document d) (steps f.dotted) = some (.array items) →
        stage.Returns eng d ((fold.finishOperand? m eng { root := d } (.root p.name)
          (items.foldl (fold.nextOperand? m eng { root := d } (.root p.name))
            (fold.startOperand? m eng { root := d } (.root p.name) type))).getD .null) ∧
        (fold.IsScalar m →
          stage.Returns eng d
            (fold.finish m eng (items.foldl (fold.next m eng) (fold.start m eng d type))) ∧
          ∀ a rest, fold.seed = none → items = a :: rest → fold.next m eng (zeroOf type) a = a →
            stage.Returns eng d (fold.finish m eng (rest.foldl (fold.next m eng) a))) := by
  obtain ⟨fold, hargs, htranslates, hreturns⟩ := returns_aggregate heng hcoll hitem hl hstage
  refine ⟨fold, hargs, htranslates, fun d items hitems => ⟨?_, fun hscalar => ?_⟩⟩
  · exact (hreturns d items _ hitems).2 rfl
  · have hvalue : stage.Returns eng d
        (fold.finish m eng (items.foldl (fold.next m eng) (fold.start m eng d type))) :=
      (hreturns d items _ hitems).2 (getD_foldOperand? htranslates hscalar d items type)
    refine ⟨hvalue, ?_⟩
    rintro a rest hseed rfl hzero
    have hstart : fold.start m eng d type = zeroOf type := by rw [Fold.start, hseed]
    rwa [hstart, List.foldl_cons, hzero] at hvalue

/-- Documents with an array of numbers and a number. -/
def measured : Mapping where
  schema := Schema.builtin.addDocument
    { name := "Root"
      members := [⟨"M", "M", .array .int32, .natural⟩, ⟨"P", "P", .int32, .natural⟩] }
  options := {}

/-- A member of `x`. -/
def ofRoot (name : String) : Expr := .member (.param ⟨"x", .document "Root"⟩) name

theorem reads_measures :
    measured.schema.Reads (ofRoot "M") ⟨"x", ["M"], .array .int32, .natural, false⟩ :=
  ⟨rfl, by decide, by decide⟩

/-- A selector of a fold of the numbers. -/
def aggregateMeasures (args : List Expr) : Expr :=
  .lambda [⟨"x", .document "Root"⟩] (.call (ofRoot "M") "Aggregate" args)

/-- An operation on two parameters. -/
def onParams (op : BinaryOp) (a b : String) : Expr :=
  .binary op (.param ⟨a, .int32⟩) (.param ⟨b, .int32⟩)

theorem scalar_onParams {op : BinaryOp} (hop : op.isComparison = false) (a b : String) :
    measured.Scalar (onParams op a b) := by
  refine .binary (.chain (f := ⟨a, [], .int32, .natural, false⟩) rfl (by simp))
    (.chain (f := ⟨b, [], .int32, .natural, false⟩) rfl (by simp)) ?_
  simp [hop]

theorem valueWith_onParams {op : BinaryOp} (hop : op.isComparison = false) (eng : Engine)
    (args : String → Value) (a b : String) :
    measured.valueWith eng args (onParams op a b) =
      eng.binary (op.operation .int32 .int32) (args a) (args b) := by
  have hparam (name : String) :
      measured.valueWith eng args (.param ⟨name, .int32⟩) = args name := by
    change (follow (args name) []).getD .null = _
    rw [follow_nil, Option.getD_some]
  rw [onParams, valueWith, hparam, hparam]
  simp only [sideValue, hop]
  rfl

/-- What is left of `P` after the numbers are taken from it, squared. -/
def squaredRest : Fold where
  seed := some (ofRoot "P")
  accumulator := ⟨"a", .int32⟩
  item := ⟨"i", .int32⟩
  body := onParams .subtract "a" "i"
  result := some (⟨"r", .int32⟩, onParams .multiply "r" "r")

theorem isScalar_squaredRest : squaredRest.IsScalar measured where
  seed e he := by
    cases he
    exact .chain (f := ⟨"x", ["P"], .int32, .natural, false⟩) rfl (by decide)
  body := scalar_onParams rfl "a" "i"
  result r hr := by
    cases hr
    exact ⟨scalar_onParams rfl "r" "r", by decide, by decide⟩

def twoMeasures : Document := [("M", .array [.int32 2, .int32 3]), ("P", .int32 9)]

/-- `x => x.M.Aggregate(x.P, (a, i) => a - i, r => r * r)`. -/
theorem project_aggregate_squaredRest :
    ∃ stage, measured.project (aggregateMeasures
        [ofRoot "P", .lambda [⟨"a", .int32⟩, ⟨"i", .int32⟩] (onParams .subtract "a" "i"),
          .lambda [⟨"r", .int32⟩] (onParams .multiply "r" "r")]) = .ok stage ∧
      ∀ (base : Engine) (rest : Value), rest =
          base.binary .subtract (base.binary .subtract (.int32 9) (.int32 2)) (.int32 3) →
        stage.Returns base.withArrays twoMeasures (base.binary .multiply rest rest) := by
  obtain ⟨stage, hstage⟩ : ∃ stage, measured.project (aggregateMeasures
      [ofRoot "P", .lambda [⟨"a", .int32⟩, ⟨"i", .int32⟩] (onParams .subtract "a" "i"),
        .lambda [⟨"r", .int32⟩] (onParams .multiply "r" "r")]) = .ok stage := ⟨_, rfl⟩
  refine ⟨stage, hstage, ?_⟩
  rintro base _ rfl
  obtain ⟨fold, hfold, -, hreturns⟩ :=
    project_aggregate (readsFolds_withArrays base) reads_measures rfl rfl hstage
  obtain rfl : squaredRest = fold := Option.some.inj hfold
  have hstart : squaredRest.start measured base.withArrays twoMeasures .int32 = .int32 9 := rfl
  have hnext (a i : Value) :
      squaredRest.next measured base.withArrays a i = base.binary .subtract a i :=
    valueWith_onParams rfl base.withArrays _ "a" "i"
  have hfinish (r : Value) :
      squaredRest.finish measured base.withArrays r = base.binary .multiply r r :=
    valueWith_onParams rfl base.withArrays _ "r" "r"
  have hvalue := ((hreturns twoMeasures _ rfl).2 isScalar_squaredRest).1
  rwa [hstart, List.foldl_cons, hnext, List.foldl_cons, hnext, List.foldl_nil, hfinish] at hvalue

/-- An engine that multiplies 32-bit integers. -/
def multiplying : Engine where
  binary op a b :=
    match op, a, b with
    | .multiply, .int32 a, .int32 b => .int32 (a * b)
    | _, _, _ => .null
  not _ := .null
  conditional _ _ _ := .null
  other _ _ _ := none
  isTrue _ := false

/-- The product of the numbers. -/
def product : Fold where
  seed := none
  accumulator := ⟨"a", .int32⟩
  item := ⟨"i", .int32⟩
  body := onParams .multiply "a" "i"
  result := none

/-- A product that is given no start is zero, and not the product from the first number on. -/
theorem project_product :
    ∃ stage, measured.project (aggregateMeasures
        [.lambda [⟨"a", .int32⟩, ⟨"i", .int32⟩] (onParams .multiply "a" "i")]) = .ok stage ∧
      stage.Returns multiplying.withArrays twoMeasures (.int32 0) ∧
      [Value.int32 3].foldl (product.next measured multiplying.withArrays) (.int32 2) = .int32 6 ∧
      ¬stage.Returns multiplying.withArrays twoMeasures (.int32 6) := by
  have hscalar : product.IsScalar measured :=
    ⟨fun e he => (nomatch he), scalar_onParams rfl "a" "i", fun r hr => (nomatch hr)⟩
  obtain ⟨stage, hstage⟩ : ∃ stage, measured.project (aggregateMeasures
      [.lambda [⟨"a", .int32⟩, ⟨"i", .int32⟩] (onParams .multiply "a" "i")]) = .ok stage :=
    ⟨_, rfl⟩
  obtain ⟨fold, hfold, htranslates, hreturns⟩ :=
    returns_aggregate (readsFolds_withArrays multiplying) reads_measures rfl rfl hstage
  obtain rfl : product = fold := Option.some.inj hfold
  refine ⟨stage, hstage, ?_, rfl, ?_⟩
  · rw [hreturns twoMeasures _ _ rfl, getD_foldOperand? htranslates hscalar]
    rfl
  · rw [hreturns twoMeasures _ _ rfl, getD_foldOperand? htranslates hscalar]
    exact fun h => absurd (Value.int32.inj h) (by decide)

end Mapping
end DocQuery
