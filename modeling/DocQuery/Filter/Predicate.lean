/-
Filters of predicates.

`filterNode` says how the filter of an expression is built from the filters of
its parts; `filterWithin` applies it to expressions of limited size, and
`filterOf` to every expression. Conditions on the items of a stored array stand
under `$elemMatch`. Inside such a condition, one on a further array that tests a
single field is written with the path of that field instead.
-/
import DocQuery.Filter.Membership

namespace DocQuery

namespace Filter

/-- Predicates on array items that may be written with a longer path. -/
def collapsible : Expr → Bool
  | .binary op _ _ => op.isComparison
  | .call _ method args =>
    match method with
    | "Any" => args.length = 1
    | "Contains" | "StartsWith" | "EndsWith" => true
    | _ => false
  | .convert operand _ => collapsible operand
  | .quote inner => collapsible inner
  | .not operand => collapsible operand
  | _ => false

/-- Whether a filter is the test of one named field. -/
def isFieldTest (d : Document) : Bool :=
  match d with
  | [(key, _)] => key ≠ "" && !isOperator key
  | _ => false

mutual
/-- Whether a logical operator, at any depth, holds a test of the array item itself. -/
def testsItem : List (String × Value) → Bool
  | [] => false
  | (key, .array items) :: rest =>
    key = "" || (isOperator key && clausesTestItem items) || testsItem rest
  | (key, _) :: rest => key = "" || testsItem rest
def clausesTestItem : List Value → Bool
  | [] => false
  | .document clause :: rest => testsItem clause || clausesTestItem rest
  | _ :: rest => clausesTestItem rest
end

/-- Operand of `$elemMatch` for a condition on array items. A test of the item itself has an
empty name; its operators become the operand, and it has to stand alone. -/
def itemCondition (node : Expr) (body : Document) : Result Document :=
  match body.get? "", body with
  | none, _ => if testsItem body then .error (.unsupported node) else .ok body
  | some (.document ops), [_] => .ok (if isOperators ops then ops else test "$eq" (.document ops))
  | some (.regex pattern options), [_] => .ok (test "$regex" (.regex pattern options))
  | some value, [_] => .ok (test "$eq" value)
  | some _, _ => .error (.unsupported node)

end Filter

namespace Mapping

open DocQuery.Filter

section Node
variable (m : Mapping) (sub : Expr → Scope → Result Document)

/-- A comparison. A test that is compared with true or false is taken for itself or refused. -/
def comparison (node : Expr) (op : BinaryOp) (left right : Expr) (s : Scope) : Result Document := do
  match Comparison.of? op left right with
  | none => throw (.unsupported node)
  | some c =>
    match ← c.firstAnswer s (m.comparisonRules) with
    | some filter => return filter
    | none =>
      match c.value.asBool?, c.op with
      | some expected, .equal =>
        if c.left.isTest then
          let filter ← sub c.left s
          return if expected then filter else complement filter
        else m.plainComparison node c s
      | some expected, .notEqual =>
        if c.left.isTest then
          let filter ← sub c.left s
          return if expected then complement filter else filter
        else m.plainComparison node c s
      | _, _ => m.plainComparison node c s

/-- Equality of strings under a comparison that is known. -/
def stringEquality (node a b comparison : Expr) (s : Scope) : Result Document :=
  match comparison.known?.bind Literal.stringComparison? with
  | some .ordinal => m.comparison sub node .equal a b s
  | some .ordinalIgnoreCase => m.equalIgnoringCase node a b s
  | none => .error (.unsupported node)

/-- Refused predicate. A double refusal is the predicate itself. -/
def negation (node operand : Expr) (s : Scope) : Result Document :=
  match operand.strip with
  | .not inner => sub inner s
  | _ =>
    if (m.schema.typeOf operand).isInteger then .error (.unsupported node)
    else complement <$> sub operand s

/-- Condition on the items of an array, written with the path of the field that it tests. -/
def collapsed? (stored : Target) (param : Param) (body : Expr) (s : Scope) :
    Result (Option Document) := do
  if s.inElemMatch && collapsible body then
    let frame := { Frame.of param.name (.path stored.path) with elemMatch := true }
    let filter ← sub body (s.push frame)
    return if isFieldTest filter then some filter else none
  else return none

/-- Filter of a condition on one array item. -/
def itemFilter (param : Param) (body : Expr) (s : Scope) : Result Document :=
  sub body (s.push { Frame.of param.name .root with elemMatch := true })

/-- Some item of a stored array, of those that a test selects if there is one, passes a
predicate. -/
def anyStored (node array : Expr) (selection : Option Document) (param : Param) (body : Expr)
    (s : Scope) : Result Document := do
  let stored ← m.target array s
  if !stored.type.isArray then throw (.unsupported node)
  else
    match selection with
    | some mark =>
      let filter ← itemFilter sub param body s
      return testOp stored.name "$elemMatch"
        (.document (← itemCondition node (conj [mark, filter])))
    | none =>
      match ← collapsed? sub stored param body s with
      | some filter => return filter
      | none =>
        let filter ← itemFilter sub param body s
        return testOp stored.name "$elemMatch" (.document (← itemCondition node filter))

/-- Some item of an array passes a predicate. -/
def anyItem (node source predicate : Expr) (s : Scope) : Result Document := do
  match predicate.asUnaryLambda? with
  | none => throw (.unsupported node)
  | some (param, body) =>
    match source.known? with
    | some values => m.knownItems node .any values param body s
    | none =>
      match source.strip with
      | .call inner "OfType" [typeArg] =>
        let selection ← m.typeSelection node inner typeArg
        m.anyStored sub node inner selection param body s
      | _ => m.anyStored sub node source none param body s

/-- Every item of an array passes a predicate: none passes its complement. -/
def allItems (node source predicate : Expr) (s : Scope) : Result Document := do
  match predicate.asUnaryLambda? with
  | none => throw (.unsupported node)
  | some (param, body) =>
    match source.known? with
    | some values => m.knownItems node .all values param body s
    | none =>
      let stored ← m.target source s
      if !stored.type.isArray then throw (.unsupported node)
      else
        let failing := complement (← itemFilter sub param body s)
        return testOp stored.name "$not"
          (.single "$elemMatch" (.document (← itemCondition node failing)))

/-- A stored array has items. -/
def nonEmpty (node source : Expr) (s : Scope) : Result Document := do
  let target ← m.target source s
  if target.type.isArray then
    return test target.name (.document [("$ne", .null), ("$not", .single "$size" (.int32 0))])
  else throw (.unsupported node)

/-- A stored number has all bits of a known one. -/
def hasBits (node operand flag : Expr) (s : Scope) : Result Document := do
  let target ← m.target operand s
  let flag ← knownOr node flag
  return testOp target.name "$bitsAllSet" flag.value

/-- Predicate that is a method call. -/
def callFilter (node target : Expr) (method : String) (args : List Expr) (s : Scope) :
    Result Document :=
  match args with
  | [] => if method = "Any" then m.nonEmpty node target s else .error (.unsupported node)
  | [arg] =>
    match method with
    | "Any" => m.anyItem sub node target arg s
    | "All" => m.allItems sub node target arg s
    | "Contains" => m.contains node target arg s
    | "StartsWith" => m.stringMatch node target .atStart arg s
    | "EndsWith" => m.stringMatch node target .atEnd arg s
    | "ContainsKey" => m.containsKey node target arg s
    | "Equals" => m.comparison sub node .equal target arg s
    | "In" => m.isOneOf node target arg s
    | "HasFlag" => m.hasBits node target arg s
    | _ => .error (.unsupported node)
  | [other, comparison] =>
    if method = "Equals" then m.stringEquality sub node target other comparison s
    else .error (.unsupported node)
  | _ => .error (.unsupported node)

/-- Predicate that is a call on a class. -/
def staticCallFilter (node : Expr) (owner method : String) (args : List Expr) (s : Scope) :
    Result Document :=
  match owner, method, args with
  | "String", "IsNullOrEmpty", [text] => do
    let target ← m.target text s
    return testOp target.name "$in" (.array [.null, .string ""])
  | "Regex", "IsMatch", [input, pattern] => m.regexMatch node input pattern none s
  | "Regex", "IsMatch", [input, pattern, options] =>
    m.regexMatch node input pattern (some options) s
  | "String", "Equals", [a, b] => m.comparison sub node .equal a b s
  | "Object", "Equals", [a, b] => m.comparison sub node .equal a b s
  | "String", "Equals", [a, b, comparison] => m.stringEquality sub node a b comparison s
  | _, _, _ => .error (.unsupported node)

/-- Predicate that is a stored truth value. -/
def truthTest (node : Expr) (s : Scope) : Result Document := do
  let target ← m.target node s
  match target.type.underlying with
  | .boolean => return test target.name (.bool true)
  | .any => return test target.name (.bool true)
  | _ => throw (.unsupported node)

/-- Filter of an expression, from the filters of its parts. -/
def filterNode (node : Expr) (s : Scope) : Result Document :=
  match node with
  | .quote inner => sub inner s
  | .convert operand _ => sub operand s
  | .literal l =>
    match l.asBool? with
    | some b => .ok (ofBool b)
    | none => .error (.unsupported node)
  | .inject filter => .ok filter
  | .not operand => m.negation sub node operand s
  | .binary op left right =>
    let both (join : List Document → Document) : Result Document := do
      return join [← sub left s, ← sub right s]
    match op with
    | .andAlso => both conj
    | .orElse => both disj
    | .and => if (m.schema.typeOf left).isBoolean then both conj else .error (.unsupported node)
    | .or => if (m.schema.typeOf left).isBoolean then both disj else .error (.unsupported node)
    | op =>
      if op.isComparison then m.comparison sub node op left right s
      else .error (.unsupported node)
  | .call target method args => m.callFilter sub node target method args s
  | .staticCall owner method args =>
    match node.receiverForm? with
    | some call => sub call s
    | none => m.staticCallFilter sub node owner method args s
  | .typeTest operand typeName exact => m.typeTest node operand typeName exact s
  | .member target name =>
    if name = "HasValue" && (m.schema.typeOf target).isNullable then do
      let target ← m.target target s
      return testOp target.name "$ne" .null
    else m.truthTest node s
  | .param _ => m.truthTest node s
  | .index _ _ => m.truthTest node s
  | _ => .error (.unsupported node)

end Node

/-- Filter of an expression of size at most `n`. -/
def filterWithin (m : Mapping) : Nat → Expr → Scope → Result Document
  | 0, node, _ => .error (.unsupported node)
  | n + 1, node, s => m.filterNode (m.filterWithin n) node s

/-- Filter of an expression. -/
def filterOf (m : Mapping) (e : Expr) (s : Scope) : Result Document := m.filterWithin e.size e s

/-- Filter of a predicate with one parameter, the tested document. -/
def filter (m : Mapping) (predicate : Expr) : Result Document := do
  match predicate.asUnaryLambda? with
  | none => throw (.unsupported predicate)
  | some (param, body) =>
    let s := Scope.root param.name
    s.check body
    m.filterOf body s

end Mapping
end DocQuery
