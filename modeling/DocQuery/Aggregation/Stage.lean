/-
Stages of an aggregation: what a selector computes from each document
(`project`), or from each group of documents with the same key (`group`), and
the shape in which the results come back.
-/
import DocQuery.Aggregation.Expression
import DocQuery.Shape

namespace DocQuery

/-- Body of a stage, and the shape that reads the documents it returns. -/
structure Stage where
  body : Document
  shape : Shape

/-- Member of a stage for a result that has no name of its own. -/
def Stage.valueName : String := "value"

/-- Members of a new object, if it has any. -/
def Expr.asObject? (e : Expr) : Option (Option String × List (String × Expr)) :=
  match e.strip with
  | .object typeName (m :: rest) => some (typeName, m :: rest)
  | _ => none

namespace Mapping

open Aggregation

/-! ## Projections -/

/-- Elements, computed values and shapes of a new object's members. -/
def projectedMembers (m : Mapping) (typeName : Option String) (members : List (String × Expr))
    (s : Scope) : Result (List (String × Value × String)) :=
  members.mapM fun (name, e) => do
    let element ← m.outputElement typeName name
    return (element, stageMember (← m.operandOf e s), name)

/-- Excludes the identifier unless it is computed. -/
def withoutId (body : Document) : Document :=
  if body.hasKey "_id" then body else body.insert "_id" (.int32 0)

/-- Projection stage of a selector with one parameter, the document. A new object is returned
member by member, any other value under one name. -/
def project (m : Mapping) (selector : Expr) : Result Stage := do
  match selector.asUnaryLambda? with
  | none => throw (.unsupported selector)
  | some (param, body) =>
    let s := Scope.root param.name
    s.check body
    match body.asObject? with
    | some (typeName, members) =>
      let projected ← m.projectedMembers typeName members s
      return {
        body := withoutId (Document.ofFields (projected.map fun (element, v, _) => (element, v)))
        shape := .object (projected.map fun (element, _, name) => (name, .computed [element])) }
    | none =>
      let v ← m.operandOf body.strip s
      return {
        body := withoutId [(Stage.valueName, stageMember v)]
        shape := .computed [Stage.valueName] }

/-! ## Groups -/

end Mapping

/-- Members of the key that an expression reads from a group. -/
def Expr.keyPath? (group : String) : Expr → Option (List String)
  | .quote inner => inner.keyPath? group
  | .convert operand _ => operand.keyPath? group
  | .member target name =>
    if target.isParam group && name = "Key" then some []
    else (target.keyPath? group).map (· ++ [name])
  | _ => none

/-- What an accumulator is given for each document of a group. -/
inductive GroupSource where
  | documents
  /-- What a selector makes of the document. -/
  | selected (selector : Expr)

/-- The documents of a group, or a selection from them. -/
def Expr.groupSource? (group : String) (e : Expr) : Option GroupSource :=
  if e.isParam group then some .documents
  else
    match e.strip with
    | .call inner "Select" [selector] =>
      if inner.isParam group then some (.selected selector) else none
    | _ => none

/-- Members read from a call, outermost last, with the call. -/
def Expr.membersOf (e : Expr) (path : List String) : Expr × List String :=
  match e with
  | .quote inner => inner.membersOf path
  | .convert operand _ => operand.membersOf path
  | .member target name => target.membersOf (name :: path)
  | e => (e, path)

namespace Mapping

open Aggregation

/-- Value that a lambda has for each document of a group. -/
def perDocument (m : Mapping) (node lambda : Expr) : Result Value :=
  match lambda.asUnaryLambda? with
  | none => .error (.unsupported node)
  | some (param, body) => m.operandOf body (.root param.name)

/-- Value that an accumulator is given for each document of a group. -/
def accumulated (m : Mapping) (node : Expr) : GroupSource → Result Value
  | .documents => .ok (.string (fieldRef []))
  | .selected selector => m.perDocument node selector

/-- Accumulator of a method without arguments. -/
def accumulateNoArg (m : Mapping) (node : Expr) (source : GroupSource) (method : String) :
    Result Value :=
  match SequenceEnd.ofMethod? method with
  | some which => op which.accumulator <$> m.accumulated node source
  | none =>
    match method with
    | "Count" | "LongCount" => .ok (op "$sum" (.int32 1))
    | "Distinct" | "ToHashSet" => op "$addToSet" <$> m.accumulated node source
    | "ToList" | "ToArray" | "AsEnumerable" => op "$push" <$> m.accumulated node source
    | _ => .error (.unsupported node)

/-- Accumulator of a method call on a group. -/
def accumulatorCall (m : Mapping) (node : Expr) (source : GroupSource) (method : String)
    (args : List Expr) : Result Value :=
  match Reducer.ofMethod? method with
  | some reducer =>
    match source, args with
    | .selected selector, [] => op reducer.operator <$> m.perDocument node selector
    | .documents, [selector] => op reducer.operator <$> m.perDocument node selector
    | _, _ => .error (.unsupported node)
  | none =>
    match source, args with
    | _, [] => m.accumulateNoArg node source method
    | .documents, [arg] =>
      match method with
      | "Count" | "LongCount" => do
        let test ← m.perDocument node arg
        return op "$sum" (opAll "$cond" [test, .int32 1, .int32 0])
      | "Select" => op "$push" <$> m.perDocument node arg
      | _ => .error (.unsupported node)
    | _, _ => .error (.unsupported node)

/-- Accumulator of a member of a group's first or last document. -/
def endMemberAccumulator (m : Mapping) (node : Expr) (group : Param) : Result Value :=
  match node.membersOf [] with
  | (.call target method [], path) =>
    match SequenceEnd.ofMethod? method with
    | some which =>
      if target.isParam group.name then
        let item : Param := ⟨group.name, group.type.item?.getD .any⟩
        let chain := path.foldl Expr.member (.param item)
        op which.accumulator <$> m.operandOf chain (.root item.name)
      else .error (.unsupported node)
    | none => .error (.unsupported node)
  | _ => .error (.unsupported node)

/-- Accumulator of a call on the source of a group. -/
def sourceAccumulator (m : Mapping) (node target : Expr) (method : String) (args : List Expr)
    (group : Param) : Result Value :=
  match target.groupSource? group.name with
  | some source => m.accumulatorCall node source method args
  | none => .error (.unsupported node)

/-- Accumulator of a result of a group. -/
def accumulator (m : Mapping) (node : Expr) (group : Param) : Result Value :=
  match node.strip with
  | .param p =>
    if p.name = group.name then .ok (op "$push" (.string (fieldRef [])))
    else .error (.unsupported node)
  | .staticCall owner method args =>
    match Expr.receiverForm? (.staticCall owner method args) with
    | some (.call target method args) =>
      m.sourceAccumulator (.call target method args) target method args group
    | _ => .error (.unsupported node)
  | .call target method args => m.sourceAccumulator node target method args group
  | .collection kind (some items) _ =>
    match items.groupSource? group.name with
    | some source =>
      op (if kind = .hashSet then "$addToSet" else "$push") <$> m.accumulated node source
    | none => .error (.unsupported node)
  | .member .. => m.endMemberAccumulator node group
  | _ => .error (.unsupported node)

/-- Shape of a result of a group, and the stage with its accumulator. Members of the key need
none; the key's own name is not free. -/
def groupMember (m : Mapping) (group : Param) (stage : Document) (name : String) (e : Expr) :
    Result (Shape × Document) :=
  match e.keyPath? group.name with
  | some path => .ok (.key path, stage)
  | none =>
    if name = "_id" then .error (.unsupported e)
    else do
      let v ← m.accumulator e group
      return (.computed [name], stage.insert name v)

/-- Shapes of the results of a group, and the stage with their accumulators. -/
def groupMembers (m : Mapping) (group : Param) (stage : Document) :
    List (String × Expr) → Result (List (String × Shape) × Document)
  | [] => .ok ([], stage)
  | (name, e) :: rest => do
    let (shape, stage) ← m.groupMember group stage name e
    let (shapes, stage) ← m.groupMembers group stage rest
    return ((name, shape) :: shapes, stage)

/-- Group stage of a key of each document and a selector of the results of each group. -/
def group (m : Mapping) (key selector : Expr) : Result Stage := do
  match key.asUnaryLambda?, selector.asUnaryLambda? with
  | none, _ => throw (.unsupported key)
  | _, none => throw (.unsupported selector)
  | some (keyParam, keyBody), some (groupParam, body) =>
    let keyScope := Scope.root keyParam.name
    keyScope.check keyBody
    (Scope.push {} (.of groupParam.name .group)).check body
    let stage : Document := [("_id", stageMember (← m.operandOf keyBody keyScope))]
    match body.asObject? with
    | some (_, members) =>
      let (shapes, stage) ← m.groupMembers groupParam stage members
      return { body := stage, shape := .object shapes }
    | none =>
      let (shape, stage) ← m.groupMember groupParam stage Stage.valueName body.strip
      return { body := stage, shape := shape }

end Mapping
end DocQuery
