/-
Membership: stored arrays and dictionaries that contain a known value, known
collections that contain a stored one, and tests for document types.
-/
import DocQuery.Filter.StringMatch

namespace DocQuery.Mapping

open DocQuery.Filter

/-- A dictionary has a known key. -/
def containsKey (m : Mapping) (node dictionary key : Expr) (s : Scope) : Result Document := do
  let target ← m.target dictionary s
  let key ← knownOr node key
  match target.type.underlying with
  | .dictionary _ .document =>
    match key.asString? with
    | some name => return testOp (target.child name) "$exists" (.bool true)
    | none => throw (.unsupported node)
  | .dictionary _ .arrayOfDocuments => return test (target.child "k") key.value
  | _ => throw (.unsupported node)

/-- A stored value is one of a known collection. -/
def isOneOf (m : Mapping) (node item values : Expr) (s : Scope) : Result Document := do
  let values ← knownOr node values
  let target ← m.target item s
  let items ← m.encodeItemsFor node target values
  return testOp target.name "$in" (.array items)

/-- A dictionary, a string, a known collection or a stored array contains an item. -/
def contains (m : Mapping) (node collection item : Expr) (s : Scope) : Result Document := do
  let type := m.schema.typeOf collection
  if type.isDictionary then m.containsKey node collection item s
  else if type.isString then m.stringMatch node collection .anywhere item s
  else if collection.isKnown then m.isOneOf node item collection s
  else
    let target ← m.target collection s
    if target.type.isArray then
      let value ← knownOr node item
      let element := target.item
      return test element.name (← m.encodeFor element value)
    else throw (.unsupported node)

/-- How the items of a known collection are to be found in a stored array. -/
inductive Quantifier where
  | any
  | all
deriving DecidableEq

def Quantifier.operator : Quantifier → String
  | any => "$in"
  | all => "$all"

/-- What a lambda over a known collection asks of its item: to be in a stored array, or, of one
item only, to equal a stored value. -/
def soughtIn? (q : Quantifier) (param : String) (body : Expr) : Option (Expr × Bool) :=
  match body.strip with
  | .call target "Contains" [arg] => if arg.isParam param then some (target, true) else none
  | .binary .equal left right =>
    if q ≠ .any then none
    else if right.isParam param then some (left, false)
    else if left.isParam param then some (right, false)
    else none
  | _ => none

/-- Some item, or every item, of a known collection is stored at a place. -/
def knownItems (m : Mapping) (node : Expr) (q : Quantifier) (values : Literal) (param : Param)
    (body : Expr) (s : Scope) : Result Document := do
  match soughtIn? q param.name body with
  | none => throw (.unsupported node)
  | some (place, throughArray) =>
    let stored ← m.target place (s.bindInner param.name .known)
    let element := if throughArray then stored.item else stored
    let items ← m.encodeItemsFor node element values
    return testOp element.name q.operator (.array items)

/-- Test that selects the items of a derived type from an array; none if every item qualifies. -/
def typeSelection (m : Mapping) (node source typeArg : Expr) : Result (Option Document) := do
  match typeArg.asLiteral?.bind Literal.asString?,
      (m.schema.typeOf source).item?.map ValueType.underlying with
  | some actual, some (.document nominal) =>
    let mark ← m.schema.discriminator nominal actual
    return mark.map fun v => test (m.discriminatorElement nominal) v
  | _, _ => throw (.unsupported node)

/-- A stored document is of a type. The mark of an exact type is not the first of a list. -/
def typeTest (m : Mapping) (node operand : Expr) (typeName : String) (exact : Bool) (s : Scope) :
    Result Document := do
  match (m.schema.typeOf operand).underlying with
  | .document nominal =>
    match ← m.schema.discriminator nominal typeName with
    | none => return always
    | some mark =>
      let target ← m.target operand s
      let path := target.child (m.discriminatorElement nominal)
      if exact then
        return conj [testOp (path ++ ".0") "$exists" (.bool false), test path mark]
      else return test path mark
  | _ => throw (.unsupported node)

end DocQuery.Mapping
