/-
Field paths: the stored place that a chain of members reads.

`Schema.fieldPath?` follows members, positions, dictionary keys, type selections
and member selections from a lambda parameter, and collects the names of the
stored elements on the way.
-/
import DocQuery.Expr.Literal
import DocQuery.Schema.Basic

namespace DocQuery

/-- A stored place relative to a lambda parameter. -/
structure FieldPath where
  param : String
  path : List String
  type : ValueType
  representation : Representation := .natural
  /-- One of the path's steps is a position in an array. -/
  positional : Bool := false

namespace FieldPath

/-- The path as it is written in a query. -/
def dotted (f : FieldPath) : String := String.intercalate "." f.path

def ofParam (p : Param) : FieldPath := { param := p.name, path := [], type := p.type }

/-- The place one step below. -/
def step (f : FieldPath) (element : String) (type : ValueType) (r : Representation) : FieldPath :=
  { f with path := f.path ++ [element], type := type, representation := r }

/-- An item of an array, or a value of a dictionary stored as one document. -/
def item? (f : FieldPath) (key : Literal) : Option FieldPath :=
  match f.type.underlying with
  | .array item => do
    let n ← key.asInt?
    return { f.step (toString n) item .natural with positional := true }
  | .dictionary value .document => do
    let name ← key.asString?
    return f.step name value .natural
  | _ => none

/-- The place that `inner` names in each item of the array at `f`. -/
def through (f inner : FieldPath) : FieldPath :=
  if inner.path.isEmpty then f
  else
    { param := f.param
      path := f.path ++ inner.path
      type := .array inner.type
      representation := inner.representation
      positional := f.positional || inner.positional }

end FieldPath

namespace Schema

/-- The member of the value at a stored place. -/
def memberOf? (s : Schema) (f : FieldPath) (name : String) : Result (Option FieldPath) :=
  if f.type.isNullable && name = "Value" then .ok (some { f with type := f.type.underlying })
  else do
    let m ← s.storedMember? f.type name
    return m.map fun m => f.step m.element m.type m.representation

mutual
/-- The stored place that an expression reads, if it is a plain chain from a parameter. -/
def fieldPath? (s : Schema) : Expr → Result (Option FieldPath)
  | .quote inner => fieldPath? s inner
  | .convert operand _ => fieldPath? s operand
  | .param p => .ok (some (.ofParam p))
  | .member target name => do
    match ← fieldPath? s target with
    | some f => s.memberOf? f name
    | none => return none
  | .index target position => do
    match ← fieldPath? s target with
    | some f => return position.asLiteral?.bind f.item?
    | none => return none
  | .call target method [arg] => do
    match method with
    | "ElementAt" =>
      match ← fieldPath? s target with
      | some f => return arg.asLiteral?.bind f.item?
      | none => return none
    | "OfType" =>
      match ← fieldPath? s target with
      | some f =>
        return (arg.asLiteral?.bind Literal.asString?).map fun name =>
          { f with type := .array (.document name) }
      | none => return none
    | "Select" =>
      match arg.asUnaryLambda? with
      | none => return none
      | some (p, body) =>
        match ← fieldPath? s target with
        | none => return none
        | some f =>
          if f.type.isArray then
            match ← bodyPath? s arg with
            | none => return none
            | some inner =>
              if inner.param = p.name then return some (f.through inner)
              else throw (.foreignParam body inner.param)
          else return none
    | _ => return none
  | _ => .ok none
/-- The stored place that the body of a lambda reads. -/
def bodyPath? (s : Schema) : Expr → Result (Option FieldPath)
  | .lambda _ body => fieldPath? s body
  | .quote inner => bodyPath? s inner
  | _ => .ok none
end

end Schema
end DocQuery
