/-
Inclusions: which stored fields a query has to return for a selector that only
copies stored fields. A selector that computes something, or needs whole
documents, has none.
-/
import DocQuery.FieldPath
import DocQuery.Mapping
import DocQuery.Scope
import DocQuery.Shape

namespace DocQuery

/-- The fields to return, and the shape that reads the returned documents. -/
structure Inclusion where
  fields : Document
  shape : Shape

namespace Inclusion

/-- Whether one path leads to a part of what another, shorter one leads to. -/
def covered (paths : List (List String)) (path : List String) : Bool :=
  paths.any fun other => other.length < path.length && other.isPrefixOf path

/-- Includes each path that no shorter one covers, and the identifier only if a path starts
with it. -/
def fieldsOf (paths : List (List String)) : Document :=
  let fields := (paths.filter fun p => !covered paths p).map fun p =>
    (String.intercalate "." p, Value.int32 1)
  let included := Document.ofFields fields
  if paths.any fun p => p.head? = some "_id" then included else included.insert "_id" (.int32 0)

end Inclusion

namespace Schema

/-- Adds a path to a list unless it is there already. -/
def addPath (paths : List (List String)) (path : List String) : List (List String) :=
  if path ∈ paths then paths else paths ++ [path]

/-- Shape of a stored value, and the paths with its own added. None for a computed value. -/
def copiedField (s : Schema) (param : String) (paths : List (List String)) (e : Expr) :
    Result (Option Shape × List (List String)) := do
  match ← s.fieldPath? e with
  | none => return (none, paths)
  | some f =>
    if f.param ≠ param || f.positional then return (none, paths)
    else if f.path.isEmpty then return (some .identity, paths)
    else return (some (.field f.path), addPath paths f.path)

mutual
/-- Shape of a selected value, and the stored paths read for it, added to those given. There is
no shape for a value that is computed. -/
def copied (s : Schema) (param : String) (paths : List (List String)) :
    Expr → Result (Option Shape × List (List String))
  | .quote inner => copied s param paths inner
  | .convert operand _ => copied s param paths operand
  | .object _ members => do
    let (shapes, paths) ← copiedMembers s param paths members
    return (shapes.map .object, paths)
  | e => s.copiedField param paths e
def copiedMembers (s : Schema) (param : String) (paths : List (List String)) :
    List (String × Expr) → Result (Option (List (String × Shape)) × List (List String))
  | [] => .ok (some [], paths)
  | (name, e) :: rest => do
    match ← copied s param paths e with
    | (none, paths) => return (none, paths)
    | (some shape, paths) =>
      let (shapes, paths) ← copiedMembers s param paths rest
      return (shapes.map ((name, shape) :: ·), paths)
end

end Schema

namespace Mapping

/-- Inclusion of a selector with one parameter, the document; none if it needs more than stored
fields. -/
def inclusion? (m : Mapping) (selector : Expr) : Result (Option Inclusion) := do
  match selector.asUnaryLambda? with
  | none => throw (.unsupported selector)
  | some (param, body) =>
    (Scope.root param.name).check body
    let (shape, paths) ← m.schema.copied param.name [] body
    return (shape.filter fun sh => !sh.hasIdentity).map fun sh =>
      { fields := Inclusion.fieldsOf paths, shape := sh }

end Mapping
end DocQuery
