/-
Targets: the stored places that the tests of a filter name, and the values that
they are tested for.
-/
import DocQuery.FieldPath
import DocQuery.Filter.Algebra
import DocQuery.Mapping
import DocQuery.Schema.Encoding
import DocQuery.Scope

namespace DocQuery

/-- A stored place, named from the documents or array items that a filter is applied to. -/
structure Target where
  path : List String
  type : ValueType
  representation : Representation

namespace Target

/-- Name in a filter; empty for the tested array item itself. -/
def name (t : Target) : String := String.intercalate "." t.path

/-- Name of a place below. -/
def child (t : Target) (element : String) : String :=
  if t.path.isEmpty then element else t.name ++ "." ++ element

/-- The place of an array, taken for each of its items. -/
def item (t : Target) : Target := { t with type := t.type.item?.getD .any }

end Target

namespace Mapping

/-- The stored place that an expression reads, if it is a plain chain. -/
def target? (m : Mapping) (e : Expr) (s : Scope) : Result (Option Target) := do
  match ← m.schema.fieldPath? e with
  | none => return none
  | some f =>
    match ← s.resolve f.param e with
    | .path base => return some ⟨base ++ f.path, f.type, f.representation⟩
    | _ => throw (.unsupported e)

/-- The stored place that an expression has to read, or else `node` is not supported. -/
def targetOr (m : Mapping) (node e : Expr) (s : Scope) : Result Target := do
  match ← m.target? e s with
  | some target => return target
  | none => throw (.unsupported node)

/-- The stored place that an expression has to read. -/
def target (m : Mapping) (e : Expr) (s : Scope) : Result Target := m.targetOr e e s

/-- A known value in the form in which a target stores it. -/
def encodeFor (m : Mapping) (target : Target) (l : Literal) : Result Value :=
  m.schema.encode target.type target.representation (m.schema.coerce l.type target.type l.value)

/-- The items of a known collection in the form in which a target stores them. -/
def encodeItemsFor (m : Mapping) (node : Expr) (target : Target) (l : Literal) :
    Result (List Value) :=
  match l.value with
  | .array items => items.mapM fun v => m.encodeFor target ⟨v, l.type.item?.getD .any⟩
  | _ => .error (.unsupported node)

/-- A value that has to be known, or else `node` is not supported. -/
def knownOr (node e : Expr) : Result Literal :=
  match e.known? with
  | some l => .ok l
  | none => .error (.unsupported node)

end Mapping
end DocQuery
