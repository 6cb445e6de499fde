/-
Result shapes: where the parts of a selected value are found in a returned
document, and how the value is put together from them.
-/
import DocQuery.Decoder
import DocQuery.Error

namespace DocQuery

/-- Where a selected value is found in a returned document. -/
inductive Shape where
  /-- The value is the document. -/
  | identity
  /-- A stored field. Arrays on the way to it are read item by item. -/
  | field (path : List String)
  /-- A member that the database has computed. -/
  | computed (path : List String)
  /-- The key of a group, or a member of the key. -/
  | key (path : List String)
  /-- An object with named members. -/
  | object (members : List (String × Shape))

namespace Shape

mutual
/-- Whether the shape asks for a whole document anywhere. -/
def hasIdentity : Shape → Bool
  | .identity => true
  | .object members => anyIdentity members
  | _ => false
def anyIdentity : List (String × Shape) → Bool
  | [] => false
  | (_, m) :: rest => m.hasIdentity || anyIdentity rest
end

/-- Value at a path in a document. What is missing or null on the way reads as null. -/
def lookUp (throughArrays : Bool) : List String → Document → Result Value
  | [], d => .ok (.document d)
  | element :: rest, d =>
    match d.get? element with
    | none => .ok .null
    | some .null => .ok .null
    | some v =>
      if rest.isEmpty then .ok v
      else
        match v, throughArrays with
        | .document nested, _ => lookUp throughArrays rest nested
        | .array items, true => do
          let values ← items.mapM fun
            | .document nested => lookUp throughArrays rest nested
            | other => .error (.notDocument element other)
          return .array values
        | other, _ => .error (.notDocument element other)

/-- Value of a group's key at a path. -/
def lookUpKey (path : List String) (d : Document) : Result Value :=
  match d.get? "_id" with
  | none => .ok .null
  | some (.document members) => lookUp false path members
  | some v => if path.isEmpty then .ok v else .error (.keyWithoutMember v path)

mutual
/-- The selected value, from a returned document. -/
def read : Shape → Document → Result Value
  | .identity, d => .ok (.document d)
  | .field path, d => lookUp true path d
  | .computed path, d => lookUp false path d
  | .key path, d => lookUpKey path d
  | .object members, d => do return .document (Document.ofFields (← readMembers members d))
def readMembers : List (String × Shape) → Document → Result (List (String × Value))
  | [], _ => .ok []
  | (name, m) :: rest, d => do
    let v ← m.read d
    let vs ← readMembers rest d
    return (name, v) :: vs
end

end Shape

/-- The selected value as one of the type that is asked for. -/
def Shape.decode {α : Type} (shape : Shape) (decoder : Decoder α) (d : Document) : Result α := do
  match decoder (← shape.read d) with
  | some a => return a
  | none => throw .wrongResultType

end DocQuery
