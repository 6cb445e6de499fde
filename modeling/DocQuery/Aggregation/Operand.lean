/-
Pieces of aggregation expressions: operators, constants, variables, and
references to stored fields.

A string that begins with `$` is a reference in an aggregation expression, `$$`
naming a variable; a string constant that begins so is marked as a constant.
-/
import DocQuery.FieldPath
import DocQuery.Mapping
import DocQuery.Schema.Encoding
import DocQuery.Scope
import DocQuery.Typing

namespace DocQuery

namespace Aggregation

/-- An operator on one operand. -/
def op (name : String) (operand : Value) : Value := .single name operand

/-- An operator on a list of operands. -/
def opAll (name : String) (operands : List Value) : Value := .single name (.array operands)

/-- A constant; a string that would be a reference is marked. -/
def constant (v : Value) : Value :=
  match v with
  | .string s => if s.toList.head? = some '$' then op "$literal" v else v
  | v => v

/-- A value as a member of a stage, where a bare number or truth value would only say whether a
field is included. -/
def stageMember (v : Value) : Value :=
  match v with
  | .document _ => v
  | .string _ => v
  | .array _ => v
  | v => op "$literal" v

/-- Variable for an item that the expression does not name. -/
def itemName : String := "item"

/-- Reference to a variable, or to a field below it. -/
def variableRef (name : String) (path : List String) : String :=
  String.intercalate "." (("$$" ++ name) :: path)

/-- Reference to a field of the document, or to the whole document. -/
def fieldRef (path : List String) : String :=
  if path.isEmpty then "$$ROOT" else "$" ++ String.intercalate "." path

/-- A field of a computed value. -/
def fieldOf (v : Value) (path : List String) : Value :=
  op "$let" (.document
    [("vars", .single itemName v), ("in", .string (variableRef itemName path))])

/-- What a fold starts from if it is given nothing. -/
def zeroOf (type : ValueType) : Value :=
  match type.underlying with
  | .int32 => .int32 0
  | .enumeration _ => .int32 0
  | .int64 => .int64 0
  | .double => .double ⟨0⟩
  | .string => .string ""
  | .boolean => .bool false
  | _ => .null

/-- Number of a literal. -/
def number? (l : Literal) : Option Binary64 :=
  match l.value with
  | .int32 n => some (.ofInt n.toInt)
  | .int64 n => some (.ofInt n.toInt)
  | .double x => some x
  | _ => none

end Aggregation

/-- Whether an expression may be a reference to a stored field as it stands. -/
def Expr.isReference : Expr → Bool
  | .param _ => true
  | .member target _ => target.isReference
  | .index target _ => target.isReference
  | .convert operand _ => operand.isReference
  | .quote inner => inner.isReference
  | .call target method _ => (method = "Select" || method = "ElementAt") && target.isReference
  | _ => false

namespace Mapping

open Aggregation

/-- Reference to the stored field or the variable that an expression reads. A position in an
array is no part of a reference. -/
def reference? (m : Mapping) (node : Expr) (s : Scope) : Result (Option Value) := do
  if !node.isReference then return none
  else
    match ← m.schema.fieldPath? node with
    | none => return none
    | some f =>
      if f.positional then return none
      else
        match ← s.resolve f.param node with
        | .path base => return some (.string (fieldRef (base ++ f.path)))
        | .variable name => return some (.string (variableRef name f.path))
        | .computed v => return some (if f.path.isEmpty then v else fieldOf v f.path)
        | .group => throw (.unsupported node)
        | .known => throw (.unsupported node)

/-- Element of a member of a new object. Members of a registered type have their stored names. -/
def outputElement (m : Mapping) (typeName : Option String) (member : String) : Result String := do
  match typeName with
  | none => return member
  | some name =>
    if (m.schema.document? name).isSome then
      let stored ← m.schema.storedMember? (.document name) member
      return (stored.map Schema.StoredMember.element).getD member
    else return member

/-- A constant in the form in which the field that it is compared with stores it. -/
def comparedConstant (m : Mapping) (l : Literal) (other : Expr) : Result Value := do
  match ← m.schema.fieldPath? other with
  | some f =>
    constant <$> m.schema.encode f.type f.representation (m.schema.coerce l.type f.type l.value)
  | none => return constant l.value

end Mapping
end DocQuery
