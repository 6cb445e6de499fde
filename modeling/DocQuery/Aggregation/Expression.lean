/-
Aggregation expressions.

`operandNode` says how the aggregation expression of an expression is built from
those of its parts; `operandWithin` applies it to expressions of limited size,
and `operandOf` to every expression. A plain chain of members is a reference; all
else is an operator on its parts.
-/
import DocQuery.Aggregation.Call

namespace DocQuery

namespace Aggregation

/-- Operator of a binary operation, whose sides have the given types. Bits of integers cannot be
computed. -/
def binaryOperator? (op : BinaryOp) (left right : ValueType) : Option String :=
  match op with
  | .add => some (if left.isString || right.isString then "$concat" else "$add")
  | .subtract => some "$subtract"
  | .multiply => some "$multiply"
  | .divide => some "$divide"
  | .modulo => some "$mod"
  | .andAlso => some "$and"
  | .orElse => some "$or"
  | .and => if left.isBoolean then some "$and" else none
  | .or => if left.isBoolean then some "$or" else none
  | .equal => some "$eq"
  | .notEqual => some "$ne"
  | .greater => some "$gt"
  | .greaterOrEqual => some "$gte"
  | .less => some "$lt"
  | .lessOrEqual => some "$lte"
  | .coalesce => some "$ifNull"

/-- Operators that take any number of operands, grouped from the left or not. -/
def isVariadic (name : String) : Bool := name ∈ ["$add", "$concat", "$multiply", "$and", "$or"]

/-- Operands that the left side of a binary operation gives: its own if it is the same operation,
or else itself. -/
def leftOperands (name : String) (left : Expr) (value : Value) : List Value :=
  match left.strip, value with
  | .binary .., .document [(inner, operands)] =>
    if isVariadic name && inner = name then
      match operands with
      | .array items => items
      | other => [other]
    else [value]
  | _, _ => [value]

end Aggregation

namespace Mapping

open Aggregation

section Node
variable (m : Mapping) (sub : Expr → Scope → Result Value)

/-- Binary operation. -/
def binaryOperand (node : Expr) (operation : BinaryOp) (left right : Expr) (s : Scope) :
    Result Value :=
  match binaryOperator? operation (m.schema.typeOf left) (m.schema.typeOf right) with
  | none => .error (.unsupported node)
  | some name => do
    if operation.isComparison then return opAll name (← m.comparedPair sub left right s)
    else
      let l ← sub left s
      let r ← sub right s
      return opAll name (leftOperands name left l ++ [r])

/-- Members of a new object. -/
def objectMembers (typeName : Option String) (members : List (String × Expr)) (s : Scope) :
    Result (List (String × Value)) :=
  members.mapM fun (name, e) => do
    return (← m.outputElement typeName name, stageMember (← sub e s))

/-- Aggregation expression of an expression that is no reference, from those of its parts. -/
def computedOperand (node : Expr) (s : Scope) : Result Value :=
  match node with
  | .quote inner => sub inner s
  | .convert operand _ => sub operand s
  | .literal l => .ok (constant l.value)
  | .member target name => m.memberOperand sub node target name s
  | .index target position => m.itemAt sub node target position s
  | .call target method args => m.callOperand sub node target method args s
  | .staticCall owner method args =>
    match node.receiverForm? with
    | some call => sub call s
    | none => m.staticCallOperand sub node owner method args s
  | .not operand => do return opAll "$not" [← sub operand s]
  | .negate operand => do return opAll "$subtract" [.int32 0, ← sub operand s]
  | .binary op left right => m.binaryOperand sub node op left right s
  | .conditional test ifTrue ifFalse => do
    return opAll "$cond" [← sub test s, ← sub ifTrue s, ← sub ifFalse s]
  | .object typeName members => do
    return .document (Document.ofFields (← m.objectMembers sub typeName members s))
  | .collection kind (some source) _ => do
    let values ← sub source s
    return if kind = .hashSet then opAll "$setUnion" [values] else values
  | .collection _ none items => do return .array (← items.mapM fun e => sub e s)
  | .param _ => .error (.unsupported node)
  | .lambda .. => .error (.unsupported node)
  | .typeTest .. => .error (.unsupported node)
  | .inject _ => .error (.unsupported node)

/-- Aggregation expression of an expression, from those of its parts. -/
def operandNode (node : Expr) (s : Scope) : Result Value := do
  match ← m.reference? node s with
  | some reference => return reference
  | none => m.computedOperand sub node s

end Node

/-- Aggregation expression of an expression of size at most `n`. -/
def operandWithin (m : Mapping) : Nat → Expr → Scope → Result Value
  | 0, node, _ => .error (.unsupported node)
  | n + 1, node, s => m.operandNode (m.operandWithin n) node s

/-- Aggregation expression of an expression. -/
def operandOf (m : Mapping) (e : Expr) (s : Scope) : Result Value := m.operandWithin e.size e s

end Mapping
end DocQuery
