/-
Query expressions: the lambda expressions that a program writes over its
document types, and the views of them that every reading of an expression uses.

A conversion does not change what is read, and neither does a quotation, so
`strip` removes both; a lambda may be quoted but not converted (`asLambda?`).
-/
import DocQuery.Value.Basic
import DocQuery.ValueType

namespace DocQuery

/-- Lambda parameter with its type. -/
structure Param where
  name : String
  type : ValueType

/-- A value known before the query runs, with its type. -/
structure Literal where
  value : Value
  type : ValueType

inductive BinaryOp where
  | equal
  | notEqual
  | greater
  | greaterOrEqual
  | less
  | lessOrEqual
  /-- Conjunction that may skip its right side. -/
  | andAlso
  /-- Disjunction that may skip its right side. -/
  | orElse
  /-- Conjunction of truth values, or bit by bit of integers. -/
  | and
  /-- Disjunction of truth values, or bit by bit of integers. -/
  | or
  | add
  | subtract
  | multiply
  | divide
  | modulo
  /-- The left side unless it is null. -/
  | coalesce
deriving DecidableEq

namespace BinaryOp

def isComparison : BinaryOp → Bool
  | equal | notEqual | greater | greaterOrEqual | less | lessOrEqual => true
  | _ => false

/-- The operator that means the same with its sides exchanged: `1 < x` is `x > 1`. -/
def flip : BinaryOp → BinaryOp
  | greater => less
  | greaterOrEqual => lessOrEqual
  | less => greater
  | lessOrEqual => greaterOrEqual
  | op => op

def symbol : BinaryOp → String
  | equal => "=="
  | notEqual => "!="
  | greater => ">"
  | greaterOrEqual => ">="
  | less => "<"
  | lessOrEqual => "<="
  | andAlso => "&&"
  | orElse => "||"
  | and => "&"
  | or => "|"
  | add => "+"
  | subtract => "-"
  | multiply => "*"
  | divide => "/"
  | modulo => "%"
  | coalesce => "??"

end BinaryOp

inductive CollectionKind where
  | array
  | list
  | hashSet
deriving DecidableEq

/-- An expression. Methods are called on a receiver (`call`) or on a class (`staticCall`). -/
inductive Expr where
  | literal (l : Literal)
  | param (p : Param)
  | member (target : Expr) (name : String)
  | call (target : Expr) (method : String) (args : List Expr)
  | staticCall (owner method : String) (args : List Expr)
  | index (target position : Expr)
  | not (operand : Expr)
  | negate (operand : Expr)
  | convert (operand : Expr) (type : ValueType)
  | quote (inner : Expr)
  | binary (op : BinaryOp) (left right : Expr)
  | conditional (test ifTrue ifFalse : Expr)
  /-- A new object with named members, of a named or an anonymous type. -/
  | object (typeName : Option String) (members : List (String × Expr))
  /-- A new collection, copied from a source or listing its items. -/
  | collection (kind : CollectionKind) (source : Option Expr) (items : List Expr)
  | lambda (params : List Param) (body : Expr)
  /-- A test for a document type, which derived types pass unless it is `exact`. -/
  | typeTest (operand : Expr) (typeName : String) (exact : Bool)
  /-- A filter document taken over as it is. -/
  | inject (filter : Document)

namespace Expr

/-- The expression without quotations and conversions around it. -/
def strip : Expr → Expr
  | .quote inner => inner.strip
  | .convert operand _ => operand.strip
  | e => e

/-- The literal that an expression is, quoted or converted or not. -/
def asLiteral? (e : Expr) : Option Literal :=
  match e.strip with
  | .literal l => some l
  | _ => none

/-- Parameters and body of a lambda, quoted or not. -/
def asLambda? : Expr → Option (List Param × Expr)
  | .lambda params body => some (params, body)
  | .quote inner => inner.asLambda?
  | _ => none

/-- Parameter and body of a lambda with one parameter. -/
def asUnaryLambda? (e : Expr) : Option (Param × Expr) :=
  match e.asLambda? with
  | some ([p], body) => some (p, body)
  | _ => none

/-- Whether an expression is the parameter with the given name. -/
def isParam (e : Expr) (name : String) : Bool :=
  match e.strip with
  | .param p => p.name = name
  | _ => false

/-- Whether a static method of a class of sequence methods takes its sequence as first argument. -/
def takesSource (owner method : String) : Bool :=
  (owner = "Enumerable" || owner = "Queryable") && method ≠ "Range" && method ≠ "Repeat"

/-- Receiver form of a call of a sequence method on its class: `source.M(args)` for
`Enumerable.M(source, args)`. -/
def receiverForm? : Expr → Option Expr
  | .staticCall owner method (source :: args) =>
    if takesSource owner method then some (.call source method args) else none
  | _ => none

mutual
/-- Number of nodes, a call on a class counting twice, so that its receiver form is smaller. -/
def size : Expr → Nat
  | .literal _ => 1
  | .param _ => 1
  | .member target _ => target.size + 1
  | .call target _ args => target.size + sizes args + 1
  | .staticCall _ _ args => sizes args + 2
  | .index target position => target.size + position.size + 1
  | .not operand => operand.size + 1
  | .negate operand => operand.size + 1
  | .convert operand _ => operand.size + 1
  | .quote inner => inner.size + 1
  | .binary _ left right => left.size + right.size + 1
  | .conditional test ifTrue ifFalse => test.size + ifTrue.size + ifFalse.size + 1
  | .object _ members => memberSizes members + 1
  | .collection _ (some source) items => source.size + sizes items + 1
  | .collection _ none items => sizes items + 1
  | .lambda _ body => body.size + 1
  | .typeTest operand _ _ => operand.size + 1
  | .inject _ => 1
def sizes : List Expr → Nat
  | [] => 0
  | e :: rest => e.size + sizes rest
def memberSizes : List (String × Expr) → Nat
  | [] => 0
  | (_, e) :: rest => e.size + memberSizes rest
end

end Expr
end DocQuery
