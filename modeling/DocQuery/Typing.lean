/-
Types of expressions, as far as the declared types tell. They decide between the
operators of the database that one method or operator may stand for.
-/
import DocQuery.Expr.Literal
import DocQuery.Expr.Methods
import DocQuery.Expr.Printer
import DocQuery.Schema.Basic

namespace DocQuery

namespace Typing

def booleanMethods : List String :=
  ["Any", "All", "Contains", "StartsWith", "EndsWith", "Equals", "ContainsKey", "HasFlag",
   "SetEquals", "IsSubsetOf", "IsSupersetOf", "IsMatch"]

def int32Methods : List String := ["Count", "IndexOf", "IndexOfAny", "CompareTo"]

def stringMethods : List String :=
  ["ToLower", "ToUpper", "ToLowerInvariant", "ToUpperInvariant", "Trim", "TrimStart", "TrimEnd",
   "Substring", "ToString"]

def itemMethods : List String :=
  ["First", "Last", "Single", "ElementAt", "FirstOrDefault", "LastOrDefault", "ElementAtOrDefault"]

def doubleMethods : List String :=
  ["Average", "StandardDeviationPopulation", "StandardDeviationSample"]

/-- Type of the body of the lambda at a place among the arguments. -/
def selectorType? (args : List Expr) (types : List ValueType) (i : Nat) : Option ValueType :=
  if ((args[i]?.bind Expr.asLambda?).isSome) then types[i]? else none

/-- Type of a method call, from the types of the receiver and of the arguments. The type of a
lambda is the type of its body. -/
def callType (source : ValueType) (method : String) (args : List Expr) (types : List ValueType) :
    ValueType :=
  let item := source.item?.getD .any
  let selector i := selectorType? args types i
  if method ∈ booleanMethods then .boolean
  else if method ∈ int32Methods then .int32
  else if method ∈ stringMethods then .string
  else if method ∈ itemMethods then item
  else if method ∈ doubleMethods then .double
  else if (TimeUnit.ofMethod? method).isSome then .dateTime
  else
    match method with
    | "LongCount" => .int64
    | "Split" => .array .string
    | "Select" => .array ((selector 0).getD .any)
    | "Zip" => .array ((selector 1).getD .any)
    | "SelectMany" => (selector 0).getD .any
    | "OfType" =>
      match Expr.typeArgument? args with
      | some name => .array (.document name)
      | none => source
    | "Sum" | "Min" | "Max" => (selector 0).getD item
    | "Aggregate" =>
      match types with
      | [_, _, _] => (selector 2).getD .any
      | [seed, _] => seed
      | _ => item
    | "GetType" => .any
    | _ => source

/-- Type of a call on a class, from the type of the first argument. -/
def staticCallType (owner method : String) (first : Option ValueType) : ValueType :=
  match owner with
  | "Math" => if (Rounding.ofMethod? method).isSome then first.getD .double else .double
  | "Enumerable" => if method = "Range" then .array .int32 else .boolean
  | "String" => if method = "Concat" then .string else .boolean
  | _ => .boolean

/-- Type of a binary operation from the types of its sides. -/
def binaryType (op : BinaryOp) (l r : ValueType) : ValueType :=
  match op with
  | .equal | .notEqual | .greater | .greaterOrEqual | .less | .lessOrEqual => .boolean
  | .andAlso | .orElse => .boolean
  | .and | .or => l
  | .add =>
    if l.isString || r.isString then .string
    else if l.isDate then .dateTime
    else l.promote r
  | .coalesce => l.underlying
  | .subtract | .multiply | .divide | .modulo => l.promote r

end Typing

namespace Schema

/-- Type of a member of a value. -/
def memberType (s : Schema) (owner : ValueType) (name : String) : ValueType :=
  if owner.isNullable && name = "Value" then owner.underlying
  else if owner.isNullable && name = "HasValue" then .boolean
  else
    match owner.underlying with
    | .document typeName => ((s.member? typeName name).map Member.type).getD .any
    | .string => if name = "Length" then .int32 else .any
    | .array _ => if name = "Length" || name = "Count" then .int32 else .any
    | .dictionary .. => if name = "Count" then .int32 else .any
    | .dateTime =>
      if (DatePart.ofMember? name).isSome then .int32
      else if name = "Date" then .dateTime
      else .any
    | _ => .any

mutual
/-- Type of an expression; `any` where nothing is known. -/
def typeOf (s : Schema) : Expr → ValueType
  | .literal l => l.type
  | .param p => p.type
  | .quote inner => typeOf s inner
  | .convert _ type => type
  | .member target name => s.memberType (typeOf s target) name
  | .call target method args => Typing.callType (typeOf s target) method args (typesOf s args)
  | .staticCall owner method (first :: rest) =>
    if Expr.takesSource owner method then
      Typing.callType (typeOf s first) method rest (typesOf s rest)
    else Typing.staticCallType owner method (some (typeOf s first))
  | .staticCall owner method [] => Typing.staticCallType owner method none
  | .index target _ =>
    match (typeOf s target).underlying with
    | .array item => item
    | .dictionary value _ => value
    | .string => .char
    | _ => .any
  | .not operand =>
    let t := typeOf s operand
    if t.isInteger then t else .boolean
  | .negate operand => typeOf s operand
  | .binary op left right => Typing.binaryType op (typeOf s left) (typeOf s right)
  | .conditional _ ifTrue _ => typeOf s ifTrue
  | .object (some name) _ => if (s.document? name).isSome then .document name else .any
  | .object none _ => .any
  | .collection _ (some source) _ => typeOf s source
  | .collection _ none (first :: _) => .array (typeOf s first)
  | .collection _ none [] => .array .any
  | .lambda _ body => typeOf s body
  | .typeTest .. => .boolean
  | .inject _ => .boolean
def typesOf (s : Schema) : List Expr → List ValueType
  | [] => []
  | e :: rest => typeOf s e :: typesOf s rest
end

/-- The type of a stored member is the declared one. -/
theorem memberType_of_storedMember? {s : Schema} {t : ValueType} {name : String}
    {stored : StoredMember} (hvalue : (t.isNullable && decide (name = "Value")) = false)
    (hhas : (t.isNullable && decide (name = "HasValue")) = false)
    (h : s.storedMember? t name = .ok (some stored)) : s.memberType t name = stored.type := by
  simp only [memberType, hvalue, hhas, Bool.false_eq_true, if_false]
  unfold storedMember? at h
  split at h
  · rename_i typeName ht
    simp only [ht]
    split at h
    · rename_i hmember
      cases h
      simp [hmember]
    · rename_i hmember
      split at h
      · cases h
      · cases h
        simp [hmember]
  · rename_i ht
    cases h
    simp [ht]
  · cases h

end Schema
end DocQuery
