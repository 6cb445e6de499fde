/-
Boolean algebra of filter documents: conjunction, disjunction and complement.

A conjunction is one document as long as no two clauses test the same field with
the same operator; otherwise its clauses are listed under `$and`. A disjunction
is always listed under `$or`. A complement uses the opposite operator where the
database has one.
-/
import DocQuery.Value.Basic

namespace DocQuery.Filter

/-- The filter that every document passes. -/
def always : Document := []

/-- The filter that no document passes: no identifier has the type number -1. -/
def never : Document := [("_id", .single "$type" (.int32 (-1)))]

def ofBool (b : Bool) : Document := if b then always else never

/-- A field equals a value, or passes the operators in it. -/
def test (name : String) (condition : Value) : Document := [(name, condition)]

/-- A field passes one operator. -/
def testOp (name op : String) (operand : Value) : Document := test name (.single op operand)

/-- Whether a name is that of an operator. -/
def isOperator (name : String) : Bool := name.toList.head? = some '$'

/-- Whether a document is a set of operators on one field. -/
def isOperators (d : Document) : Bool := !d.isEmpty && d.all fun (k, _) => isOperator k

/-- Adds a clause to the list under `$and`. -/
def append (target clause : Document) : Document :=
  match target.get? "$and" with
  | some (.array items) => target.insert "$and" (.array (items ++ [.document clause]))
  | _ => target

/-- Lists every test under `$and`, and another one after them. -/
def promote (target : Document) (name : String) (condition : Value) : Document :=
  [("$and", .array ((target ++ [(name, condition)]).map fun (k, v) => .single k v))]

/-- Adds one test. Operators on a field that is tested already join the others there, unless one
of them is there too. -/
def addTest (target : Document) (name : String) (condition : Value) : Document :=
  match target.get? name with
  | none => target.insert name condition
  | some (.document present) =>
    match condition with
    | .document incoming =>
      if isOperators present && isOperators incoming
          && incoming.all fun (k, _) => !Document.hasKey present k then
        target.insert name
          (.document (incoming.foldl (fun d (k, v) => Document.insert d k v) present))
      else promote target name condition
    | _ => promote target name condition
  | some _ => promote target name condition

/-- Adds the tests of a clause that is not empty and is no list under `$and`. -/
def addTests (target clause : Document) : Document :=
  if (target.only? "$and").isSome then append target clause
  else clause.foldl (fun d (k, v) => addTest d k v) target

mutual
/-- Adds a clause to a conjunction. The clauses under its `$and` are added one by one. -/
def addClause (target : Document) : Document → Document
  | [] => target
  | [(key, .array items)] =>
    if key = "$and" then addItems target items else addTests target [(key, .array items)]
  | clause => addTests target clause
def addItems (target : Document) : List Value → Document
  | [] => target
  | .document clause :: rest => addItems (addClause target clause) rest
  | item :: rest => addItems (append target (test "$and" (.array [item]))) rest
end

/-- Conjunction. -/
def conj (clauses : List Document) : Document := clauses.foldl addClause always

/-- Alternatives that a clause brings to a disjunction. -/
def alternatives (clause : Document) : List Value :=
  match clause.only? "$or" with
  | some (.array items) => items
  | _ => [.document clause]

/-- Disjunction. -/
def disj (clauses : List Document) : Document :=
  test "$or" (.array (clauses.flatMap alternatives))

/-- The complement without a shorter form. -/
def nor (d : Document) : Document := test "$nor" (.array [.document d])

/-- Complement of operators on one field. -/
def complementOperators (name : String) (ops : Document) : Document :=
  match ops with
  | [(op, operand)] =>
    match op, operand with
    | "$exists", .bool b => testOp name "$exists" (.bool !b)
    | "$in", values => testOp name "$nin" values
    | "$nin", values => testOp name "$in" values
    | "$ne", inner => test name inner
    | "$not", inner => test name inner
    | _, _ => testOp name "$not" (.document ops)
  | _ => nor (test name (.document ops))

/-- Complement. -/
def complement (d : Document) : Document :=
  match d with
  | [(name, condition)] =>
    if isOperator name then
      match name, condition with
      | "$or", .array items => test "$nor" (.array items)
      | "$nor", .array items => test "$or" (.array items)
      | _, _ => nor d
    else
      match condition with
      | .document ops =>
        if isOperators ops then complementOperators name ops
        else testOp name "$ne" (.document ops)
      | .regex pattern options => testOp name "$not" (.regex pattern options)
      | value => testOp name "$ne" value
  | _ => nor d

end DocQuery.Filter
