/-
Names that are bound in aggregation expressions.

The operators `$map`, `$filter`, `$reduce` and `$let` bind variables in one of
their operands. `Value.Under` says that a value stands in another one, and which
names are bound around it there, operator by operator from the innermost.
-/
import DocQuery.Aggregation.Expression

namespace DocQuery

namespace Aggregation

/-- Whether an operator binds names. -/
def bindsNames (name : String) : Bool := name ∈ ["$map", "$filter", "$reduce", "$let"]

/-- Operands of an operator that binds names, each with the names that are bound in it. -/
def scopedOperands (name : String) (fields : Document) : List (List (List String) × Value) :=
  match name, fields with
  | "$map", [("input", input), ("as", .string item), ("in", body)] =>
    [([], input), ([[item]], body)]
  | "$filter", [("input", input), ("as", .string item), ("cond", test)] =>
    [([], input), ([[item]], test)]
  | "$reduce", [("input", input), ("initialValue", initial), ("in", body)] =>
    [([], input), ([], initial), ([["value", "this"]], body)]
  | "$let", [("vars", .document vars), ("in", body)] =>
    vars.map (fun (_, v) => ([], v)) ++ [([Document.keys vars], body)]
  | _, _ => []

/-! ## Operators of families of methods -/

@[simp] theorem bindsNames_lengthOperator (unit : StringUnit) :
    bindsNames unit.lengthOperator = false := by
  cases unit <;> rfl

@[simp] theorem bindsNames_indexOperator (unit : StringUnit) :
    bindsNames unit.indexOperator = false := by
  cases unit <;> rfl

@[simp] theorem bindsNames_substringOperator (unit : StringUnit) :
    bindsNames unit.substringOperator = false := by
  cases unit <;> rfl

@[simp] theorem bindsNames_letterCase (letterCase : LetterCase) :
    bindsNames letterCase.operator = false := by
  cases letterCase <;> rfl

@[simp] theorem bindsNames_trimSide (side : TrimSide) : bindsNames side.operator = false := by
  cases side <;> rfl

@[simp] theorem bindsNames_datePart (part : DatePart) : bindsNames part.operator = false := by
  cases part <;> rfl

@[simp] theorem bindsNames_reducer (reducer : Reducer) : bindsNames reducer.operator = false := by
  cases reducer <;> rfl

@[simp] theorem bindsNames_setOperation (operation : SetOperation) :
    bindsNames operation.operator = false := by
  cases operation <;> rfl

@[simp] theorem bindsNames_rounding (rounding : Rounding) :
    bindsNames rounding.operator = false := by
  cases rounding <;> rfl

end Aggregation

open Aggregation

/-! ## Values under bound names -/

/-- A value stands in another one, under the names that the operators around it bind, the innermost
first. -/
inductive Value.Under (v : Value) : List (List String) → Value → Prop
  | refl : v.Under [] v
  | item {bound : List (List String)} {items : List Value} {i : Value} (hi : i ∈ items)
      (h : v.Under bound i) : v.Under bound (.array items)
  | field {bound : List (List String)} {fields : List (String × Value)} {key : String} {x : Value}
      (hkey : bindsNames key = false) (hx : (key, x) ∈ fields) (h : v.Under bound x) :
      v.Under bound (.document fields)
  | operand {bound names : List (List String)} {name : String} {fields : Document} {x : Value}
      (hx : (names, x) ∈ scopedOperands name fields) (h : v.Under bound x) :
      v.Under (bound ++ names) (.document [(name, .document fields)])

namespace Value.Under

variable {u v w : Value} {bound outer : List (List String)} {name item : String}

theorem trans (h : u.Under bound v) (h' : v.Under outer w) : u.Under (bound ++ outer) w := by
  induction h' with
  | refl => rwa [List.append_nil]
  | item hi _ ih => exact .item hi ih
  | field hkey hx _ ih => exact .field hkey hx ih
  | operand hx _ ih =>
    rw [← List.append_assoc]
    exact .operand hx ih

theorem stageMember (h : u.Under bound v) : u.Under bound (stageMember v) := by
  cases v
  case document | string | array => exact h
  all_goals exact .field rfl (List.mem_singleton_self _) h

/-- Nothing else stands in a string. -/
theorem eq_string {text : String} (h : v.Under bound (.string text)) : v = .string text := by
  cases h
  rfl

/-! ### Operators that bind no names -/

theorem op (hname : bindsNames name = false) (h : u.Under bound v) : u.Under bound (op name v) :=
  .field hname (List.mem_singleton_self _) h

theorem opAll {items : List Value} (hname : bindsNames name = false) (hv : v ∈ items) :
    v.Under [] (opAll name items) :=
  op hname (.item hv .refl)

theorem opNamed {fields : List (String × Value)} {key : String} (hname : bindsNames name = false)
    (hkey : bindsNames key = false) (hv : (key, v) ∈ fields) :
    v.Under [] (Aggregation.op name (.document fields)) :=
  op hname (.field hkey hv .refl)

/-! ### Operators that bind names -/

variable {body initial : Value} {vars : Document}

theorem mapInput : v.Under [] (Aggregation.op "$map" (.document
    [("input", v), ("as", .string item), ("in", body)])) :=
  .operand (.head _) .refl

theorem mapBody : v.Under [[item]] (Aggregation.op "$map" (.document
    [("input", u), ("as", .string item), ("in", v)])) :=
  .operand (.tail _ (.head _)) .refl

theorem filterInput : v.Under [] (Aggregation.op "$filter" (.document
    [("input", v), ("as", .string item), ("cond", body)])) :=
  .operand (.head _) .refl

theorem filterTest : v.Under [[item]] (Aggregation.op "$filter" (.document
    [("input", u), ("as", .string item), ("cond", v)])) :=
  .operand (.tail _ (.head _)) .refl

theorem reduceInput : v.Under [] (Aggregation.op "$reduce" (.document
    [("input", v), ("initialValue", initial), ("in", body)])) :=
  .operand (.head _) .refl

theorem reduceInitial : v.Under [] (Aggregation.op "$reduce" (.document
    [("input", u), ("initialValue", v), ("in", body)])) :=
  .operand (.tail _ (.head _)) .refl

theorem reduceBody : v.Under [["value", "this"]] (Aggregation.op "$reduce" (.document
    [("input", u), ("initialValue", initial), ("in", v)])) :=
  .operand (.tail _ (.tail _ (.head _))) .refl

theorem letValue : v.Under [] (Aggregation.op "$let" (.document
    [("vars", .single item v), ("in", body)])) :=
  .operand (.head _) .refl

theorem letBody : v.Under [[item]] (Aggregation.op "$let" (.document
    [("vars", .single item u), ("in", v)])) :=
  .operand (.tail _ (.head _)) .refl

end Value.Under
end DocQuery
