/-
Comparisons of an expression with a known value.

A comparison is first turned so that the known side is on the right. Then the
rules are tried in order; a rule may have no answer (`none`), and then the next
one is tried. What no rule answers is a test of a stored field.
-/
import DocQuery.Expr.Methods
import DocQuery.Filter.Pattern
import DocQuery.Filter.Target
import DocQuery.Typing

namespace DocQuery

/-- A comparison with a known value on its right. -/
structure Comparison where
  op : BinaryOp
  left : Expr
  value : Literal

namespace Comparison

/-- Turns the known side to the right. If both are known, they stay. -/
def of? (op : BinaryOp) (left right : Expr) : Option Comparison :=
  match left.known?, right.known? with
  | some l, none => some ⟨op.flip, right, l⟩
  | _, some r => some ⟨op, left, r⟩
  | none, none => none

end Comparison

/-- A way to answer some comparisons. -/
abbrev Comparison.Rule := Comparison → Scope → Result (Option Document)

/-- Answer of the first rule that has one. -/
def Comparison.firstAnswer (c : Comparison) (s : Scope) : List Rule → Result (Option Document)
  | [] => .ok none
  | rule :: rest => do
    match ← rule c s with
    | some filter => return some filter
    | none => c.firstAnswer s rest

/-- Characters of a character literal or of an array of them. -/
def Literal.chars? (l : Literal) : Option (List Char) :=
  match l.value with
  | .string s => if l.type.underlying = .char then some s.toList else none
  | .array items => items.mapM fun v => v.asString?.bind fun s => s.toList.head?
  | _ => none

/-- The character that a literal of one character, or the number of one, stands for. -/
def Literal.char? (l : Literal) : Option Char :=
  match l.value with
  | .string s =>
    match s.toList with
    | [c] => some c
    | _ => none
  | .int32 n =>
    if 0 ≤ n.toInt ∧ n.toInt.toNat.isValidChar then some (Char.ofNat n.toInt.toNat) else none
  | _ => none

namespace Expr

/-- The sequence whose length an expression is, if it is written as a member or as a count. -/
def lengthOf? (e : Expr) : Option Expr :=
  match e.strip with
  | .member target name => if name = "Length" || name = "Count" then some target else none
  | .call target method [] => if method = "Count" then some target else none
  | _ => none

/-- The string whose length an expression is. -/
def stringLengthOf? (e : Expr) : Option Expr :=
  match e.strip with
  | .member target name => if name = "Length" then some target else none
  | .call target method [] => if method = "Count" then some target else none
  | _ => none

/-- Whether an expression is a test, to be compared with true or false only. -/
def isTest (e : Expr) : Bool :=
  match e.strip with
  | .call .. => true
  | .staticCall .. => true
  | .typeTest .. => true
  | .member _ name => name = "HasValue"
  | _ => false

end Expr

namespace Filter

/-- The length of an array compares with `n`. No length is negative, and an array has more than
`n` items exactly if it has one at position `n`. -/
def arrayLength (target : Target) (op : BinaryOp) (n : Int) (value : Value) : Option Document :=
  let hasItemAt (i : Int) (b : Bool) := testOp (target.child (toString i)) "$exists" (.bool b)
  match op with
  | .equal => some (if n < 0 then never else testOp target.name "$size" value)
  | .notEqual => some (if n < 0 then always else testOp target.name "$not" (.single "$size" value))
  | .greater => some (if n < 0 then always else hasItemAt n true)
  | .greaterOrEqual => some (if n ≤ 0 then always else hasItemAt (n - 1) true)
  | .less => some (if n ≤ 0 then never else hasItemAt (n - 1) false)
  | .lessOrEqual => some (if n < 0 then never else hasItemAt n false)
  | _ => none

/-- A field compares with a value. -/
def comparison? (name : String) (op : BinaryOp) (value : Value) : Option Document :=
  match op with
  | .equal => some (test name value)
  | .notEqual => some (testOp name "$ne" value)
  | .greater => some (testOp name "$gt" value)
  | .greaterOrEqual => some (testOp name "$gte" value)
  | .less => some (testOp name "$lt" value)
  | .lessOrEqual => some (testOp name "$lte" value)
  | _ => none

/-- Operator for masked bits that are compared with no bits or with the whole mask. -/
def bitOperator? (op : BinaryOp) (mask compared : Int) : Option String :=
  match op with
  | .equal =>
    if compared = 0 then some "$bitsAllClear"
    else if compared = mask then some "$bitsAllSet"
    else none
  | .notEqual =>
    if compared = 0 then some "$bitsAnySet"
    else if compared = mask then some "$bitsAnyClear"
    else none
  | _ => none

end Filter

namespace Mapping

open DocQuery.Filter

/-- Test of a stored field. -/
def plainComparison (m : Mapping) (node : Expr) (c : Comparison) (s : Scope) :
    Result Document := do
  let target ← m.targetOr node c.left s
  let value ← m.encodeFor target c.value
  match comparison? target.name c.op value with
  | some filter => return filter
  | none => throw (.unsupported node)

/-- Length of an array. -/
def arrayLengthRule (m : Mapping) : Comparison.Rule := fun c s => do
  match c.left.lengthOf?, c.value.asInt? with
  | some source, some n =>
    if (m.schema.typeOf source).isArray then
      let target ← m.target source s
      return arrayLength target c.op n c.value.value
    else return none
  | _, _ => return none

/-- Remainder of a division by a known number. -/
def moduloRule (m : Mapping) : Comparison.Rule := fun c s => do
  match c.left.strip with
  | .binary .modulo dividend divisor =>
    match divisor.known?.bind Literal.asInt?, c.value.asInt? with
    | some d, some r =>
      let target ← m.target dividend s
      let condition := Value.single "$mod" (.array [.int64 (.ofInt d), .int64 (.ofInt r)])
      match c.op with
      | .equal => return some (test target.name condition)
      | .notEqual => return some (testOp target.name "$not" condition)
      | _ => return none
    | _, _ => return none
  | _ => return none

/-- Sign of an ordering, which compares like the ordered values. -/
def orderingRule (m : Mapping) : Comparison.Rule := fun c s => do
  match c.left.strip with
  | .call target "CompareTo" [arg] =>
    match arg.known?, c.value.asInt? with
    | some operand, some 0 => some <$> m.plainComparison c.left ⟨c.op, target, operand⟩ s
    | _, _ => return none
  | _ => return none

/-- Pattern for the position of a text or of characters, with a start and a count if they are
given; the inner option is empty if the position is impossible. -/
def indexPattern? (index : Int64) : List Literal → Option (Option String)
  | [] => none
  | needle :: rest => do
    let (start, count) ← match rest with
      | [] => some (none, none)
      | [start] => start.asInt64?.map fun a => (some a, none)
      | [start, count] => do
        let a ← start.asInt64?
        let b ← count.asInt64?
        some (some a, some b)
      | _ => none
    if needle.type.underlying = .string then
      needle.asString?.map fun text => Pattern.indexOfString text index start count
    else needle.chars?.map fun chars => Pattern.indexOfChars chars index start count

/-- Position of a text or of characters in a string. -/
def indexOfRule (m : Mapping) : Comparison.Rule := fun c s => do
  match c.left.strip with
  | .call source method args =>
    if (method = "IndexOf" || method = "IndexOfAny") && c.op = .equal
        && (m.schema.typeOf source).isString then
      match c.value.asInt64?, Expr.knownItems? args with
      | some index, some known =>
        match indexPattern? index known with
        | none => return none
        | some pattern =>
          let target ← m.target source s
          return some <| match pattern with
            | some p => test target.name (Pattern.regex p "s")
            | none => never
      | _, _ => return none
    else return none
  | _ => return none

/-- Character at a known position of a string. -/
def charAtRule (m : Mapping) : Comparison.Rule := fun c s => do
  match c.left.strip with
  | .index source position =>
    if (m.schema.typeOf source).isString && (c.op = .equal || c.op = .notEqual) then
      match position.known?.bind Literal.asInt?, c.value.char? with
      | some i, some char =>
        let target ← m.target source s
        let pattern := Pattern.charAt i char (c.op = .notEqual)
        return some (test target.name (Pattern.regex pattern "s"))
      | _, _ => return none
    else return none
  | _ => return none

/-- Length of a string. -/
def stringLengthRule (m : Mapping) : Comparison.Rule := fun c s => do
  match c.left.stringLengthOf?, c.value.asInt64?.bind (Pattern.length? c.op) with
  | some source, some pattern =>
    if (m.schema.typeOf source).isString then
      let target ← m.target source s
      let filter := test target.name (Pattern.regex pattern "s")
      return some (if c.op = .notEqual then complement filter else filter)
    else return none
  | _, _ => return none

/-- A string put in one case, which a text in another case never equals. -/
def letterCaseRule (m : Mapping) : Comparison.Rule := fun c s => do
  match c.left.strip with
  | .call source method [] =>
    match LetterCase.ofMethod? method with
    | some letterCase =>
      if c.op = .equal || c.op = .notEqual then
        let target ← m.target source s
        match c.value.value with
        | .string text =>
          if letterCase.fixes text then
            let filter := test target.name (Pattern.regex (Pattern.exactly text) "i")
            return some (if c.op = .equal then filter else complement filter)
          else return some (ofBool (c.op = .notEqual))
        | .null =>
          return some <|
            if c.op = .equal then test target.name .null else testOp target.name "$ne" .null
        | _ => throw (.unsupported c.left)
      else return none
    | none => return none
  | _ => return none

/-- Bits of an integer under a known mask. -/
def bitsRule (m : Mapping) : Comparison.Rule := fun c s => do
  match c.left.strip with
  | .binary .and operand right =>
    if (m.schema.typeOf operand).isInteger then
      match right.known? with
      | some mask =>
        match mask.asInt?, c.value.asInt? with
        | some bits, some compared =>
          match bitOperator? c.op bits compared with
          | some op =>
            let target ← m.target operand s
            return some (testOp target.name op mask.value)
          | none => return none
        | _, _ => return none
      | none => return none
    else return none
  | _ => return none

/-- The rules for what is no plain field, in the order in which they are tried. -/
def comparisonRules (m : Mapping) : List Comparison.Rule :=
  [m.arrayLengthRule, m.moduloRule, m.orderingRule, m.indexOfRule, m.charAtRule,
   m.stringLengthRule, m.letterCaseRule, m.bitsRule]

end Mapping
end DocQuery
