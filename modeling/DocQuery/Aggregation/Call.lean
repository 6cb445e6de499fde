/-
Aggregation expressions of method calls and members. `sub` gives the expressions
of the parts.
-/
import DocQuery.Aggregation.Operand

namespace DocQuery.Mapping

open Aggregation

section Node
variable (m : Mapping) (sub : Expr → Scope → Result Value)

/-- Side of a comparison. -/
def compared (side other : Expr) (s : Scope) : Result Value :=
  match side.asLiteral? with
  | some l => m.comparedConstant l other
  | none => sub side s

/-- Both sides of a comparison. -/
def comparedPair (a b : Expr) (s : Scope) : Result (List Value) := do
  return [← m.compared sub a b s, ← m.compared sub b a s]

/-! ## Members -/

/-- Part of a date. The database counts weekdays from one, the program from zero. -/
def datePart (node date : Expr) (name : String) (s : Scope) : Result Value :=
  match DatePart.ofMember? name with
  | none => .error (.unsupported node)
  | some part => do
    let value := op part.operator (← sub date s)
    return if part = .dayOfWeek then opAll "$subtract" [value, .int32 1] else value

/-- Member of the first or last item of a stored array, read from the array of that member. -/
def endMember? (target : Expr) (element : String) (s : Scope) : Result (Option Value) := do
  match target.strip with
  | .call source method [] =>
    match SequenceEnd.ofMethod? method with
    | none => return none
    | some which =>
      match ← m.reference? source s with
      | some (.string path) =>
        return some (opAll "$arrayElemAt" [.string (path ++ "." ++ element), .int32 which.position])
      | _ => return none
  | _ => return none

/-- Stored member of a computed value. -/
def storedMember (node target : Expr) (name : String) (s : Scope) : Result Value := do
  match ← m.schema.storedMember? (m.schema.typeOf target) name with
  | none => throw (.unsupported node)
  | some stored =>
    match ← m.endMember? target stored.element s with
    | some v => return v
    | none => return fieldOf (← sub target s) [stored.element]

/-- Member of a value that is no stored field. -/
def memberOperand (node target : Expr) (name : String) (s : Scope) : Result Value :=
  let type := m.schema.typeOf target
  if type.isNullable && name = "Value" then sub target s
  else if type.isNullable && name = "HasValue" then do
    return opAll "$ne" [← sub target s, .null]
  else
    match type.underlying with
    | .dateTime => datePart sub node target name s
    | .string =>
      if name = "Length" then op m.options.stringUnit.lengthOperator <$> sub target s
      else m.storedMember sub node target name s
    | .array _ =>
      if name = "Length" || name = "Count" then op "$size" <$> sub target s
      else m.storedMember sub node target name s
    | _ => m.storedMember sub node target name s

/-- Item of an array. -/
def itemAt (node target position : Expr) (s : Scope) : Result Value :=
  if (m.schema.typeOf target).isArray then do
    return opAll "$arrayElemAt" [← sub target s, ← sub position s]
  else .error (.unsupported node)

/-! ## Strings -/

/-- Characters that a trim call names, joined. -/
def trimText? (l : Literal) : Option String :=
  match l.value with
  | .string s => some s
  | .array items => some (String.join (items.filterMap Value.asString?))
  | _ => none

/-- A string that separates parts: a text, or an array of just one. -/
def separator? (l : Literal) : Option String :=
  match l.value with
  | .string s => some s
  | .array [item] => item.asString?
  | _ => none

/-- A trimmed string. -/
def trimCall (node : Expr) (side : TrimSide) (text : Value) (args : List Expr) : Result Value :=
  match args with
  | [] => .ok (op side.operator (.document [("input", text)]))
  | [chars] =>
    match chars.asLiteral?.bind trimText? with
    | some chars => .ok (op side.operator (.document [("input", text), ("chars", .string chars)]))
    | none => .error (.unsupported node)
  | _ => .error (.unsupported node)

/-- Position of a string in another, searched from a start in a number of units if given. -/
def indexOfCall (node : Expr) (text : Value) (args : List Expr) (s : Scope) : Result Value :=
  let index := m.options.stringUnit.indexOperator
  match args with
  | [value] => do return opAll index [text, ← sub value s]
  | [value, start] => do return opAll index [text, ← sub value s, ← sub start s]
  | [value, start, count] => do
    let value ← sub value s
    let start ← sub start s
    return opAll index [text, value, start, opAll "$add" [start, ← sub count s]]
  | _ => .error (.unsupported node)

/-- Part of a string from a start, to the end or of a given length. -/
def substringCall (node : Expr) (text : Value) (args : List Expr) (s : Scope) : Result Value :=
  let unit := m.options.stringUnit
  match args with
  | [start] => do
    let start ← sub start s
    return opAll unit.substringOperator
      [text, start, opAll "$subtract" [op unit.lengthOperator text, start]]
  | [start, length] => do return opAll unit.substringOperator [text, ← sub start s, ← sub length s]
  | _ => .error (.unsupported node)

/-- Test of where a string is found in another: with the position zero, or at all. -/
def foundCall (test : String) (text : Value) (value : Expr) (s : Scope) : Result Value := do
  let position := opAll m.options.stringUnit.indexOperator [text, ← sub value s]
  return opAll test [position, .int32 0]

/-- Method of a string. -/
def stringCall (node target : Expr) (method : String) (args : List Expr) (s : Scope) :
    Result Value := do
  let text ← sub target s
  match LetterCase.ofMethod? method, TrimSide.ofMethod? method with
  | some letterCase, _ =>
    if args.isEmpty then return op letterCase.operator text else throw (.unsupported node)
  | _, some side => trimCall node side text args
  | none, none =>
    match method, args with
    | "Substring", args => m.substringCall sub node text args s
    | "IndexOf", args => m.indexOfCall sub node text args s
    | "Contains", [value] => m.foundCall sub "$gte" text value s
    | "StartsWith", [value] => m.foundCall sub "$eq" text value s
    | "Split", [separators] =>
      match separators.asLiteral?.bind separator? with
      | some delimiter => return opAll "$split" [text, .string delimiter]
      | none => throw (.unsupported node)
    | _, _ => throw (.unsupported node)

/-- Equality of strings under a comparison that is known. -/
def stringEqualsCall (node a b comparison : Expr) (s : Scope) : Result Value :=
  match comparison.asLiteral?.bind Literal.stringComparison? with
  | none => .error (.unsupported node)
  | some .ordinal => opAll "$eq" <$> m.comparedPair sub a b s
  | some .ordinalIgnoreCase => do
    return opAll "$eq" [opAll "$strcasecmp" (← m.comparedPair sub a b s), .int32 0]

/-! ## Dates -/

/-- Milliseconds of a known number of units, as an operand of an addition. -/
def offset (unit : TimeUnit) (amount : Binary64) : Value :=
  let millis := (amount.scale unit.millis).roundToInt64
  if millis < 0 then opAll "$subtract" [.int64 0, .int64 (-millis)] else .int64 millis

/-- Method of a date. -/
def dateCall (node target : Expr) (method : String) (args : List Expr) (s : Scope) :
    Result Value :=
  match args with
  | [arg] =>
    match TimeUnit.ofMethod? method with
    | some unit => do
      let date ← sub target s
      let delta ← match arg.asLiteral?.bind number? with
        | some amount => pure (offset unit amount)
        | none => do pure (opAll "$multiply" [← sub arg s, .int64 (.ofNat unit.millis)])
      return opAll "$add" [date, delta]
    | none =>
      if method = "ToString" then do
        let format ← sub arg s
        let date ← sub target s
        return op "$dateToString" (.document [("format", format), ("date", date)])
      else .error (.unsupported node)
  | _ => .error (.unsupported node)

/-! ## Arrays -/

/-- Parameter of a lambda, and its body with the parameter for a variable of the same name. -/
def lambdaBody (node lambda : Expr) (s : Scope) : Result (String × Value) :=
  match lambda.asUnaryLambda? with
  | none => .error (.unsupported node)
  | some (param, body) => do
    return (param.name, ← sub body (s.push (.of param.name (.variable param.name))))

/-- Each item of an array, mapped. -/
def mapItems (node : Expr) (input : Value) (selector : Expr) (s : Scope) : Result Value := do
  let (name, body) ← lambdaBody sub node selector s
  return op "$map" (.document [("input", input), ("as", .string name), ("in", body)])

/-- The items of an array that pass a test. -/
def filterItems (node : Expr) (input : Value) (predicate : Expr) (s : Scope) : Result Value := do
  let (name, cond) ← lambdaBody sub node predicate s
  return op "$filter" (.document [("input", input), ("as", .string name), ("cond", cond)])

/-- The items of an array that are of a document type. -/
def itemsOfType (node target : Expr) (array : Value) (typeArg : Expr) : Result Value := do
  match typeArg.asLiteral?.bind Literal.asString?,
      (m.schema.typeOf target).item?.map ValueType.underlying with
  | some actual, some (.document nominal) =>
    match ← m.schema.discriminator nominal actual with
    | none => return array
    | some mark =>
      let element := variableRef itemName [m.discriminatorElement nominal]
      return op "$filter" (.document
        [("input", array), ("as", .string itemName),
         ("cond", opAll "$eq" [.string element, mark])])
  | _, _ => throw (.unsupported node)

/-- What a fold starts from: a given value, or the zero of the items' type. -/
def foldSeed (source : Expr) (seed : Option Expr) (s : Scope) : Result Value :=
  match seed with
  | some seed => sub seed s
  | none => .ok (zeroOf ((m.schema.typeOf source).item?.getD .any))

/-- The result of a fold, or a function of it if one is given. -/
def foldResult (node : Expr) (reduced : Value) (result : Option Expr) (s : Scope) :
    Result Value :=
  match result with
  | none => .ok reduced
  | some result => do
    let (name, body) ← lambdaBody sub node result s
    return op "$let" (.document [("vars", .single name reduced), ("in", body)])

/-- A fold from a start over the items of an array, and a function of its result if one is given. -/
def foldItems (node source : Expr) (array : Value) (seed : Option Expr) (step : Expr)
    (result : Option Expr) (s : Scope) : Result Value := do
  match step.asLambda? with
  | some ([accumulator, item], body) =>
    let initial ← m.foldSeed sub source seed s
    let frame := (Frame.of accumulator.name (.variable "value")).bind item.name (.variable "this")
    let body ← sub body (s.push frame)
    let reduced := op "$reduce" (.document
      [("input", array), ("initialValue", initial), ("in", body)])
    foldResult sub node reduced result s
  | _ => throw (.unsupported node)

/-- The items of two arrays, pair by pair. The parameters stand for the parts of a pair. -/
def zipItems (node : Expr) (first : Value) (second selector : Expr) (s : Scope) : Result Value := do
  match selector.asLambda? with
  | some ([left, right], body) =>
    let pair := left.name ++ "_" ++ right.name
    let part (i : Int32) := opAll "$arrayElemAt" [.string (variableRef pair []), .int32 i]
    let frame := (Frame.of left.name (.computed (part 0))).bind right.name (.computed (part 1))
    let body ← sub body (s.push frame)
    let second ← sub second s
    return op "$map" (.document
      [("input", op "$zip" (.single "inputs" (.array [first, second]))),
       ("as", .string pair), ("in", body)])
  | _ => throw (.unsupported node)

/-- Source and number of a skip. -/
def skipped? (e : Expr) : Option (Expr × Expr) :=
  match e.strip with
  | .call source "Skip" [count] => some (source, count)
  | _ => none

/-- The values that a reduction is of: the items of an array, or what a selector makes of them,
which is a reference if the selection is one. -/
def reducedValues (node target : Expr) (args : List Expr) (s : Scope) : Result Value :=
  match args with
  | [] => sub target s
  | [selector] => do
    let selection := Expr.call target "Select" [selector]
    match ← m.reference? selection s with
    | some reference => return reference
    | none => mapItems sub selection (← sub target s) selector s
  | _ => .error (.unsupported node)

/-- Method of an array without arguments. -/
def arrayCallNoArg (node : Expr) (method : String) (array : Value) : Result Value :=
  match SequenceEnd.ofMethod? method with
  | some which => .ok (opAll "$arrayElemAt" [array, .int32 which.position])
  | none =>
    match method with
    | "Count" | "LongCount" => .ok (op "$size" array)
    | "Any" => .ok (opAll "$gt" [op "$size" array, .int32 0])
    | "Distinct" | "ToHashSet" => .ok (opAll "$setUnion" [array])
    | "Reverse" => .ok (op "$reverseArray" array)
    | "ToList" | "ToArray" | "AsEnumerable" => .ok array
    | _ => .error (.unsupported node)

/-- Method of an array with one argument. -/
def arrayCallOneArg (node target : Expr) (method : String) (array : Value) (arg : Expr)
    (s : Scope) : Result Value :=
  match SequenceEnd.ofMethod? method, SetOperation.ofMethod? method with
  | some which, _ => do
    return opAll "$arrayElemAt" [← filterItems sub node array arg s, .int32 which.position]
  | _, some operation => do return opAll operation.operator [array, ← sub arg s]
  | none, none =>
    match method with
    | "Count" | "LongCount" => op "$size" <$> filterItems sub node array arg s
    | "Any" => do return opAll "$anyElementTrue" [← mapItems sub node array arg s]
    | "All" => do return opAll "$allElementsTrue" [← mapItems sub node array arg s]
    | "Contains" => do
      let equal := opAll "$eq" [.string (variableRef itemName []), ← sub arg s]
      return opAll "$anyElementTrue" [op "$map" (.document
        [("input", array), ("as", .string itemName), ("in", equal)])]
    | "ElementAt" | "ElementAtOrDefault" => do return opAll "$arrayElemAt" [array, ← sub arg s]
    | "Take" => do return opAll "$slice" [array, ← sub arg s]
    | "Skip" => do return opAll "$slice" [array, ← sub arg s, .int32 2147483647]
    | "Concat" => do return opAll "$concatArrays" [array, ← sub arg s]
    | "IsSupersetOf" => do return opAll "$setIsSubset" [← sub arg s, array]
    | "Where" => filterItems sub node array arg s
    | "Select" => mapItems sub node array arg s
    | "OfType" => m.itemsOfType node target array arg
    | "Aggregate" => m.foldItems sub node target array none arg none s
    | _ => .error (.unsupported node)

/-- Method of an array. Taking items after a skip is one slice. -/
def arrayCall (node target : Expr) (method : String) (args : List Expr) (s : Scope) :
    Result Value :=
  match Reducer.ofMethod? method with
  | some reducer => op reducer.operator <$> m.reducedValues sub node target args s
  | none =>
    match args with
    | [] => do arrayCallNoArg node method (← sub target s)
    | [arg] =>
      match (if method = "Take" then skipped? target else none) with
      | some (source, skip) => do
        return opAll "$slice" [← sub source s, ← sub skip s, ← sub arg s]
      | none => do m.arrayCallOneArg sub node target method (← sub target s) arg s
    | [a, b] => do
      let array ← sub target s
      match method with
      | "Aggregate" => m.foldItems sub node target array (some a) b none s
      | "Zip" => zipItems sub node array a b s
      | _ => throw (.unsupported node)
    | [a, b, c] => do
      let array ← sub target s
      if method = "Aggregate" then m.foldItems sub node target array (some a) b (some c) s
      else throw (.unsupported node)
    | _ => do
      let _ ← sub target s
      throw (.unsupported node)

/-! ## Calls -/

/-- Method call. -/
def callOperand (node target : Expr) (method : String) (args : List Expr) (s : Scope) :
    Result Value :=
  match method, args with
  | "CompareTo", [other] => do return opAll "$cmp" [← sub target s, ← sub other s]
  | "Equals", [other] => opAll "$eq" <$> m.comparedPair sub target other s
  | "Equals", [other, comparison] => m.stringEqualsCall sub node target other comparison s
  | _, _ =>
    match target.known? with
    | some values =>
      match method, args with
      | "Contains", [item] => do return opAll "$in" [← sub item s, op "$literal" values.value]
      | _, _ => .error (.unsupported node)
    | none =>
      match (m.schema.typeOf target).underlying with
      | .string => m.stringCall sub node target method args s
      | .dateTime => dateCall sub node target method args s
      | .array _ => m.arrayCall sub node target method args s
      | _ => .error (.unsupported node)

/-- Function of the class of mathematical functions. -/
def mathCall (node : Expr) (method : String) (args : List Expr) (s : Scope) : Result Value :=
  match args with
  | [value] =>
    match Rounding.ofMethod? method with
    | some rounding => op rounding.operator <$> sub value s
    | none =>
      match method with
      | "Exp" => do return opAll "$exp" [← sub value s]
      | "Log" => do return opAll "$ln" [← sub value s]
      | "Log10" => do return opAll "$log10" [← sub value s]
      | "Sqrt" => do return opAll "$sqrt" [← sub value s]
      | _ => .error (.unsupported node)
  | [value, second] =>
    match method with
    | "Log" => do
      let base ← match second.asLiteral?.bind number? with
        | some x => pure (Value.double x)
        | none => sub second s
      return opAll "$log" [← sub value s, base]
    | "Pow" => do return opAll "$pow" [← sub value s, ← sub second s]
    | _ => .error (.unsupported node)
  | _ => .error (.unsupported node)

/-- Call on a class. -/
def staticCallOperand (node : Expr) (owner method : String) (args : List Expr) (s : Scope) :
    Result Value :=
  match owner, method, args with
  | "Math", method, args => mathCall sub node method args s
  | "Enumerable", "Range", [start, count] => do
    let start ← sub start s
    return opAll "$range" [start, opAll "$add" [start, ← sub count s]]
  | "String", "IsNullOrEmpty", [text] => do
    let text ← sub text s
    return opAll "$or" [opAll "$eq" [text, .null], opAll "$eq" [text, .string ""]]
  | "String", "Concat", part :: rest => do
    return opAll "$concat" (← (part :: rest).mapM fun e => sub e s)
  | "String", "Equals", [a, b] => opAll "$eq" <$> m.comparedPair sub a b s
  | "Object", "Equals", [a, b] => opAll "$eq" <$> m.comparedPair sub a b s
  | "String", "Equals", [a, b, comparison] => m.stringEqualsCall sub node a b comparison s
  | _, _, _ => .error (.unsupported node)

end Node

end DocQuery.Mapping
