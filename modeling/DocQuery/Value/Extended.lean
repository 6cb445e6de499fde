/-
Extended JSON: documents that stand for a value of another type. A field whose
name is that of a type, as in `$numberInt: "5"`, makes its whole document stand
for the value that is written under it.
-/
import DocQuery.Number.Decimal128
import DocQuery.Number.Nearest
import DocQuery.Text.Base64
import DocQuery.Text.InstantReader
import DocQuery.Value.Basic

namespace DocQuery.Value

/-- The text of a regular expression's options has its letters in order. -/
def sortedOptions (options : String) : String :=
  String.ofList (options.toList.mergeSort fun a b => a ≤ b)

/-- Integer in a text. -/
def writtenInt? (v : Value) : Option Int := v.asText?.bind fun s => integer? s.toList

/-- Two members that make up a value: the only fields of a document, or the first two items of an
array. -/
def members? (first second : String) : Value → Option (Value × Value)
  | .document fields =>
    if fields.length = 2 then do
      return (← Document.get? fields first, ← Document.get? fields second)
    else none
  | .array (a :: b :: _) => some (a, b)
  | _ => none

/-- Hexadecimal digits, or the bytes themselves. -/
def writtenObjectId? : Value → Option ObjectId
  | .string s => ObjectId.parse? s
  | .binary bytes => ObjectId.ofBytes? bytes
  | _ => none

/-- Milliseconds as a number or as the written number `$numberLong`, or the text of the instant. -/
def writtenInstant? : Value → Option Int
  | .document [("$numberLong", v)] => v.writtenInt?
  | .array [v] => v.writtenInt?
  | .string s => Instant.parse? s
  | .binary bytes => (asText? (.binary bytes)).bind Instant.parse?
  | v => v.asInt?

/-- How the value under a field is read if the field's name is that of a type. Values of types that
are not stored here, such as code with a scope, are refused. -/
def typeReader? : String → Option (Value → Option Value)
  | "$oid" => some fun v => v.writtenObjectId?.map .objectId
  | "$symbol" => some fun v => v.asText?.map .symbol
  | "$code" => some fun v => v.asText?.map .javaScript
  | "$numberInt" => some fun v => (v.writtenInt?.bind int32?).map .int32
  | "$numberLong" => some fun v => (v.writtenInt?.bind int64?).map .int64
  | "$numberDouble" => some fun v => (v.asText?.bind Binary64.parse?).map .double
  | "$numberDecimal" => some fun v => (v.asText?.bind Decimal128.parse?).map (.decimal ·.text)
  | "$date" => some fun v => (v.writtenInstant?.bind int64?).map .dateTime
  | "$timestamp" => some fun v => do
    let (t, i) ← v.members? "t" "i"
    return .timestamp (← t.asInt?.bind uint32?) (← i.asInt?.bind uint32?)
  | "$regularExpression" => some fun v => do
    let (pattern, options) ← v.members? "pattern" "options"
    return .regex (← pattern.asText?) (sortedOptions (← options.asText?))
  | "$binary" => some fun v => do
    let (base64, subtype) ← v.members? "base64" "subType"
    let bytes ← Base64.decode? (← base64.asText?)
    if (← subtype.asText?) = "00" then return .binary bytes else none
  | "$minKey" => some fun v => if v.asInt? = some 1 then some .minKey else none
  | "$maxKey" => some fun v => if v.asInt? = some 1 then some .maxKey else none
  | "$undefined" => some fun v => if v.asBool? = some true then some .undefined else none
  | "$scope" | "$dbPointer" | "$uuid" | "$numberDecimalBytes" => some fun _ => none
  | _ => none

mutual
/-- The value that a value with documents in extended form stands for. -/
def ofExtended? : Value → Option Value
  | .array items => (ofExtendedItems? items).map .array
  | .document fields => ofExtendedFields? [] fields
  | .regex pattern options => some (.regex pattern (sortedOptions options))
  | v => some v
def ofExtendedItems? : List Value → Option (List Value)
  | [] => some []
  | v :: rest => do return (← v.ofExtended?) :: (← ofExtendedItems? rest)
/-- Reads fields in order. The first that names a type decides, whatever came before it or follows;
only code must come last. -/
def ofExtendedFields? (seen : Document) : List (String × Value) → Option Value
  | [] => some (.document seen)
  | (key, v) :: rest =>
    match typeReader? key with
    | some reader => if key = "$code" ∧ !rest.isEmpty then none else reader v
    | none => do ofExtendedFields? (seen.insert key (← v.ofExtended?)) rest
end

end DocQuery.Value
