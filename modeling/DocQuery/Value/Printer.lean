/-
Text of values, as error messages show them.
-/
import DocQuery.Number.Shortest
import DocQuery.Text.Base64
import DocQuery.Text.Instant
import DocQuery.Value.Basic

namespace DocQuery.Value

mutual
/-- Text of a value. Strings stand in double quotes and nothing in them is escaped. -/
def text : Value → String
  | .null => "null"
  | .bool b => if b then "true" else "false"
  | .int32 n => toString n.toInt
  | .int64 n => toString n.toInt
  | .double x => x.text
  | .string s => "\"" ++ s ++ "\""
  | .array items => "[" ++ String.intercalate ", " (itemTexts items) ++ "]"
  | .document [] => "\x7b\x7d"
  | .document fields => "\x7b " ++ String.intercalate ", " (fieldTexts fields) ++ " \x7d"
  | .objectId id => "ObjectId(\"" ++ id.hex ++ "\")"
  | .dateTime millis => "DateTime(\"" ++ Instant.text millis.toInt ++ "\")"
  | .regex pattern options => "/" ++ pattern ++ "/" ++ options
  | .decimal text => text
  | .binary bytes => "Binary(0x0, " ++ Base64.encode bytes ++ ")"
  | .timestamp time increment => "Timestamp(" ++ toString time ++ ", " ++ toString increment ++ ")"
  | .symbol s => "Symbol(\"" ++ s ++ "\")"
  | .javaScript code => code
  | .minKey => "MinKey"
  | .maxKey => "MaxKey"
  | .undefined => "undefined"
def itemTexts : List Value → List String
  | [] => []
  | v :: rest => v.text :: itemTexts rest
def fieldTexts : List (String × Value) → List String
  | [] => []
  | (k, v) :: rest => ("\"" ++ k ++ "\": " ++ v.text) :: fieldTexts rest
end

end DocQuery.Value
