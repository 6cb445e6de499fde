/-
Options of the queries that are made: what lengths and positions in strings
count, and which element marks the type of a document.
-/
namespace DocQuery

/-- What lengths and positions in strings count. -/
inductive StringUnit where
  | bytes
  | codePoints
deriving DecidableEq

namespace StringUnit

def name : StringUnit → String
  | bytes => "bytes"
  | codePoints => "code_points"

def lengthOperator : StringUnit → String
  | bytes => "$strLenBytes"
  | codePoints => "$strLenCP"

def substringOperator : StringUnit → String
  | bytes => "$substr"
  | codePoints => "$substrCP"

def indexOperator : StringUnit → String
  | bytes => "$indexOfBytes"
  | codePoints => "$indexOfCP"

end StringUnit

structure Options where
  stringUnit : StringUnit := .bytes
  /-- Element that marks the type of a document when no document type names another. -/
  discriminatorElement : String := "_t"
deriving DecidableEq

end DocQuery
