/-
Types of values as the querying program sees them, and the ways in which a
member may be stored.
-/
namespace DocQuery

/-- Layout of a stored dictionary: one document, or an array of key and value pairs. -/
inductive DictionaryLayout where
  | document
  | arrayOfDocuments
deriving DecidableEq

/-- How a member is stored when it is not in the natural form of its type. -/
inductive Representation where
  | natural
  | string
  | int32
  | int64
  | objectId
deriving DecidableEq

/-- Type of a value in the querying program. Enumerations and documents are known by name;
nothing is known of a value of type `any`. -/
inductive ValueType where
  | int32
  | int64
  | double
  | decimal
  | string
  | char
  | boolean
  | dateTime
  | objectId
  | enumeration (name : String)
  | document (name : String)
  | array (item : ValueType)
  | dictionary (value : ValueType) (layout : DictionaryLayout)
  | nullable (inner : ValueType)
  | any
deriving DecidableEq

namespace ValueType

/-- The type without `nullable` around it. -/
def underlying : ValueType → ValueType
  | .nullable inner => inner.underlying
  | t => t

/-- The type of one value where a lone value may stand for an array of it. -/
def element : ValueType → ValueType
  | .nullable inner => inner.element
  | .array item => item.element
  | t => t

/-- Item type of an array. -/
def item? (t : ValueType) : Option ValueType :=
  match t.underlying with
  | .array item => some item
  | _ => none

def isNullable : ValueType → Bool
  | .nullable _ => true
  | _ => false

def isArray (t : ValueType) : Bool := t.item?.isSome

def isString (t : ValueType) : Bool := t.underlying = .string

def isBoolean (t : ValueType) : Bool := t.underlying = .boolean

def isDate (t : ValueType) : Bool := t.underlying = .dateTime

def isDictionary (t : ValueType) : Bool :=
  match t.underlying with
  | .dictionary .. => true
  | _ => false

/-- Whole numbers; an enumeration is one. -/
def isInteger (t : ValueType) : Bool :=
  match t.underlying with
  | .int32 | .int64 | .enumeration _ => true
  | _ => false

def isNumeric (t : ValueType) : Bool :=
  match t.underlying with
  | .int32 | .int64 | .double | .decimal => true
  | _ => false

/-- Position among the number types; zero for every other type. -/
def rank (t : ValueType) : Nat :=
  if t.isNumeric then
    match t.underlying with
    | .decimal => 4
    | .double => 3
    | .int64 => 2
    | _ => 1
  else 0

/-- Type of a sum, product or the like: the one of higher rank, the first if they are equal. -/
def promote (a b : ValueType) : ValueType :=
  if a.rank < b.rank then b.underlying else a.underlying

def text : ValueType → String
  | .int32 => "Int32"
  | .int64 => "Int64"
  | .double => "Double"
  | .decimal => "Decimal"
  | .string => "String"
  | .char => "Char"
  | .boolean => "Boolean"
  | .dateTime => "DateTime"
  | .objectId => "ObjectId"
  | .enumeration name => name
  | .document name => name
  | .array item => item.text ++ "[]"
  | .dictionary value _ => "Dictionary<String, " ++ value.text ++ ">"
  | .nullable inner => "Nullable<" ++ inner.text ++ ">"
  | .any => "Object"

end ValueType
end DocQuery
