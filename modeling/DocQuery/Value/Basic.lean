/-
Values of the document database and its documents.

A document is a list of named fields with distinct names, in the order in which
the names first came. Main statements: what `Document.insert` does to look-ups
(`get?_insert_self`, `get?_insert_of_ne`) and to the order of the names
(`keys_insert_of_mem`, `keys_insert_of_notMem`).
-/
import DocQuery.Number.Binary64

namespace DocQuery

/-- Object identifier, as its 24 lower-case hexadecimal digits. -/
structure ObjectId where
  hex : String
deriving DecidableEq

namespace ObjectId

def isHexDigit (c : Char) : Bool :=
  c.isDigit || ('a' ≤ c && c ≤ 'f') || ('A' ≤ c && c ≤ 'F')

/-- Reads exactly 24 hexadecimal digits of either case. -/
def parse? (text : String) : Option ObjectId :=
  let digits := text.toList
  if digits.length = 24 ∧ digits.all isHexDigit then
    some ⟨String.ofList (digits.map Char.toLower)⟩
  else none

/-- The identifier stored in exactly 12 bytes. -/
def ofBytes? (bytes : List UInt8) : Option ObjectId :=
  if bytes.length = 12 then
    some ⟨String.ofList (bytes.flatMap fun b =>
      [Nat.digitChar (b.toNat / 16), Nat.digitChar (b.toNat % 16)])⟩
  else none

end ObjectId

/-- A stored value. Decimals are kept as their text, binary data has the generic subtype. -/
inductive Value where
  | null
  | bool (b : Bool)
  | int32 (n : Int32)
  | int64 (n : Int64)
  | double (x : Binary64)
  | string (s : String)
  | array (items : List Value)
  | document (fields : List (String × Value))
  | objectId (id : ObjectId)
  | dateTime (millis : Int64)
  | regex (pattern options : String)
  | decimal (text : String)
  | binary (bytes : List UInt8)
  | timestamp (time increment : UInt32)
  | symbol (s : String)
  | javaScript (code : String)
  | minKey
  | maxKey
  | undefined
deriving Inhabited

/-- Named fields in order. -/
abbrev Document := List (String × Value)

namespace Document

/-- Value of the field with the given name. -/
def get? (d : Document) (key : String) : Option Value :=
  match d with
  | [] => none
  | (k, v) :: rest => if k = key then some v else get? rest key

def keys (d : Document) : List String := d.map Prod.fst

/-- Whether a field has the given name. -/
def hasKey (d : Document) (key : String) : Bool := (d.get? key).isSome

/-- Sets a field: a name already there keeps its place, a new one comes last. -/
def insert (d : Document) (key : String) (value : Value) : Document :=
  match d with
  | [] => [(key, value)]
  | (k, v) :: rest => if k = key then (key, value) :: rest else (k, v) :: insert rest key value

/-- The document that arises by setting fields one after the other. -/
def ofFields (fields : List (String × Value)) : Document :=
  fields.foldl (fun d (k, v) => insert d k v) []

/-- Value of a document's only field, if it has the given name. -/
def only? (d : Document) (key : String) : Option Value :=
  match d with
  | [(k, v)] => if k = key then some v else none
  | _ => none

@[simp] theorem get?_insert_self (d : Document) (k : String) (v : Value) :
    (d.insert k v).get? k = some v := by
  induction d with
  | nil => simp [insert, get?]
  | cons f rest ih =>
    obtain ⟨k', v'⟩ := f
    by_cases h : k' = k <;> simp [insert, get?, h, ih]

theorem get?_insert_of_ne {k k' : String} (h : k ≠ k') (d : Document) (v : Value) :
    (d.insert k v).get? k' = d.get? k' := by
  induction d with
  | nil => simp [insert, get?, h]
  | cons f rest ih =>
    obtain ⟨k₀, v₀⟩ := f
    by_cases h₀ : k₀ = k
    · subst h₀; simp [insert, get?, h]
    · by_cases h₁ : k₀ = k'
      · subst h₁; simp [insert, get?, h₀]
      · simp [insert, get?, h₀, h₁, ih]

theorem keys_insert_of_mem {d : Document} {k : String} (h : k ∈ d.keys) (v : Value) :
    (d.insert k v).keys = d.keys := by
  induction d with
  | nil => simp [keys] at h
  | cons f rest ih =>
    obtain ⟨k₀, v₀⟩ := f
    by_cases h₀ : k₀ = k
    · subst h₀; simp [insert, keys]
    · have hr : k ∈ keys rest := by simpa [keys, Ne.symm h₀] using h
      have := ih hr
      simp only [keys] at this
      simp [insert, keys, h₀, this]

theorem keys_insert_of_notMem {d : Document} {k : String} (h : k ∉ d.keys) (v : Value) :
    (d.insert k v).keys = d.keys ++ [k] := by
  induction d with
  | nil => rfl
  | cons f rest ih =>
    obtain ⟨k₀, v₀⟩ := f
    simp only [keys, List.map_cons, List.mem_cons, not_or] at h
    have := ih h.2
    simp only [keys] at this
    simp [insert, keys, Ne.symm h.1, this]

end Document

namespace Value

/-- A document with one field. -/
def single (key : String) (value : Value) : Value := .document [(key, value)]

def isNull : Value → Bool
  | .null => true
  | _ => false

/-- Number held by an integer of either width. -/
def asInt? : Value → Option Int
  | .int32 n => some n.toInt
  | .int64 n => some n.toInt
  | _ => none

def asString? : Value → Option String
  | .string s => some s
  | _ => none

/-- Text of a string, or of binary data that is UTF-8. -/
def asText? : Value → Option String
  | .string s => some s
  | .binary bytes => String.fromUTF8? ⟨bytes.toArray⟩
  | _ => none

def asBool? : Value → Option Bool
  | .bool b => some b
  | _ => none

/-- Name of the value's type. -/
def kindName : Value → String
  | .null => "Null"
  | .bool _ => "Boolean"
  | .int32 _ => "Int32"
  | .int64 _ => "Int64"
  | .double _ => "Double"
  | .string _ => "String"
  | .array _ => "Array"
  | .document _ => "EmbeddedDocument"
  | .objectId _ => "ObjectId"
  | .dateTime _ => "DateTime"
  | .regex .. => "RegularExpression"
  | .decimal _ => "Decimal128"
  | .binary _ => "Binary"
  | .timestamp .. => "Timestamp"
  | .symbol _ => "Symbol"
  | .javaScript _ => "JavaScriptCode"
  | .minKey => "MinKey"
  | .maxKey => "MaxKey"
  | .undefined => "Undefined"

end Value

/-- The 32-bit integer with the given value, if there is one. -/
def int32? (n : Int) : Option Int32 :=
  if Int32.minValue.toInt ≤ n ∧ n ≤ Int32.maxValue.toInt then some (Int32.ofInt n) else none

/-- The 64-bit integer with the given value, if there is one. -/
def int64? (n : Int) : Option Int64 :=
  if Int64.minValue.toInt ≤ n ∧ n ≤ Int64.maxValue.toInt then some (Int64.ofInt n) else none

/-- The unsigned 32-bit integer with the given value, if there is one. -/
def uint32? (n : Int) : Option UInt32 :=
  if 0 ≤ n ∧ n < UInt32.size then some n.toNat.toUInt32 else none

end DocQuery
