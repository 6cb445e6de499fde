/-
Values as they are stored: a literal is first converted to the type of what it
is compared with (`coerce`), then written the way a member of that type is
stored (`encode`).
-/
import DocQuery.Schema.Basic

namespace DocQuery.Schema

/-- Converters between the number types, from a character to a string, and from the text of an
object identifier. -/
def builtinConverters : List Converter :=
  [ ⟨.int32, .int64, fun
      | .int32 n => some (.int64 n.toInt64)
      | _ => none⟩,
    ⟨.int32, .double, fun
      | .int32 n => some (.double (.ofInt n.toInt))
      | _ => none⟩,
    ⟨.int64, .double, fun
      | .int64 n => some (.double (.ofInt n.toInt))
      | _ => none⟩,
    ⟨.int64, .int32, fun
      | .int64 n => (int32? n.toInt).map .int32
      | _ => none⟩,
    ⟨.char, .string, some⟩,
    ⟨.string, .objectId, fun
      | .string s => (ObjectId.parse? s).map .objectId
      | _ => none⟩ ]

/-- The schema with the built-in converters and nothing else. -/
def builtin : Schema := { converters := builtinConverters }

/-- The value that a registered converter gives; the value itself if there is none or it refuses. -/
def convert (s : Schema) (source target : ValueType) (v : Value) : Value :=
  ((s.converter? source target).bind fun c => c.convert v).getD v

/-- Turns a literal of type `source` into what a value of type `target` is compared with. Integers
and strings stand for enumeration values as they are, and arrays are converted item by item. -/
def coerce (s : Schema) (source target : ValueType) (v : Value) : Value :=
  match source with
  | .nullable inner => s.coerce inner target v
  | .any => v
  | .array item =>
    if v.isNull then v
    else if .array item = target.underlying then v
    else
      match target.underlying, v with
      | .any, _ => v
      | .array targetItem, .array items => .array (items.map fun i => s.coerce item targetItem i)
      | t, _ => s.convert (.array item) t v
  | source =>
    if v.isNull then v
    else if source = target.underlying then v
    else
      match source, target.underlying with
      | _, .any => v
      | .int32, .enumeration _ => v
      | .int64, .enumeration _ => v
      | .string, .enumeration _ => v
      | source, t => s.convert source t v

/-- A literal of the type of what it is compared with is not converted. -/
theorem coerce_eq_self (s : Schema) {source target : ValueType} (v : Value)
    (h : source.underlying = target.underlying) : s.coerce source target v = v := by
  induction source with
  | nullable inner ih => exact ih h
  | any => rfl
  | _ => simp [coerce, ← h, ValueType.underlying]

/-- Stored form of a value that is no enumeration value, document or dictionary. -/
def represent (r : Representation) (v : Value) : Result Value :=
  match r, v with
  | .string, .objectId id => .ok (.string id.hex)
  | .string, .int32 n => .ok (.string (toString n.toInt))
  | .string, .int64 n => .ok (.string (toString n.toInt))
  | .string, .double x => .ok (.string x.text)
  | .int64, .int32 n => .ok (.int64 n.toInt64)
  | .int32, .int64 n =>
    match int32? n.toInt with
    | some m => .ok (.int32 m)
    | none => .error (.exceedsInt32 n)
  | .objectId, .string s =>
    match ObjectId.parse? s with
    | some id => .ok (.objectId id)
    | none => .error (.notObjectId s)
  | _, v => .ok v

/-- Number of an enumeration value given by number or by name. -/
def enumNumber (s : Schema) (enumName : String) (v : Value) : Result Int64 :=
  match v with
  | .int32 n => .ok n.toInt64
  | .int64 n => .ok n
  | .string name =>
    match (s.enum? enumName).bind (·.valueOf? name) with
    | some n => .ok n
    | none => .error (.unknownEnumName name enumName)
  | v => .error (.notEnumValue v enumName)

/-- Stored form of an enumeration value: its name where it has one, or its number, in 32 bits if
it fits and nothing else is asked for. -/
def encodeEnum (s : Schema) (enumName : String) (r : Representation) (v : Value) :
    Result Value := do
  let n ← s.enumNumber enumName v
  match r with
  | .string =>
    return .string (((s.enum? enumName).bind (·.nameOf? n)).getD (toString n.toInt))
  | .int64 => return .int64 n
  | _ => return ((int32? n.toInt).map Value.int32).getD (.int64 n)

mutual
/-- Stored form of a value of the given type and representation. Null is stored as null. A lone
value where an array is expected is stored as one of its items. -/
def encode (s : Schema) (t : ValueType) (r : Representation) : Value → Result Value
  | .null => .ok .null
  | .array items =>
    match t.underlying with
    | .array item => do return .array (← encodeItems s item r items)
    | .enumeration name => s.encodeEnum name r (.array items)
    | _ => .ok (.array items)
  | .document fields =>
    match t.element with
    | .enumeration name => s.encodeEnum name r (.document fields)
    | .document name => do return .document (Document.ofFields (← encodeMembers s name fields))
    | .dictionary value _ => do
      return .document (Document.ofFields (← encodeEntries s value r fields))
    | _ => .ok (.document fields)
  | v =>
    match t.element with
    | .enumeration name => s.encodeEnum name r v
    | .document _ => .ok v
    | .dictionary .. => .ok v
    | _ => represent r v
def encodeItems (s : Schema) (t : ValueType) (r : Representation) :
    List Value → Result (List Value)
  | [] => .ok []
  | v :: rest => do
    let v ← encode s t r v
    let rest ← encodeItems s t r rest
    return v :: rest
/-- Members of a document type are stored under their elements, other fields as they are. -/
def encodeMembers (s : Schema) (typeName : String) :
    List (String × Value) → Result (List (String × Value))
  | [] => .ok []
  | (name, v) :: rest => do
    let field ← match s.member? typeName name with
      | some m => do pure (m.element, ← encode s m.type m.representation v)
      | none => pure (name, v)
    let rest ← encodeMembers s typeName rest
    return field :: rest
def encodeEntries (s : Schema) (t : ValueType) (r : Representation) :
    List (String × Value) → Result (List (String × Value))
  | [] => .ok []
  | (key, v) :: rest => do
    let v ← encode s t r v
    let rest ← encodeEntries s t r rest
    return (key, v) :: rest
end

end DocQuery.Schema
