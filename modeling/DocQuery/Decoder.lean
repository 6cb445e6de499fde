/-
Decoders: a stored value as one of the type that a program asks for.
-/
import DocQuery.Value.Extended

namespace DocQuery

/-- Turns a value into one of a type that a program asks for, if it has that type. -/
abbrev Decoder (α : Type) := Value → Option α

namespace Decoder

/-- A number that fits in 32 bits. -/
def int32 : Decoder Int32 := fun v => v.asInt?.bind int32?

def int64 : Decoder Int64 := fun v => v.asInt?.map Int64.ofInt

def bool : Decoder Bool := Value.asBool?

def string : Decoder String := Value.asText?

def list {α : Type} (item : Decoder α) : Decoder (List α)
  | .array items => items.mapM item
  | _ => none

/-- A value, or nothing where null is stored. -/
def optional {α : Type} (inner : Decoder α) : Decoder (Option α)
  | .null => some none
  | v => (inner v).map some

/-- Any value. Documents in extended form become what they stand for. -/
def value : Decoder Value := Value.ofExtended?

end Decoder

end DocQuery
