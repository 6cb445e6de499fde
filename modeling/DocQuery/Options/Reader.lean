/-
Options written as JSON: an object with a string unit and a discriminator
element, or an array of the two. What is not given keeps its default, and keys
that are no options are ignored.
-/
import DocQuery.Error
import DocQuery.Options.Basic
import DocQuery.Options.Json

namespace DocQuery.Options

def unitOfName? (name : String) : Option StringUnit :=
  [StringUnit.bytes, StringUnit.codePoints].find? fun u => u.name = name

/-- A unit is given by its name, or by an object with its name as the only key and no value. -/
def unit? : Json → Option StringUnit
  | .string (some name) => unitOfName? name
  | .object [(some name, .null)] => unitOfName? name
  | _ => none

def element? : Json → Option String
  | .string text => text
  | _ => none

/-- Options given so far. -/
structure Given where
  unit : Option StringUnit := none
  element : Option String := none

/-- The options with defaults for what is not given. -/
def Given.complete (g : Given) : Options :=
  let fallback : Options := {}
  { stringUnit := g.unit.getD fallback.stringUnit
    discriminatorElement := g.element.getD fallback.discriminatorElement }

/-- Takes one field of an object. No option may be given twice. -/
def Given.add (g : Given) (field : Option String × Json) : Option Given :=
  match field with
  | (none, _) => none
  | (some key, v) =>
    if key = "string_translation_mode" then
      if g.unit.isSome then none else (unit? v).map fun u => { g with unit := some u }
    else if key = "discriminator_element" then
      if g.element.isSome then none else (element? v).map fun e => { g with element := some e }
    else some g

def ofJson? : Json → Option Options
  | .object fields => (fields.foldlM Given.add {}).map Given.complete
  | .array [] => some {}
  | .array [u] => do
    let u ← unit? u
    return Given.complete { unit := some u }
  | .array [u, e] => do
    let u ← unit? u
    let e ← element? e
    return Given.complete { unit := some u, element := some e }
  | _ => none

/-- Reads options from a JSON text. -/
def parse (text : String) : Result Options :=
  match (Json.parse? text).bind ofJson? with
  | some o => .ok o
  | none => .error .invalidOptions

end DocQuery.Options
