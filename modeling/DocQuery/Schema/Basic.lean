/-
Schema: how document types and enumerations are stored, and how literals of one
type are turned into values of another. What is registered later under the same
name, or for the same two types, replaces what was there.

Look-ups on a document type go along its bases, nearest first (`lineage`).
-/
import DocQuery.Error

namespace DocQuery

/-- How a member of a document type is stored. -/
structure Member where
  name : String
  element : String
  type : ValueType
  representation : Representation := .natural

/-- How a document type is stored. Members of the base are inherited. -/
structure DocumentType where
  name : String
  base : Option String := none
  /-- Value that marks documents of this type; the type's name if there is none. -/
  discriminator : Option String := none
  /-- Element that holds the mark in this type and the types derived from it. -/
  discriminatorElement : Option String := none
  members : List Member := []

/-- An enumeration with the numbers of its names. -/
structure Enumeration where
  name : String
  variants : List (String × Int64)

namespace Enumeration

/-- Number of a name, the first given if it has several. -/
def valueOf? (e : Enumeration) (name : String) : Option Int64 :=
  (e.variants.find? fun (n, _) => n = name).map Prod.snd

/-- Name of a number, the first given if it has several. -/
def nameOf? (e : Enumeration) (value : Int64) : Option String :=
  (e.variants.find? fun (_, v) => v = value).map Prod.fst

end Enumeration

/-- Turns a literal of one type into a value of another, unless it refuses the literal. -/
structure Converter where
  source : ValueType
  target : ValueType
  convert : Value → Option Value

/-- Document types, enumerations and converters, each list with the latest first. -/
structure Schema where
  documents : List DocumentType := []
  enums : List Enumeration := []
  converters : List Converter := []

namespace Schema

def addDocument (s : Schema) (d : DocumentType) : Schema := { s with documents := d :: s.documents }

def addEnum (s : Schema) (e : Enumeration) : Schema := { s with enums := e :: s.enums }

def addConverter (s : Schema) (c : Converter) : Schema := { s with converters := c :: s.converters }

def document? (s : Schema) (name : String) : Option DocumentType :=
  s.documents.find? fun d => d.name = name

def enum? (s : Schema) (name : String) : Option Enumeration :=
  s.enums.find? fun e => e.name = name

def converter? (s : Schema) (source target : ValueType) : Option Converter :=
  s.converters.find? fun c => c.source = source ∧ c.target = target

def base? (s : Schema) (name : String) : Option String :=
  (s.document? name).bind DocumentType.base

/-- A type and its bases, at most `n` of them, nearest first. -/
def lineageUpTo (s : Schema) : Nat → String → List String
  | 0, name => [name]
  | n + 1, name =>
    name :: match s.base? name with
      | some base => s.lineageUpTo n base
      | none => []

/-- A type, its base, the base of that and so on. A chain of bases without a cycle is no longer
than the number of registered types. -/
def lineage (s : Schema) (name : String) : List String := s.lineageUpTo s.documents.length name

/-- Member of a document type, its own before those of its bases. -/
def member? (s : Schema) (typeName member : String) : Option Member :=
  (s.lineage typeName).findSome? fun name =>
    (s.document? name).bind fun d => d.members.find? fun m => m.name = member

/-- Whether `actual` is `nominal` or derives from it. -/
def isAssignable (s : Schema) (nominal actual : String) : Bool :=
  (s.lineage actual).contains nominal

/-- Element that marks the types of a hierarchy. -/
def discriminatorElement (s : Schema) (typeName fallback : String) : String :=
  ((s.lineage typeName).findSome? fun name =>
    (s.document? name).bind DocumentType.discriminatorElement).getD fallback

/-- Mark of `actual` among the values of `nominal`; none if every one of them qualifies. -/
def discriminator (s : Schema) (nominal actual : String) : Result (Option Value) :=
  if nominal = actual then .ok none
  else if s.isAssignable nominal actual then
    .ok (some (.string (((s.document? actual).bind DocumentType.discriminator).getD actual)))
  else .error (.notDerived actual nominal)

/-- Where and how a member of a value is stored: element, type and representation. -/
structure StoredMember where
  element : String
  type : ValueType
  representation : Representation

/-- Storage of a member of a value of the given type. Values of an unknown type store each member
under its own name; values that are no documents have no members. -/
def storedMember? (s : Schema) (owner : ValueType) (member : String) :
    Result (Option StoredMember) :=
  match owner.underlying with
  | .document typeName =>
    match s.member? typeName member with
    | some m => .ok (some ⟨m.element, m.type, m.representation⟩)
    | none =>
      if (s.document? typeName).isSome then .error (.unmappedMember typeName member)
      else .ok (some ⟨member, .any, .natural⟩)
  | .any => .ok (some ⟨member, .any, .natural⟩)
  | _ => .ok none

end Schema
end DocQuery
