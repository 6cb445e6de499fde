/-
Mappings: how a program's types are stored, with the options of its queries. A
mapping is what an expression is read with, be it as a filter, as a stage of an
aggregation, or as a list of fields to return.
-/
import DocQuery.Options.Basic
import DocQuery.Schema.Basic

namespace DocQuery

/-- A schema with the options of the queries over it. -/
structure Mapping where
  schema : Schema
  options : Options := {}

namespace Mapping

/-- Element that marks the types derived from a document type. -/
def discriminatorElement (m : Mapping) (typeName : String) : String :=
  m.schema.discriminatorElement typeName m.options.discriminatorElement

end Mapping
end DocQuery
