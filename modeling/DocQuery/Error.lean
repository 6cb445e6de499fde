/-
Why there is no query for an expression, or no result in a returned document.
-/
import DocQuery.Expr.Printer

namespace DocQuery

/-- Cause of a failure. -/
inductive Error where
  /-- No rule covers the expression where it stands. -/
  | unsupported (node : Expr)
  | notDerived (actual nominal : String)
  | unmappedMember (typeName member : String)
  | unknownEnumName (name enumName : String)
  | notEnumValue (value : Value) (enumName : String)
  | exceedsInt32 (n : Int64)
  | notObjectId (text : String)
  | unboundParam (node : Expr) (param : String)
  /-- A nested lambda reads a parameter of a lambda around it. -/
  | foreignParam (node : Expr) (param : String)
  /-- A group key that is no document is asked for a member. -/
  | keyWithoutMember (key : Value) (path : List String)
  | notDocument (element : String) (found : Value)
  /-- A result is not of the type asked for. -/
  | wrongResultType
  | invalidOptions

namespace Error

/-- What kind of failure a cause is. -/
inductive Kind where
  | unsupportedExpression
  | illegalScopeReference
  | deserialization
  | configuration
deriving DecidableEq

def kind : Error → Kind
  | .foreignParam .. => .illegalScopeReference
  | .keyWithoutMember .. | .notDocument .. | .wrongResultType => .deserialization
  | .invalidOptions => .configuration
  | _ => .unsupportedExpression

def Kind.text : Kind → String
  | unsupportedExpression => "Unsupported expression: "
  | illegalScopeReference => "Illegal scope reference: "
  | deserialization => "Deserialization error: "
  | configuration => "Configuration error: "

/-- What a message says after the kind of failure. -/
def detail : Error → String
  | .unsupported node => node.text
  | .notDerived actual nominal => actual ++ " does not derive from " ++ nominal
  | .unmappedMember typeName member => typeName ++ " has no mapped member '" ++ member ++ "'"
  | .unknownEnumName name enumName => "'" ++ name ++ "' is not a value of enum " ++ enumName
  | .notEnumValue value enumName => value.text ++ " is not a value of enum " ++ enumName
  | .exceedsInt32 n => toString n.toInt ++ " does not fit in Int32"
  | .notObjectId text => "'" ++ text ++ "' is not a valid ObjectId"
  | .unboundParam node param => node.text ++ " references unbound parameter '" ++ param ++ "'"
  | .foreignParam node param =>
    node.text ++ " references parameter '" ++ param ++ "' from an enclosing scope"
  | .keyWithoutMember key path =>
    "group key " ++ key.text ++ " has no member " ++ String.intercalate "." path
  | .notDocument element found =>
    "expected a document at '" ++ element ++ "', found " ++ found.kindName
  | .wrongResultType => "the result is not of the type asked for"
  | .invalidOptions => "the options cannot be read"

def message (e : Error) : String := e.kind.text ++ e.detail

/-- The parameter that an illegal reference names. -/
def param? : Error → Option String
  | .foreignParam _ param => some param
  | _ => none

end Error

/-- Outcome of a step that may fail. -/
abbrev Result (α : Type) := Except Error α

end DocQuery
