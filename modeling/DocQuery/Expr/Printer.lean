/-
Text of expressions, as error messages show them.
-/
import DocQuery.Expr.Basic
import DocQuery.Value.Printer

namespace DocQuery

/-- Text of a literal. A truth value is capitalised, but not inside an array. -/
def Literal.text (l : Literal) : String :=
  match l.value with
  | .bool b => if b then "True" else "False"
  | v => v.text

def CollectionKind.text : CollectionKind → String
  | array => "[]"
  | list => "List"
  | hashSet => "HashSet"

namespace Expr

/-- Type named by the argument of a call that selects items by type. -/
def typeArgument? (args : List Expr) : Option String := do
  let arg ← args.head?
  let l ← arg.asLiteral?
  l.value.asString?

def paramsText : List Param → String
  | [p] => p.name
  | params => "(" ++ String.intercalate ", " (params.map Param.name) ++ ")"

mutual
def text : Expr → String
  | .literal l => l.text
  | .param p => p.name
  | .member target name => target.text ++ "." ++ name
  | .call target method args =>
    if method = "OfType" then
      target.text ++ ".OfType<" ++ (typeArgument? args).getD "?" ++ ">()"
    else target.text ++ "." ++ method ++ "(" ++ String.intercalate ", " (texts args) ++ ")"
  | .staticCall owner method args =>
    owner ++ "." ++ method ++ "(" ++ String.intercalate ", " (texts args) ++ ")"
  | .index target position => target.text ++ "[" ++ position.text ++ "]"
  | .not operand => "Not(" ++ operand.text ++ ")"
  | .negate operand => "-" ++ operand.text
  | .convert operand type => "Convert(" ++ operand.text ++ ", " ++ type.text ++ ")"
  | .quote inner => inner.text
  | .binary op left right => "(" ++ left.text ++ " " ++ op.symbol ++ " " ++ right.text ++ ")"
  | .conditional test ifTrue ifFalse =>
    "IIF(" ++ test.text ++ ", " ++ ifTrue.text ++ ", " ++ ifFalse.text ++ ")"
  | .object typeName members =>
    "new " ++ (typeName.map (· ++ " ")).getD "" ++ "\x7b" ++
      String.intercalate "," (memberTexts members) ++ " \x7d"
  | .collection kind (some source) _ => "new " ++ kind.text ++ "(" ++ source.text ++ ")"
  | .collection kind none items =>
    "new " ++ kind.text ++ " \x7b" ++ String.intercalate ", " (texts items) ++ "\x7d"
  | .lambda params body => paramsText params ++ " => " ++ body.text
  | .typeTest operand typeName false => "(" ++ operand.text ++ " Is " ++ typeName ++ ")"
  | .typeTest operand typeName true =>
    "(" ++ operand.text ++ ".GetType() == typeof(" ++ typeName ++ "))"
  | .inject filter => "Inject(" ++ (Value.document filter).text ++ ")"
def texts : List Expr → List String
  | [] => []
  | e :: rest => e.text :: texts rest
def memberTexts : List (String × Expr) → List String
  | [] => []
  | (name, e) :: rest => (" " ++ name ++ " = " ++ e.text) :: memberTexts rest
end

end Expr
end DocQuery
