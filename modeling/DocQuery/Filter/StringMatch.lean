/-
Strings that contain, begin with or end with a text, seen through changes of
case and through trimming.
-/
import DocQuery.Filter.Comparison

namespace DocQuery

/-- Where a text is looked for in a string. -/
inductive TextPlace where
  | anywhere
  | atStart
  | atEnd
deriving DecidableEq

/-- Pattern for a string with a text at a place. -/
def TextPlace.pattern (place : TextPlace) (text : String) : String :=
  match place with
  | anywhere => ".*" ++ Pattern.escape text ++ ".*"
  | atStart => Pattern.escape text ++ ".*"
  | atEnd => ".*" ++ Pattern.escape text

/-- A pattern, whether case matters to it, and the expression whose string it is for. -/
structure StringMatch where
  receiver : Expr
  pattern : String
  ignoreCase : Bool := false

namespace StringMatch

/-- The pattern for the string before it was trimmed. -/
def untrim (m : StringMatch) (side : TrimSide) (chars : List Char) (receiver : Expr) :
    StringMatch :=
  let trimmed := Pattern.trimmed chars
  let front := if side = .stop then m.pattern else trimmed ++ m.pattern
  { m with receiver := receiver, pattern := if side = .start then front else front ++ trimmed }

/-- Characters that a trim call cuts off, none given meaning blanks. -/
def trimChars? (args : List Expr) : Option (List Char) :=
  match args with
  | [] => some []
  | [arg] => arg.known?.bind Literal.chars?
  | _ => none

/-- Goes from the receiver to the stored string, through changes of case and trimming. The
expression walked is the receiver of `m`, without what is around it. -/
def unwrap (m : StringMatch) (node : Expr) : Expr → Result StringMatch
  | .quote inner => m.unwrap node inner
  | .convert operand _ => m.unwrap node operand
  | .call inner method args =>
    if args.isEmpty && (LetterCase.ofMethod? method).isSome then
      unwrap { m with receiver := inner, ignoreCase := true } node inner
    else
      match TrimSide.ofMethod? method with
      | some side =>
        match trimChars? args with
        | some chars => unwrap (m.untrim side chars inner) node inner
        | none => .error (.unsupported node)
      | none => .ok m
  | _ => .ok m

/-- What is true of a receiver and goes over to what is quoted, converted or called is true of the
stored string. -/
theorem unwrap_cases {P : Expr → Prop} (hquote : ∀ e, P (.quote e) → P e)
    (hconvert : ∀ e t, P (.convert e t) → P e) (hcall : ∀ e n args, P (.call e n args) → P e)
    (node : Expr) {m : StringMatch} {e : Expr} (he : P e) (hm : P m.receiver) :
    (∃ r, m.unwrap node e = .ok r ∧ P r.receiver) ∨
      m.unwrap node e = .error (.unsupported node) := by
  fun_induction unwrap m node e with
  | case1 m inner ih => exact ih (hquote _ he) hm
  | case2 m operand type ih => exact ih (hconvert _ _ he) hm
  | case3 m inner method args _ ih => exact ih (hcall _ _ _ he) (hcall _ _ _ he)
  | case4 m inner method args _ side _ chars _ ih => exact ih (hcall _ _ _ he) (hcall _ _ _ he)
  | case5 => exact .inr rfl
  | case6 => exact .inl ⟨_, rfl, hm⟩
  | case7 => exact .inl ⟨_, rfl, hm⟩

end StringMatch

namespace Mapping

open DocQuery.Filter

/-- A string has a known text at a place. -/
def stringMatch (m : Mapping) (node receiver : Expr) (place : TextPlace) (needle : Expr)
    (s : Scope) : Result Document := do
  match needle.known?.bind Literal.asString? with
  | none => throw (.unsupported node)
  | some text =>
    let sought : StringMatch := { receiver := receiver, pattern := place.pattern text }
    let found ← sought.unwrap node receiver
    let target ← m.target found.receiver s
    let letters := if found.ignoreCase then "is" else "s"
    return test target.name (Pattern.regex (Pattern.anchor found.pattern) letters)

/-- Of two expressions the one that is not known, with the value of the other. -/
def oneKnown? (a b : Expr) : Option (Expr × Literal) :=
  match a.known?, b.known? with
  | none, some l => some (a, l)
  | some l, none => some (b, l)
  | _, _ => none

/-- A string equals a known one when case does not matter. -/
def equalIgnoringCase (m : Mapping) (node a b : Expr) (s : Scope) : Result Document := do
  match oneKnown? a b with
  | none => throw (.unsupported node)
  | some (source, l) =>
    let target ← m.target source s
    match l.value with
    | .string text => return test target.name (Pattern.regex (Pattern.exactly text) "i")
    | .null => return test target.name .null
    | _ => throw (.unsupported node)

/-- Option letters of a regular expression, given as such or as flags. -/
def regexLetters (node : Expr) (options : Option Expr) : Result String :=
  match options with
  | none => .ok ""
  | some e =>
    match e.known?.map Literal.value with
    | some (.int32 flags) => .ok (Pattern.optionsOfFlags flags.toInt64)
    | some (.int64 flags) => .ok (Pattern.optionsOfFlags flags)
    | some (.string letters) => .ok letters
    | _ => .error (.unsupported node)

/-- A string matches a regular expression that is known, with known options. -/
def regexMatch (m : Mapping) (node input pattern : Expr) (options : Option Expr) (s : Scope) :
    Result Document := do
  match pattern.known?.bind Literal.asString? with
  | none => throw (.unsupported node)
  | some text =>
    let letters ← regexLetters node options
    let target ← m.target input s
    return test target.name (Pattern.regex text letters)

end Mapping
end DocQuery
