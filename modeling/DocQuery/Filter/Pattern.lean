/-
Regular expression texts for conditions on strings.

A text is searched for by its escaped form; a character class lists its members
escaped. Positions and lengths count characters, `.` being any of them, and are computed
in 64 bits.
-/
import DocQuery.Expr.Basic

namespace DocQuery.Pattern

/-- Characters with a meaning of their own in a regular expression. -/
def metacharacters : List Char :=
  ['\\', '*', '+', '?', '|', '\x7b', '[', '(', ')', '^', '$', '.', '#', ' ']

/-- A character as a regular expression that it alone matches. -/
def escapeChar (c : Char) : List Char :=
  if c ∈ metacharacters then ['\\', c]
  else if c = '\t' then ['\\', 't']
  else if c = '\n' then ['\\', 'n']
  else if c = '\r' then ['\\', 'r']
  else if c = '\x0c' then ['\\', 'f']
  else [c]

def escape (text : String) : String := String.ofList (text.toList.flatMap escapeChar)

/-- A character as a member of a class. -/
def classMember (c : Char) : List Char :=
  if c = '-' ∨ c = ']' then ['\\', c] else escapeChar c

def classBody (chars : List Char) : String := String.ofList (chars.flatMap classMember)

/-- One of the given characters. A single one needs no brackets. -/
def oneOf (chars : List Char) : String :=
  if 1 < chars.length then "[" ++ classBody chars ++ "]" else classBody chars

/-- A character other than the given ones. -/
def noneOf (chars : List Char) : String := "[^" ++ classBody chars ++ "]"

/-- Exactly `n` times. -/
def times (n : Int) : String := "\x7b" ++ toString n ++ "\x7d"

/-- At most `n` times. -/
def atMost (n : Int) : String := "\x7b0," ++ toString n ++ "\x7d"

/-- At least `n` times. -/
def atLeast (n : Int) : String := "\x7b" ++ toString n ++ ",\x7d"

/-- What trimming cuts off: blanks if no characters are given. -/
def trimmed (chars : List Char) : String :=
  if chars.isEmpty then "\\s*" else oneOf chars ++ "*"

/-- The first of the given characters stands at `index`, searched from `start` in the next `count`
characters; none if it cannot. -/
def indexOfChars (chars : List Char) (index : Int64) (start count : Option Int64) :
    Option String :=
  let yes := oneOf chars
  let no := noneOf chars
  match start, count with
  | none, _ => some ("^" ++ no ++ times index.toInt ++ yes)
  | some start, none =>
    some ("^." ++ times start.toInt ++ no ++ times (index - start).toInt ++ yes)
  | some start, some count =>
    if start + count ≤ index then none
    else
      some ("^." ++ times start.toInt ++ "(?=." ++ times count.toInt ++ ")" ++ no ++
        times (index - start).toInt ++ yes)

/-- A text stands first at `index`, searched from `start` in the next `count` characters; none if
it cannot. -/
def indexOfString (text : String) (index : Int64) (start count : Option Int64) :
    Option String :=
  let sought := escape text
  match start, count with
  | none, _ =>
    some ("^(?!." ++ atMost (index - 1).toInt ++ sought ++ ")." ++ times index.toInt ++ sought)
  | some start, none =>
    some ("^." ++ times start.toInt ++ "(?!." ++ atMost (index - start - 1).toInt ++ sought ++
      ")." ++ times (index - start).toInt ++ sought)
  | some start, some count =>
    if (start + count - index).toInt < text.length then none
    else
      some ("^." ++ times start.toInt ++ "(?=." ++ times count.toInt ++ ")(?!." ++
        atMost (index - start - 1).toInt ++ sought ++ ")." ++ times (index - start).toInt ++
        sought)

/-- The character at a position is the given one, or is another one. -/
def charAt (index : Int) (c : Char) (negated : Bool) : String :=
  "^." ++ times index ++ if negated then noneOf [c] else oneOf [c]

/-- The length compares with `n`. A length that differs has the pattern of the equal one, which
is then refused. -/
def length? (op : BinaryOp) (n : Int64) : Option String :=
  match op with
  | .equal | .notEqual => some ("^." ++ times n.toInt ++ "$")
  | .greater => some ("^." ++ atLeast (n + 1).toInt ++ "$")
  | .greaterOrEqual => some ("^." ++ atLeast n.toInt ++ "$")
  | .less => some ("^." ++ atMost (n - 1).toInt ++ "$")
  | .lessOrEqual => some ("^." ++ atMost n.toInt ++ "$")
  | _ => none

/-- The text without a beginning, if it has that beginning. -/
def dropStart (start text : List Char) : List Char := (start.isPrefixOf? text).getD text

/-- The text without an ending, if it has that ending. -/
def dropEnd (stop text : List Char) : List Char := (stop.isSuffixOf? text).getD text

/-- A pattern for the whole string, without the anchor beside any number of arbitrary characters. -/
def anchor (pattern : String) : String :=
  let whole := '^' :: pattern.toList ++ ['$']
  String.ofList (dropEnd ['.', '*', '$'] (dropStart ['^', '.', '*'] whole))

/-- A pattern for exactly the given text. -/
def exactly (text : String) : String := "^" ++ escape text ++ "$"

/-- Puts a letter in its place among sorted letters, once. -/
def insertLetter (c : Char) : List Char → List Char
  | [] => [c]
  | d :: rest =>
    if c < d then c :: d :: rest
    else if c = d then d :: rest
    else d :: insertLetter c rest

/-- A regular expression value. Its option letters are sorted and none is repeated. -/
def regex (pattern options : String) : Value :=
  .regex pattern (String.ofList (options.toList.foldr insertLetter []))

/-- Option letters of matching flags: case, lines, dots, blanks. -/
def optionsOfFlags (flags : Int64) : String :=
  (if flags &&& 1 ≠ 0 then "i" else "") ++ (if flags &&& 2 ≠ 0 then "m" else "") ++
  (if flags &&& 16 ≠ 0 then "s" else "") ++ (if flags &&& 32 ≠ 0 then "x" else "")

end DocQuery.Pattern
