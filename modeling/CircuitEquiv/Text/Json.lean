-- SUMMARY: JSON values with their one-line and their indented texts.
import CircuitEquiv.Text.Decimal

/-!
# JSON values

Fields keep their order. Integers and other numbers are kept apart. A string in a document may hold
an unpaired surrogate, in which case it is no text.
-/

namespace CircuitEquiv

/-- A JSON value. -/
inductive Json where
  | null
  | bool (b : Bool)
  | integer (i : Int)
  | decimal (d : Decimal)
  /-- A string; `none` stands for one with an unpaired surrogate. -/
  | string (s : Option String)
  | array (items : List Json)
  | object (fields : List (Option String × Json))
deriving Inhabited

namespace Json

/-! ## Construction -/

/-- The string of a text. -/
def text (s : String) : Json := .string (some s)

/-- The number of a natural number. -/
def nat (n : Nat) : Json := .integer n

/-- The array of the numbers of a list. -/
def nats (l : List Nat) : Json := .array (l.map nat)

/-- The object with the given fields. -/
def ofFields (fields : List (String × Json)) : Json :=
  .object (fields.map fun (k, v) => (some k, v))

/-- The number of a float; infinities and NaN have none. -/
def ofFloat (x : Float) : Json :=
  match Decimal.ofFloat? x with
  | some d => .decimal d
  | none => .null

/-! ## Strings -/

/-- The `n` low hexadecimal digits of a number. -/
def hexDigits : Nat → Nat → List Char
  | 0, _ => []
  | n + 1, x => hexDigits n (x / 16) ++ [Nat.digitChar (x % 16)]

/-- A character inside a quoted string. -/
def escape (c : Char) : List Char :=
  if c = '"' then ['\\', '"']
  else if c = '\\' then ['\\', '\\']
  else if c = '\n' then ['\\', 'n']
  else if c = '\r' then ['\\', 'r']
  else if c = '\t' then ['\\', 't']
  else if c = '\x08' then ['\\', 'b']
  else if c = '\x0c' then ['\\', 'f']
  else if c.toNat < 0x20 then '\\' :: 'u' :: hexDigits 4 c.toNat
  else [c]

/-- A quoted string. -/
def quote (s : String) : String :=
  "\"" ++ String.ofList (s.toList.flatMap escape) ++ "\""

/-- A quoted string, a replacement character where it is no text. -/
def quoteOrReplacement (s : Option String) : String := quote (s.getD "\uFFFD")

/-! ## Texts -/

mutual

/-- The text on one line. -/
def compact : Json → String
  | null => "null"
  | bool b => if b then "true" else "false"
  | integer i => toString i
  | decimal d => d.exponentText
  | string s => quoteOrReplacement s
  | array items => "[" ++ compactItems items ++ "]"
  | object fields => "\x7b" ++ compactFields fields ++ "\x7d"

/-- The items of an array on one line. -/
def compactItems : List Json → String
  | [] => ""
  | [v] => compact v
  | v :: w :: rest => compact v ++ "," ++ compactItems (w :: rest)

/-- The fields of an object on one line. -/
def compactFields : List (Option String × Json) → String
  | [] => ""
  | [(k, v)] => quoteOrReplacement k ++ ":" ++ compact v
  | (k, v) :: f :: rest =>
    quoteOrReplacement k ++ ":" ++ compact v ++ "," ++ compactFields (f :: rest)

end

/-- A line break and the indentation of the given depth, two blanks a level. -/
def newline (depth : Nat) : String := "\n" ++ String.ofList (List.replicate (2 * depth) ' ')

mutual

/-- The text on several lines, indented from the given depth. -/
def prettyAt (depth : Nat) : Json → String
  | null => "null"
  | bool b => if b then "true" else "false"
  | integer i => toString i
  | decimal d => d.exponentText
  | string s => quoteOrReplacement s
  | array [] => "[]"
  | array (v :: rest) => "[" ++ prettyItems (depth + 1) (v :: rest) ++ newline depth ++ "]"
  | object [] => "\x7b\x7d"
  | object (f :: rest) => "\x7b" ++ prettyFields (depth + 1) (f :: rest) ++ newline depth ++ "\x7d"

/-- The items of an array, each on its own line. -/
def prettyItems (depth : Nat) : List Json → String
  | [] => ""
  | [v] => newline depth ++ prettyAt depth v
  | v :: w :: rest => newline depth ++ prettyAt depth v ++ "," ++ prettyItems depth (w :: rest)

/-- The fields of an object, each on its own line. -/
def prettyFields (depth : Nat) : List (Option String × Json) → String
  | [] => ""
  | [(k, v)] => newline depth ++ quoteOrReplacement k ++ ": " ++ prettyAt depth v
  | (k, v) :: f :: rest =>
    newline depth ++ quoteOrReplacement k ++ ": " ++ prettyAt depth v ++ "," ++
      prettyFields depth (f :: rest)

end

/-- The text on several lines, indented by two blanks a level. -/
def pretty (v : Json) : String := prettyAt 0 v

end Json

end CircuitEquiv
