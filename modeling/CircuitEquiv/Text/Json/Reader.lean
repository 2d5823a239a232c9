-- SUMMARY: The reader of JSON documents, and of records and typed values from JSON values.
import CircuitEquiv.Text.FloatText
import CircuitEquiv.Text.Json

/-!
# Reading JSON

The reader takes the grammar of JSON documents literally: no trailing commas, no leading zeros, no
control characters in strings, nothing after the value but blanks.

A record is written as an object with named fields in any order, or as an array of its fields in
their own order. Other names in an object are passed over; a field that is there twice, and an item
beyond the last field, are refused.
-/

namespace CircuitEquiv.Json

/-! ## Lexemes -/

/-- Drops the blanks between lexemes. -/
def skipBlanks (cs : List Char) : List Char :=
  cs.dropWhile fun c => c = ' ' ∨ c = '\n' ∨ c = '\t' ∨ c = '\r'

/-- The value of a hexadecimal digit. -/
def hexDigit? (c : Char) : Option Nat :=
  if c.isDigit then some (c.toNat - '0'.toNat)
  else if 'a' ≤ c ∧ c ≤ 'f' then some (c.toNat - 'a'.toNat + 10)
  else if 'A' ≤ c ∧ c ≤ 'F' then some (c.toNat - 'A'.toNat + 10)
  else none

/-- The code unit of four hexadecimal digits. -/
def codeUnit? (a b c d : Char) : Option Nat := do
  return ((← hexDigit? a) * 16 + (← hexDigit? b)) * 256 + (← hexDigit? c) * 16 + (← hexDigit? d)

/-- The character of a one-letter escape. -/
def shortEscape? (c : Char) : Option Char :=
  if c = '"' ∨ c = '\\' ∨ c = '/' then some c
  else if c = 'b' then some '\x08'
  else if c = 'f' then some '\x0c'
  else if c = 'n' then some '\n'
  else if c = 'r' then some '\r'
  else if c = 't' then some '\t'
  else none

def isHighSurrogate (u : Nat) : Bool := 0xD800 ≤ u && u < 0xDC00

def isLowSurrogate (u : Nat) : Bool := 0xDC00 ≤ u && u < 0xE000

/-- The character of a surrogate pair that starts an escape sequence list, and what follows it. -/
def surrogatePair? (high : Nat) : List Char → Option (Char × List Char)
  | '\\' :: 'u' :: a :: b :: c :: d :: rest => do
    let low ← codeUnit? a b c d
    if isLowSurrogate low then
      return (Char.ofNat (0x10000 + (high - 0xD800) * 0x400 + (low - 0xDC00)), rest)
    else none
  | _ => none

/-- Reads a string after its opening quote. `acc` holds the characters so far, last one first, and
`isText` says that no unpaired surrogate was met. -/
def readString (fuel : Nat) (acc : List Char) (isText : Bool) (cs : List Char) :
    Option (Option String × List Char) :=
  match fuel, cs with
  | 0, _ => none
  | _, [] => none
  | fuel + 1, '\\' :: 'u' :: a :: b :: c :: d :: rest => do
    let u ← codeUnit? a b c d
    if isHighSurrogate u then
      match surrogatePair? u rest with
      | some (char, rest) => readString fuel (char :: acc) isText rest
      | none => readString fuel acc false rest
    else if isLowSurrogate u then readString fuel acc false rest
    else readString fuel (Char.ofNat u :: acc) isText rest
  | fuel + 1, '\\' :: c :: rest => do
    let char ← shortEscape? c
    readString fuel (char :: acc) isText rest
  | fuel + 1, c :: rest =>
    if c = '"' then some (if isText then some (String.ofList acc.reverse) else none, rest)
    else if c.toNat < 0x20 ∨ c = '\\' then none
    else readString fuel (c :: acc) isText rest

/-- The digits of a nonempty digit run. -/
def someDigits? (cs : List Char) : Option (List Char × List Char) :=
  let (ds, rest) := spanDigits cs
  if ds.isEmpty then none else some (ds, rest)

/-- Reads the fraction of a number, if there is one. -/
def readFraction? (cs : List Char) : Option (List Char × List Char) :=
  match cs with
  | '.' :: rest => someDigits? rest
  | _ => some ([], cs)

/-- Reads the exponent of a number, if there is one. -/
def readExponentPart? (cs : List Char) : Option (Option Int × List Char) :=
  match cs with
  | [] => some (none, [])
  | c :: rest =>
    if c = 'e' ∨ c = 'E' then do
      let (negative, rest) := splitSign rest
      let (ds, rest) ← someDigits? rest
      return (some (if negative then -(digitsValue ds : Int) else digitsValue ds), rest)
    else some (none, cs)

/-- Reads a number without its sign. A negative zero is no integer. -/
def readNumber? (negative : Bool) (cs : List Char) : Option (Json × List Char) := do
  let (whole, rest) ← someDigits? cs
  if whole.length > 1 ∧ whole.head? = some '0' then none
  let (fraction, rest) ← readFraction? rest
  let (exponent, rest) ← readExponentPart? rest
  let n := digitsValue (whole ++ fraction)
  if fraction.isEmpty ∧ exponent.isNone ∧ !(negative && n == 0) then
    return (.integer (if negative then -(n : Int) else n), rest)
  else
    return (.decimal ⟨negative, n, exponent.getD 0 - fraction.length⟩, rest)

/-- Drops a word from the front of a text. -/
def dropWord? (word : String) (cs : List Char) : Option (List Char) :=
  if word.toList.isPrefixOf cs then some (cs.drop word.length) else none

/-! ## Values -/

mutual

/-- Reads one value and returns what follows it. -/
def readValue (fuel : Nat) (cs : List Char) : Option (Json × List Char) :=
  match fuel with
  | 0 => none
  | fuel + 1 =>
    match skipBlanks cs with
    | [] => none
    | c :: rest =>
      if c = '"' then do
        let (s, rest) ← readString (rest.length + 1) [] true rest
        return (.string s, rest)
      else if c = '[' then
        match skipBlanks rest with
        | ']' :: rest => some (.array [], rest)
        | rest => readItems fuel [] rest
      else if c = '\x7b' then
        match skipBlanks rest with
        | '\x7d' :: rest => some (.object [], rest)
        | rest => readFields fuel [] rest
      else if c = '-' then readNumber? true rest
      else if c.isDigit then readNumber? false (c :: rest)
      else if c = 'n' then (dropWord? "null" (c :: rest)).map (.null, ·)
      else if c = 't' then (dropWord? "true" (c :: rest)).map (.bool true, ·)
      else if c = 'f' then (dropWord? "false" (c :: rest)).map (.bool false, ·)
      else none

/-- Reads the items of an array up to its end; `acc` holds the items so far, last one first. -/
def readItems (fuel : Nat) (acc : List Json) (cs : List Char) : Option (Json × List Char) :=
  match fuel with
  | 0 => none
  | fuel + 1 => do
    let (v, rest) ← readValue fuel cs
    match skipBlanks rest with
    | ',' :: rest => readItems fuel (v :: acc) rest
    | ']' :: rest => some (.array (v :: acc).reverse, rest)
    | _ => none

/-- Reads the fields of an object up to its end; `acc` holds the fields so far, last one first. -/
def readFields (fuel : Nat) (acc : List (Option String × Json)) (cs : List Char) :
    Option (Json × List Char) :=
  match fuel with
  | 0 => none
  | fuel + 1 =>
    match skipBlanks cs with
    | '"' :: rest => do
      let (k, rest) ← readString (rest.length + 1) [] true rest
      match skipBlanks rest with
      | ':' :: rest => do
        let (v, rest) ← readValue fuel rest
        match skipBlanks rest with
        | ',' :: rest => readFields fuel ((k, v) :: acc) rest
        | '\x7d' :: rest => some (.object ((k, v) :: acc).reverse, rest)
        | _ => none
      | _ => none
    | _ => none

end

/-- Reads a whole document. -/
def parse? (s : String) : Option Json := do
  let cs := s.toList
  let (v, rest) ← readValue (2 * cs.length + 2) cs
  if (skipBlanks rest).isEmpty then some v else none

/-! ## Records and typed values -/

/-- The values of the named fields of a record, as far as they are there. -/
def fields? (names : List String) : Json → Option (List (Option Json))
  | .object entries =>
    let values (name : String) : List Json :=
      (entries.filter (·.1 = some name)).map (·.2)
    if entries.all (·.1.isSome) ∧ names.all fun name => (values name).length ≤ 1 then
      some (names.map fun name => (values name).head?)
    else none
  | .array items =>
    if items.length ≤ names.length then
      some ((List.range names.length).map fun i => items[i]?)
    else none
  | _ => none

/-- The integer from 0 to 2^64 - 1 that a value is. -/
def word? : Json → Option UInt64
  | .integer i => if 0 ≤ i ∧ i < UInt64.size then some (.ofNat i.toNat) else none
  | _ => none

/-- The list whose items an array holds. -/
def list? {α : Type} (item? : Json → Option α) : Json → Option (List α)
  | .array items => items.mapM item?
  | _ => none

/-- A field that has to be there. -/
def required? {α : Type} (read? : Json → Option α) (field : Option Json) : Option α :=
  field.bind read?

/-- A field with a value for the case that it is not there. -/
def optional? {α : Type} (read? : Json → Option α) (default : α) : Option Json → Option α
  | some v => read? v
  | none => some default

/-- What a value is read as; a null counts as a value that is not there. -/
def nullable? {α : Type} (read? : Json → Option α) : Json → Option (Option α)
  | .null => some none
  | v => (read? v).map some

end CircuitEquiv.Json
