-- SUMMARY: The texts of binary floats: the plain text that is written and the literals that are read.
import CircuitEquiv.Text.Decimal

/-!
# Float texts
-/

namespace CircuitEquiv

/-- The plain text of a float. -/
def floatText (x : Float) : String :=
  match Decimal.ofFloat? x with
  | some d => d.plainText
  | none => if x.isNaN then "NaN" else if x < 0 then "-inf" else "inf"

/-- Why a text is no float literal. -/
inductive FloatLiteralError where
  | empty
  | invalid
deriving DecidableEq

/-- The message of an error. -/
def FloatLiteralError.message : FloatLiteralError → String
  | .empty => "cannot parse float from empty string"
  | .invalid => "invalid float literal"

/-- The digits at the front of a text and what follows them. -/
def spanDigits (cs : List Char) : List Char × List Char := cs.span Char.isDigit

/-- The number that ASCII digits write. -/
def digitsValue (ds : List Char) : Nat := ds.foldl (fun n c => 10 * n + (c.toNat - '0'.toNat)) 0

/-- A sign at the front of a text, and what follows it. -/
def splitSign : List Char → Bool × List Char
  | '-' :: rest => (true, rest)
  | '+' :: rest => (false, rest)
  | cs => (false, cs)

/-- The exponent at the end of a literal: empty, or a mark, a sign and digits. -/
def readExponent? : List Char → Option Int
  | [] => some 0
  | c :: rest =>
    if c = 'e' ∨ c = 'E' then
      let (negative, digits) := splitSign rest
      if digits.isEmpty ∨ !digits.all Char.isDigit then none
      else some (if negative then -(digitsValue digits : Int) else digitsValue digits)
    else none

/-- An unsigned decimal literal: digits with at most one point, at least one of them, and an
optional exponent. -/
def readMagnitude? (cs : List Char) : Option (Nat × Int) := do
  let (whole, rest) := spanDigits cs
  let (fraction, rest) := match rest with
    | '.' :: rest => spanDigits rest
    | rest => ([], rest)
  if whole.isEmpty ∧ fraction.isEmpty then none
  let exponent ← readExponent? rest
  return (digitsValue (whole ++ fraction), exponent - fraction.length)

/-- Reads a float literal: a sign, then an infinity, a NaN (in any case) or a decimal literal. -/
def readFloat (s : String) : Except FloatLiteralError Float :=
  if s.isEmpty then .error .empty
  else
    let (negative, body) := splitSign s.toList
    let word := String.ofList (body.map Char.toLower)
    if word = "inf" ∨ word = "infinity" then
      .ok (if negative then -1.0 / 0.0 else 1.0 / 0.0)
    else if word = "nan" then .ok (0.0 / 0.0)
    else
      match readMagnitude? body with
      | some (coefficient, exponent) => .ok (Decimal.toFloat ⟨negative, coefficient, exponent⟩)
      | none => .error .invalid

end CircuitEquiv
