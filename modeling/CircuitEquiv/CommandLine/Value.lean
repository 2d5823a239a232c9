-- SUMMARY: The values of command line options: seconds, fractions and numbers.
import CircuitEquiv.Text.FloatText

/-!
# Option values
-/

namespace CircuitEquiv

-- ---------------------------------------------------------------------------
-- Seconds
-- ---------------------------------------------------------------------------

/-- A quotient rounded to the nearest number, and from the middle to the even one. -/
def roundedQuotient (num den : Nat) : Nat :=
  let below := num / den
  let twice := 2 * (num % den)
  if twice < den ∨ (twice = den ∧ below % 2 = 0) then below else below + 1

/-- The nanoseconds nearest to a finite number of seconds, given as a multiple of a power of two. -/
def nanosecondsOf (m : Nat) (q : Int) : Nat :=
  roundedQuotient (m * 1000000000 * Nat.pow 2 q.toNat) (Nat.pow 2 (-q).toNat)

/-- Reads a time in seconds and returns its nanoseconds; the seconds have to fit into 64 bits. -/
def readSeconds (s : String) : Except String Nat :=
  let refuse {α : Type} (cause : String) : Except String α := .error s!"invalid number of seconds: {cause}"
  let refuseTime {α : Type} (cause : String) : Except String α :=
    refuse s!"cannot convert float seconds to Duration: {cause}"
  match readFloat s with
  | .error e => refuse e.message
  | .ok x =>
    if x < 0 then refuseTime "value is negative"
    else
      match Decimal.binaryParts? x with
      | some (m, q) =>
        let t := nanosecondsOf m q
        if t < UInt64.size * 1000000000 then .ok t else refuseTime "value is either too big or NaN"
      | none => refuseTime "value is either too big or NaN"

-- ---------------------------------------------------------------------------
-- Fractions and numbers
-- ---------------------------------------------------------------------------

/-- Reads a number from 0 to 1. -/
def readFraction (s : String) : Except String Float :=
  match readFloat s with
  | .error e => .error s!"invalid fraction: {e.message}"
  | .ok x => if 0 ≤ x ∧ x ≤ 1 then .ok x else .error s!"{floatText x} is not between 0 and 1"

/-- Reads a float. -/
def readNumber (s : String) : Except String Float := (readFloat s).mapError FloatLiteralError.message

/-- Reads a whole number in the given bounds; it may have a plus sign. -/
def readBounded (low high : Nat) (s : String) : Except String Nat :=
  let digits := match s.toList with
    | '+' :: rest => rest
    | cs => cs
  if digits.isEmpty ∨ !digits.all Char.isDigit then .error "invalid digit found in string"
  else
    let n := digitsValue digits
    if low ≤ n ∧ n ≤ high then .ok n else .error s!"{n} is not in {low}..={high}"

/-- Reads a word of 64 bits. -/
def readWord (s : String) : Except String UInt64 :=
  (readBounded 0 (UInt64.size - 1) s).map Nat.toUInt64

/-- Reads a text that has to be something. -/
def readPath (s : String) : Except String String :=
  if s = "" then .error "a value is required" else .ok s

end CircuitEquiv
