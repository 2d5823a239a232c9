-- SUMMARY: Coefficients as they are written in JSON files: integers or texts.
import CircuitEquiv.Field
import CircuitEquiv.File.Error
import CircuitEquiv.Text.IntegerText
import CircuitEquiv.Text.Json

/-!
# Written coefficients
-/

namespace CircuitEquiv

/-- A coefficient as it is written. -/
inductive Coefficient where
  | signed (value : Int64)
  | unsigned (value : UInt64)
  | text (value : String)
deriving DecidableEq

namespace Coefficient

/-- The coefficient zero. -/
def zero : Coefficient := .signed 0

/-- The coefficient that a JSON value is: an integer of 64 bits, signed if possible, or a text. -/
def ofJson? : Json → Option Coefficient
  | .integer i =>
    if Int64.minValue.toInt ≤ i ∧ i ≤ Int64.maxValue.toInt then some (.signed (.ofInt i))
    else if 0 ≤ i ∧ i < UInt64.size then some (.unsigned (.ofNat i.toNat))
    else none
  | .string (some s) => some (.text s)
  | _ => none

/-- The coefficient as a text. -/
def shown : Coefficient → String
  | signed value => toString value.toInt
  | unsigned value => toString value.toNat
  | text value => value

/-- The integer that is written. -/
def integer : Coefficient → Except ReadError Int
  | signed value => .ok value.toInt
  | unsigned value => .ok value.toNat
  | text value =>
    match readInteger? value with
    | some i => .ok i
    | none => .error (.invalidCoefficient value)

/-- The element of the field that is written. -/
def reduce (F : PrimeField) (c : Coefficient) : Except ReadError Nat := do
  return F.ofInt (← c.integer)

end Coefficient

end CircuitEquiv
