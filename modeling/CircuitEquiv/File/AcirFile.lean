-- SUMMARY: The JSON file format of ACIR circuits and its reader.
import CircuitEquiv.Circuit
import CircuitEquiv.File.Coefficient
import CircuitEquiv.Text.Json.Reader

/-!
# ACIR files

A file names witnesses from zero. Signal 0 is the constant one, so a witness is the signal after its
own number. Numbers are words of 64 bits, and counting on from the last one leads back to zero.
-/

namespace CircuitEquiv

/-- A product of two witnesses with a coefficient. -/
structure ProductTerm where
  left : UInt64
  right : UInt64
  coefficient : Coefficient
deriving DecidableEq

/-- A witness with a coefficient. -/
structure WitnessTerm where
  witness : UInt64
  coefficient : Coefficient
deriving DecidableEq

/-- A polynomial that has to be zero. -/
structure Opcode where
  products : List ProductTerm
  linear : List WitnessTerm
  constant : Coefficient
deriving DecidableEq

/-- The content of an ACIR file. -/
structure AcirFile where
  /-- The modulus, unless it is the one of BN254. -/
  prime : Option Coefficient
  nWitnesses : UInt64
  inputs : List UInt64
  outputs : List UInt64
  opcodes : List Opcode
deriving DecidableEq

-- ---------------------------------------------------------------------------
-- Reading the document
-- ---------------------------------------------------------------------------

/-- The product that a JSON value is. -/
def ProductTerm.ofJson? (v : Json) : Option ProductTerm := do
  match ← v.fields? ["witness1", "witness2", "coeff"] with
  | [left, right, coefficient] =>
    return ⟨← Json.required? Json.word? left, ← Json.required? Json.word? right,
      ← Json.required? Coefficient.ofJson? coefficient⟩
  | _ => none

/-- The term that a JSON value is. -/
def WitnessTerm.ofJson? (v : Json) : Option WitnessTerm := do
  match ← v.fields? ["witness", "coeff"] with
  | [witness, coefficient] =>
    return ⟨← Json.required? Json.word? witness, ← Json.required? Coefficient.ofJson? coefficient⟩
  | _ => none

/-- The polynomial that a JSON value is. -/
def Opcode.ofJson? (v : Json) : Option Opcode := do
  match ← v.fields? ["mul", "linear", "constant"] with
  | [products, linear, constant] =>
    return ⟨← Json.optional? (Json.list? ProductTerm.ofJson?) [] products,
      ← Json.optional? (Json.list? WitnessTerm.ofJson?) [] linear,
      ← Json.optional? Coefficient.ofJson? .zero constant⟩
  | _ => none

namespace AcirFile

/-- The file that a JSON value is. -/
def ofJson? (v : Json) : Option AcirFile := do
  match ← v.fields? ["prime", "number_of_signals", "inputs", "outputs", "constraints"] with
  | [prime, nWitnesses, inputs, outputs, opcodes] =>
    return ⟨← Json.optional? (Json.nullable? Coefficient.ofJson?) none prime,
      ← Json.required? Json.word? nWitnesses,
      ← Json.optional? (Json.list? Json.word?) [] inputs,
      ← Json.optional? (Json.list? Json.word?) [] outputs,
      ← Json.optional? (Json.list? Opcode.ofJson?) [] opcodes⟩
  | _ => none

-- ---------------------------------------------------------------------------
-- Circuits
-- ---------------------------------------------------------------------------

/-- The signal of a witness. -/
def signal (witness : UInt64) : Signal := (witness + 1).toNat

/-- The field of a file. -/
def field (file : AcirFile) : Except ReadError PrimeField := do
  match file.prime with
  | none => return .bn254
  | some prime =>
    match ← prime.integer with
    | .ofNat p =>
      match PrimeField.ofModulus? p with
      | some F => return F
      | none => throw (.invalidModulus prime.shown)
    | .negSucc _ => throw (.invalidModulus prime.shown)

/-- The constraint of a polynomial. -/
def constraint (F : PrimeField) (opcode : Opcode) : Except ReadError AcirConstraint := do
  let mult ← opcode.products.mapM fun t =>
    return ((signal t.left, signal t.right), ← t.coefficient.reduce F)
  let linear ← opcode.linear.mapM fun t => return (signal t.witness, ← t.coefficient.reduce F)
  return .ofTerms F mult linear (← opcode.constant.reduce F)

/-- The circuit of a file. -/
def toCircuit (file : AcirFile) : Except ReadError Circuit := do
  let F ← file.field
  let constraints ← file.opcodes.mapM (constraint F)
  (Circuit.build F .acir (some (file.nWitnesses + 1).toNat) (file.inputs.map signal)
    (file.outputs.map signal) (constraints.map .acir)).mapError .circuit

/-- The circuit of the text of a file. -/
def read (text : String) : Except ReadError Circuit :=
  match (Json.parse? text).bind ofJson? with
  | some file => file.toCircuit
  | none => .error .malformedJson

end AcirFile

end CircuitEquiv
