-- SUMMARY: The size figures of a circuit and their tree-shaped text.
import CircuitEquiv.Circuit
import CircuitEquiv.Data.Total

/-!
# Circuit statistics
-/

namespace CircuitEquiv

/-! ## Grouped digits -/

/-- Puts a comma before every group of three digits; `ds` are the digits from the last one on. -/
def groupDigits : List Char → List Char
  | a :: b :: c :: d :: rest => a :: b :: c :: ',' :: groupDigits (d :: rest)
  | ds => ds

/-- The decimal text of a number with commas between groups of three digits. -/
def groupedText (n : Nat) : String :=
  String.ofList (groupDigits (toString n).toList.reverse).reverse

/-! ## Figures -/

/-- The figures of a circuit that decide how much work a comparison is. -/
structure Statistics where
  dialect : Dialect
  nConstraints : Nat
  /-- Constraints that multiply signals. -/
  nNonlinear : Nat
  nNorms : Nat
  maxNormsPerConstraint : Nat
  /-- Signals, the constant signal included. -/
  nSignals : Nat
  /-- Signals that occur in no constraint, the constant signal left out. -/
  nUnused : Nat
  nInputs : Nat
  nOutputs : Nat

namespace Statistics

/-- The figures of a circuit. -/
def ofCircuit (circuit : Circuit) : Statistics :=
  let counts := circuit.constraints.toList.map fun c => (c.normalize circuit.field).length
  { dialect := circuit.dialect
    nConstraints := circuit.nConstraints
    nNonlinear := circuit.constraints.countP (·.isNonlinear)
    nNorms := total counts
    maxNormsPerConstraint := counts.max?.getD 0
    nSignals := circuit.nSignals
    nUnused := circuit.nSignals - (circuit.usedSignals.size + 1)
    nInputs := circuit.inputs.size
    nOutputs := circuit.outputs.size }

/-- The figures as a text of several lines. -/
def text (s : Statistics) : String :=
  let nLinear := s.nConstraints - s.nNonlinear
  let nInternal := s.nSignals - (1 + s.nInputs + s.nOutputs)
  String.join [
    s!"Constraints ({s.dialect.name})\n",
    s!"├─ Total: {groupedText s.nConstraints}\n",
    s!"│  ├─ Nonlinear: {groupedText s.nNonlinear}\n",
    s!"│  └─ Linear: {groupedText nLinear}\n",
    s!"└─ Norms: {groupedText s.nNorms} (at most {s.maxNormsPerConstraint} per constraint)\n",
    "\n",
    "Signals\n",
    s!"├─ Total (with constant): {groupedText s.nSignals}\n",
    s!"│  ├─ Inputs: {groupedText s.nInputs}\n",
    s!"│  ├─ Outputs: {groupedText s.nOutputs}\n",
    s!"│  └─ Internal: {groupedText nInternal}\n",
    s!"└─ Unused: {groupedText s.nUnused}\n"]

end Statistics

end CircuitEquiv
