-- SUMMARY: Cutting a group of constraints out of a circuit as a circuit of its own.
import CircuitEquiv.Mapping

/-!
# Sub-circuits

A group of constraints is renumbered from scratch: the constant signal, the outputs of the group,
its inputs that are no outputs, and the other signals that occur, each in their old order. The lists
of old signals and constraints lead back to the numbering of the whole circuit.
-/

namespace CircuitEquiv

/-- A circuit cut out of a larger one. -/
structure SubCircuit where
  circuit : Circuit
  /-- The old signal of each signal. -/
  signals : List Signal
  /-- The old constraint of each constraint. -/
  constraints : List Nat

namespace SubCircuit

/-- The old signals of a group of constraints with the given inputs and outputs, in their new
order. -/
def signalOrder (circuit : Circuit) (constraints : List Nat) (inputs outputs : SortedSet Signal) :
    List Signal :=
  let used := SortedSet.ofList (constraints.flatMap fun k =>
    (circuit.constraints[k]?.getD default).signals.toList)
  constantSignal :: outputs.toList ++ (inputs.sdiff outputs).toList ++
    ((used.sdiff inputs).sdiff outputs).toList

/-- Cuts a group of constraints out of a circuit. -/
def extract (circuit : Circuit) (constraints : List Nat) (inputs outputs : SortedSet Signal) :
    Except CircuitError SubCircuit := do
  let signals := signalOrder circuit constraints inputs outputs
  let places := SortedMap.ofList signals.zipIdx
  let renamed ← constraints.mapM fun k =>
    (circuit.constraints[k]?.getD default).signalMap fun s => places.getD s signals.length
  let nInputs := (inputs.sdiff outputs).size
  let sub ← Circuit.build circuit.field circuit.dialect (some signals.length)
    ((List.range nInputs).map (outputs.size + 1 + ·)) ((List.range outputs.size).map (1 + ·)) renamed
  return ⟨sub, signals, constraints⟩

/-- The old signal of a signal. -/
def originalSignal (sub : SubCircuit) (s : Signal) : Signal := sub.signals[s]?.getD constantSignal

/-- The old constraint of a constraint. -/
def originalConstraint (sub : SubCircuit) (k : Nat) : Nat := sub.constraints[k]?.getD 0

/-- A mapping between two sub-circuits in the old numbering. -/
def undoMapping (sub target : SubCircuit) (m : Mapping) : Mapping where
  signals := SortedMap.ofList (m.signals.entries.map fun (l, r) =>
    (sub.originalSignal l, target.originalSignal r))
  constraints := SortedMap.ofList (m.constraints.entries.map fun (l, r) =>
    (sub.originalConstraint l, target.originalConstraint r))

end SubCircuit

end CircuitEquiv
