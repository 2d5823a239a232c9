-- SUMMARY: Circuits with their structural invariants, the checks that establish them, and whole-circuit queries.
import CircuitEquiv.Constraint

/-!
# Circuits

A circuit is a list of constraints of one dialect over the signals below a bound, some of which are
declared as inputs or outputs. The invariants are part of the type; `Circuit.build` checks them and
names the first one that fails.
-/

namespace CircuitEquiv

/-- A circuit. Signals are the numbers below `nSignals`; signal 0 is the constant signal. -/
structure Circuit where
  field : PrimeField
  dialect : Dialect
  nSignals : Nat
  constraints : Array Constraint
  inputs : SortedSet Signal
  outputs : SortedSet Signal
  nSignals_pos : 0 < nSignals
  inputs_declarable : ∀ s ∈ inputs, s ≠ constantSignal ∧ s < nSignals
  outputs_declarable : ∀ s ∈ outputs, s ≠ constantSignal ∧ s < nSignals
  inputs_disjoint_outputs : ∀ s ∈ inputs, s ∉ outputs
  constraints_wellFormed : ∀ c ∈ constraints.toList, c.dialect = dialect ∧
    ∀ s ∈ c.signals, s < nSignals
deriving DecidableEq

/-- The role of a signal, in the order in which parts of a circuit number their signals. -/
inductive SignalRole where
  | constant
  | output
  | input
  | internal
deriving DecidableEq

/-- A normal form of a constraint beside the index of the constraint. -/
structure Norm where
  constraint : Constraint
  origin : Nat
deriving DecidableEq, Inhabited

namespace Circuit

-- ---------------------------------------------------------------------------
-- Building
-- ---------------------------------------------------------------------------

/-- The first of the declared signals that cannot be declared. -/
def declarationFault? (declaration : Declaration) (nSignals : Nat) :
    List Signal → Option CircuitError
  | [] => none
  | s :: rest =>
    if s = constantSignal then some (.constantDeclared declaration)
    else if s ≥ nSignals then some (.declaredOutOfRange declaration s nSignals)
    else declarationFault? declaration nSignals rest

theorem declarationFault?_eq_none {declaration : Declaration} {nSignals : Nat} {l : List Signal}
    (h : declarationFault? declaration nSignals l = none) :
    ∀ s ∈ l, s ≠ constantSignal ∧ s < nSignals := by
  induction l with
  | nil => simp
  | cons s rest ih =>
    rw [declarationFault?] at h
    split at h
    · contradiction
    · rename_i hs
      split at h
      · contradiction
      · rename_i hlt
        intro t ht
        rcases List.mem_cons.1 ht with rfl | ht
        · exact ⟨hs, Nat.lt_of_not_le hlt⟩
        · exact ih h t ht

/-- The first constraint of another dialect or with a signal out of range; of its signals the
largest is named. `index` is the number of the first constraint of the list. -/
def constraintFault? (dialect : Dialect) (nSignals : Nat) (index : Nat) :
    List Constraint → Option CircuitError
  | [] => none
  | c :: rest =>
    if c.dialect ≠ dialect then some (.mixedDialects index dialect c.dialect)
    else
      match (c.signals.filter (· ≥ nSignals)).max? with
      | some s => some (.signalOutOfRange index s nSignals)
      | none => constraintFault? dialect nSignals (index + 1) rest

theorem constraintFault?_eq_none {dialect : Dialect} {nSignals index : Nat} {l : List Constraint}
    (h : constraintFault? dialect nSignals index l = none) :
    ∀ c ∈ l, c.dialect = dialect ∧ ∀ s ∈ c.signals, s < nSignals := by
  induction l generalizing index with
  | nil => simp
  | cons c rest ih =>
    rw [constraintFault?] at h
    split at h
    · contradiction
    · rename_i hc
      split at h
      · contradiction
      · rename_i hmax
        intro d hd
        rcases List.mem_cons.1 hd with rfl | hd
        · refine ⟨Decidable.not_not.1 hc, fun s hs => ?_⟩
          have hempty := List.getLast?_eq_none_iff.1 hmax
          have := List.filter_eq_nil_iff.1 hempty s hs
          simpa using this
        · exact ih h d hd

/-- One past the largest signal that is declared or occurs; a count is a word of 64 bits. -/
def impliedSignalCount (constraints : List Constraint) (inputs outputs : List Signal) : Nat :=
  let occurring := constraints.filterMap fun c => c.signals.max?
  (((occurring ++ inputs ++ outputs).max?.getD constantSignal) + 1) % UInt64.size

/-- The circuit of the given parts, or the first of their faults: an undeclarable input, an
undeclarable output, the least signal declared as both, a constraint of another dialect or out of
range. Without a signal count, one past the largest signal is taken. -/
def build (field : PrimeField) (dialect : Dialect) (nSignals? : Option Nat)
    (inputs outputs : List Signal) (constraints : List Constraint) :
    Except CircuitError Circuit :=
  let nSignals := max (nSignals?.getD (impliedSignalCount constraints inputs outputs)) 1
  match hi : declarationFault? .input nSignals inputs with
  | some fault => .error fault
  | none =>
    match ho : declarationFault? .output nSignals outputs with
    | some fault => .error fault
    | none =>
      let inputSet := SortedSet.ofList inputs
      let outputSet := SortedSet.ofList outputs
      match hd : (inputSet.inter outputSet).min? with
      | some s => .error (.inputOutputOverlap s)
      | none =>
        match hc : constraintFault? dialect nSignals 0 constraints with
        | some fault => .error fault
        | none => .ok {
            field, dialect, nSignals
            constraints := constraints.toArray
            inputs := inputSet
            outputs := outputSet
            nSignals_pos := by omega
            inputs_declarable := fun s hs =>
              declarationFault?_eq_none hi s (SortedSet.mem_ofList.1 hs)
            outputs_declarable := fun s hs =>
              declarationFault?_eq_none ho s (SortedSet.mem_ofList.1 hs)
            inputs_disjoint_outputs := fun s hs ht => by
              have hempty := List.head?_eq_none_iff.1 hd
              have := List.filter_eq_nil_iff.1 hempty s hs
              simp [ht] at this
            constraints_wellFormed := by
              simpa using constraintFault?_eq_none hc }

-- ---------------------------------------------------------------------------
-- Queries
-- ---------------------------------------------------------------------------

variable (circuit : Circuit)

/-- The number of constraints. -/
def nConstraints : Nat := circuit.constraints.size

/-- The role of a signal. -/
def role (s : Signal) : SignalRole :=
  if s = constantSignal then .constant
  else if s ∈ circuit.outputs then .output
  else if s ∈ circuit.inputs then .input
  else .internal

/-- The signals that occur in some constraint. -/
def usedSignals : SortedSet Signal :=
  circuit.constraints.foldl (fun used c => used.union c.signals) SortedSet.empty

/-- For every signal, the ascending indices of the constraints in which it occurs. -/
def occurrences : Array (List Nat) :=
  let pairs := circuit.constraints.toList.zipIdx.flatMap fun (c, i) =>
    c.signals.toList.map fun s => (s, i)
  (pairs.foldl (fun table (s, i) => table.modify s (i :: ·))
    (Array.replicate circuit.nSignals [])).map List.reverse

/-- The normal forms of all constraints; those of one constraint are adjacent and ascending. -/
def normalize : Array Norm :=
  (circuit.constraints.toList.zipIdx.flatMap fun (c, i) =>
    (c.normalize circuit.field).map fun n => ⟨n, i⟩).toArray

/-- Whether the values satisfy every constraint. -/
def isSatisfied (values : List Nat) : Bool :=
  circuit.constraints.all fun c => c.isSatisfied circuit.field values

end Circuit

end CircuitEquiv
