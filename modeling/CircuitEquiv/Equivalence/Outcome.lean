-- SUMMARY: The verdict of a comparison with its exit code and explanation.
import CircuitEquiv.Equivalence.Error
import CircuitEquiv.Interaction.Stopwatch

/-!
# Outcomes
-/

namespace CircuitEquiv

/-- The verdict of a comparison. -/
inductive Outcome where
  | equivalent (mapping : Mapping)
  | notEquivalent (difference : Difference)
  /-- The time budget ran out; the best mapping found so far comes along. -/
  | timeout (phase : Phase) (best : Option Mapping)

namespace Outcome

/-- The exit code that reports an outcome. -/
def exitCode : Outcome → Nat
  | equivalent _ => 0
  | notEquivalent _ => 1
  | timeout .. => 2

/-- The name of an outcome. -/
def name : Outcome → String
  | equivalent _ => "equivalent"
  | notEquivalent _ => "not_equivalent"
  | timeout .. => "timeout"

/-- The explanation of an outcome. -/
def explanation : Outcome → String
  | equivalent m => s!"{m.signals.size} signals and {m.constraints.size} constraints mapped"
  | notEquivalent difference => difference.message
  | timeout phase (some m) =>
    s!"time budget exhausted during {phase.name} with {m.constraints.size} constraints mapped"
  | timeout phase none => s!"time budget exhausted during {phase.name}"

/-- The mapping that comes with an outcome. -/
def mapping? : Outcome → Option Mapping
  | equivalent m => some m
  | notEquivalent _ => none
  | timeout _ best => best

/-- The outcome of a search. Differences and used up budgets are verdicts; other errors remain. -/
def ofResult : Except EquivalenceError Mapping → Except EquivalenceError Outcome
  | .ok m => .ok (equivalent m)
  | .error (.notEquivalent difference) => .ok (notEquivalent difference)
  | .error (.timeout phase best) => .ok (timeout phase best)
  | .error e => .error e

end Outcome

/-- A verdict with the time spent in each phase. -/
structure Comparison where
  outcome : Outcome
  timings : Timings Phase

end CircuitEquiv
