-- SUMMARY: Time budgets that are checked between the steps of a comparison.
import CircuitEquiv.Equivalence.Error
import CircuitEquiv.Interaction

/-!
# Deadlines

A deadline is a moment, or none. It has passed from that moment on, so a budget of nothing is used
up at once. Without a deadline the clock is not read.
-/

namespace CircuitEquiv

/-- Interactions that can fail. -/
abbrev Attempt (ε : Type) := ExceptT ε Interaction

/-- The moment at which a time budget is used up. -/
structure Deadline where
  moment : Option Nat

namespace Deadline

/-- No deadline. -/
def never : Deadline := ⟨none⟩

/-- The deadline at the end of a budget that begins now. -/
def after : Option Nat → Interaction Deadline
  | none => return never
  | some budget => return ⟨some ((← Interaction.clock) + budget)⟩

/-- Whether the deadline has passed. -/
def isExpired (d : Deadline) : Interaction Bool :=
  match d.moment with
  | none => return false
  | some moment => return decide (moment ≤ (← Interaction.clock))

/-- Fails once the deadline has passed. -/
def check (d : Deadline) (phase : Phase) : Attempt EquivalenceError Unit := do
  if ← d.isExpired then throw (.timeout phase none)

end Deadline

end CircuitEquiv
