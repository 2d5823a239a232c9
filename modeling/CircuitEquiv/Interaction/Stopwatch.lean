-- SUMMARY: Interactions that record how long their stages took.
import CircuitEquiv.Data.SortedMap
import CircuitEquiv.Interaction

/-!
# Stopwatches

The time of every stage that was entered, also of one that failed; the time of a stage that is
entered again is added up.
-/

namespace CircuitEquiv

/-- The time spent in each stage, in nanoseconds. -/
abbrev Timings (κ : Type) [Ord κ] := SortedMap κ Nat

/-- Interactions that record times. -/
abbrev Timed (κ : Type) [Ord κ] := StateT (Timings κ) Interaction

/-- Records the time of an interaction under a stage. The interaction is suspended, so that working
it out counts as well. -/
def timed {κ α : Type} [Ord κ] [Std.TransOrd κ] (stage : κ) (x : Unit → Interaction α) :
    Timed κ α := fun timings => do
  let start ← Interaction.clock
  let result ← x ()
  let finish ← Interaction.clock
  return (result, timings.upsert stage fun old => old.getD 0 + (finish - start))

end CircuitEquiv
