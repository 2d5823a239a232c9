-- SUMMARY: A full equivalence carries the solutions of one circuit over to the other.
import CircuitEquiv.Proofs.Circuit.FullEquivalence
import CircuitEquiv.Proofs.Constraint.Satisfaction

/-!
# Satisfaction of circuits

Values for the right signals satisfy the right circuit exactly when, read through a full equivalence,
they satisfy the left one: every constraint has the solutions of its image, and every right constraint
is an image.
-/

namespace CircuitEquiv

variable {left right circuit : Circuit} {F : PrimeField} {values : List Nat}

/-- Where all signals have values, a circuit is satisfied when all equations hold. -/
theorem Circuit.isSatisfied_iff (h : circuit.IsProper) (hF : circuit.field = F)
    (hvalues : values.length = circuit.nSignals) : circuit.isSatisfied values = true ↔
      ∀ (k : Nat) (c : Constraint), circuit.constraints[k]? = some c →
        c.HoldsAt (F.assignment values) := by
  subst hF
  have : Fact circuit.field.modulus.Prime := ⟨h.prime⟩
  have hconstraint : ∀ (k : Nat) (c : Constraint), circuit.constraints[k]? = some c →
      (c.isSatisfied circuit.field values = true ↔ c.HoldsAt (circuit.field.assignment values)) :=
    fun k c hc => Constraint.isSatisfied_iff (h.reduced.constraint hc).coefficients
      (hvalues ▸ circuit.nSignals_pos) fun s hs => hvalues ▸ lt_nSignals_of_mem_signals hc hs
  rw [isSatisfied, Array.all_eq_true]
  constructor
  · intro hall k c hc
    obtain ⟨hk, rfl⟩ := Array.getElem?_eq_some_iff.1 hc
    exact (hconstraint k _ hc).1 (hall k hk)
  · intro hall k hk
    have hc := Array.getElem?_eq_getElem hk
    exact (hconstraint k _ hc).2 (hall k _ hc)

/-- The values of the left signals that a mapping reads off those of the right ones. -/
def Mapping.readValues (left : Circuit) (m : Mapping) (values : List Nat) : List Nat :=
  (List.range left.nSignals).map fun s => values.getD (m.signals.getD s constantSignal) 0

/-- The values that a full equivalence reads off are the right ones seen through its renaming. -/
theorem assignment_readValues {m : Mapping} (h : m.IsFullEquivalence left right)
    (hvalues : values.length = right.nSignals) (s : Signal) :
    F.assignment (m.readValues left values) s = F.assignment values
      (FullEquivalence.signalRenaming left (fun s => m.signals.getD s constantSignal) s) := by
  unfold PrimeField.assignment Mapping.readValues FullEquivalence.signalRenaming
  by_cases hs : s < left.nSignals
  · simp [hs]
  · have hout : values.length ≤ s := by
      rw [hvalues, ← h.acts.nSignals_eq]
      exact Nat.le_of_not_lt hs
    simp [hs, hout]

/-- A full equivalence reads solutions off exactly the solutions. -/
theorem Mapping.IsFullEquivalence.isSatisfied_eq {m : Mapping} (h : m.IsFullEquivalence left right)
    (hl : left.IsProper) (hr : right.IsProper) (hvalues : values.length = right.nSignals) :
    right.isSatisfied values = left.isSatisfied (m.readValues left values) := by
  have : Fact left.field.modulus.Prime := ⟨hl.prime⟩
  have hconstraint : ∀ (k : Nat) (c : Constraint), left.constraints[k]? = some c → ∃ d,
      right.constraints[m.constraints.getD k 0]? = some d ∧
        (d.HoldsAt (left.field.assignment values) ↔
          c.HoldsAt (left.field.assignment (m.readValues left values))) := fun k c hc => by
    obtain ⟨d, hd, hmultiple⟩ := h.acts.isScalarMultipleOf hl.reduced hc
    have hcred := hl.reduced.constraint hc
    refine ⟨d, hd, ?_⟩
    rw [Constraint.holdsAt_of_isScalarMultipleOf (hcred.rename h.acts.isRenaming).coefficients
      (h.acts.field ▸ (hr.reduced.constraint hd).coefficients) hmultiple,
      Constraint.holdsAt_rename hcred.hasProperKeys h.acts.isRenaming]
    simp only [← assignment_readValues h hvalues]
  rw [Bool.eq_iff_iff, Circuit.isSatisfied_iff hr h.acts.field.symm hvalues,
    Circuit.isSatisfied_iff hl rfl (by simp [readValues])]
  constructor
  · intro hall k c hc
    obtain ⟨d, hd, hholds⟩ := hconstraint k c hc
    exact hholds.1 (hall _ d hd)
  · intro hall j d hd
    obtain ⟨k, hk, rfl⟩ := h.acts.constraints.surjOn (Circuit.lt_nConstraints hd)
    obtain ⟨c, hc⟩ := Circuit.exists_constraint hk
    obtain ⟨d', hd', hholds⟩ := hconstraint k c hc
    obtain rfl : d = d' := Option.some.inj (hd.symm.trans hd')
    exact hholds.2 (hall k c hc)

end CircuitEquiv
