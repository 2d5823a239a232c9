-- SUMMARY: Full equivalences can be inverted and composed, so being equivalent is an equivalence relation.
import CircuitEquiv.Proofs.Circuit.FullEquivalence
import CircuitEquiv.Proofs.Constraint.Matching

/-!
# Composing full equivalences

Renaming keeps rescalings, and two renamings are one. So the bijections of a full equivalence can be
turned round, those of two can be put one after the other, and being equivalent is reflexive, symmetric
and transitive for circuits with reduced coefficients.
-/

namespace CircuitEquiv

namespace FullEquivalence

variable {left middle right : Circuit} {σ σ' τ : Signal → Signal} {κ κ' ρ : Nat → Nat}

/-- The renamed constraint is a rescaling of its image. -/
theorem isRescaling [Fact left.field.modulus.Prime] (h : FullEquivalence left right σ κ)
    (hl : left.IsReduced) (hr : right.IsReduced) {k : Nat} {c : Constraint}
    (hc : left.constraints[k]? = some c) : ∃ d, right.constraints[κ k]? = some d ∧
      (c.rename (signalRenaming left σ)).IsRescaling left.field d := by
  obtain ⟨d, hd, hmultiple⟩ := h.isScalarMultipleOf hl hc
  have hreduced := (hl.constraint hc).rename h.isRenaming
  have hreduced' : d.IsReduced left.field := h.field ▸ hr.constraint hd
  exact ⟨d, hd, (Constraint.isScalarMultipleOf_iff_isRescaling hreduced.coefficients
    hreduced'.coefficients).1 hmultiple⟩

/-- Bijections under which every renamed constraint is a rescaling of its image are a full equivalence. -/
theorem of_isRescaling [Fact left.field.modulus.Prime] (hl : left.IsReduced)
    (field : left.field = right.field) (dialect : left.dialect = right.dialect)
    (signals : Set.BijOn σ (Set.Iio left.nSignals) (Set.Iio right.nSignals))
    (constant : σ constantSignal = constantSignal)
    (role : ∀ s < left.nSignals, right.role (σ s) = left.role s)
    (constraints : Set.BijOn κ (Set.Iio left.nConstraints) (Set.Iio right.nConstraints))
    (hrescaling : ∀ k c, left.constraints[k]? = some c → ∃ d, right.constraints[κ k]? = some d ∧
      (c.rename (signalRenaming left σ)).IsRescaling left.field d) :
    FullEquivalence left right σ κ where
  field := field
  dialect := dialect
  signals := signals
  constant := constant
  role := role
  constraints := constraints
  scalarMultiple k c hc := by
    have hrenaming := isRenaming_of_bijOn signals constant
    obtain ⟨d, hd, h⟩ := hrescaling k c hc
    have hreduced := (hl.constraint hc).rename hrenaming
    exact ⟨_, d, signalMap_eq hrenaming hl hc, hd, (Constraint.isScalarMultipleOf_iff_isRescaling
      hreduced.coefficients (hreduced.rescaling h).coefficients).2 h⟩

protected theorem refl (hl : left.IsProper) : FullEquivalence left left id id := by
  have : Fact left.field.modulus.Prime := ⟨hl.prime⟩
  have hsame : ∀ c : Constraint, c.IsReduced left.field → c.rename (signalRenaming left id) = c := by
    intro c hc
    have hid : signalRenaming left id = id := funext fun s => by simp [signalRenaming]
    have hrenaming : IsRenaming id := ⟨Function.injective_id, rfl⟩
    rw [hid]
    calc c.rename id = (c.rename id).rename id := (Constraint.rename_comp hc hrenaming hrenaming).symm
      _ = c := Constraint.rename_rename hc.hasProperKeys (fun _ _ => rfl) rfl
  refine of_isRescaling hl.reduced rfl rfl (Set.bijOn_id _) rfl (fun _ _ => rfl) (Set.bijOn_id _)
    fun k c hc => ⟨c, hc, ?_⟩
  have hreduced := hl.reduced.constraint hc
  rw [hsame c hreduced]
  exact .refl hreduced.coefficients

/-- The inverse bijections are a full equivalence. -/
protected theorem symm (h : FullEquivalence left right σ κ) (hl : left.IsProper) (hr : right.IsReduced)
    (hσ : Set.InvOn σ' σ (Set.Iio left.nSignals) (Set.Iio right.nSignals))
    (hκ : Set.InvOn κ' κ (Set.Iio left.nConstraints) (Set.Iio right.nConstraints)) :
    FullEquivalence right left σ' κ' := by
  have : Fact left.field.modulus.Prime := ⟨hl.prime⟩
  have : Fact right.field.modulus.Prime := ⟨h.field ▸ hl.prime⟩
  have hsignals : Set.BijOn σ' (Set.Iio right.nSignals) (Set.Iio left.nSignals) :=
    h.signals.symm hσ.symm
  have hconstraints : Set.BijOn κ' (Set.Iio right.nConstraints) (Set.Iio left.nConstraints) :=
    h.constraints.symm hκ.symm
  have hconstant : σ' constantSignal = constantSignal := by
    calc σ' constantSignal = σ' (σ constantSignal) := by rw [h.constant]
      _ = constantSignal := hσ.1 left.nSignals_pos
  have hrenaming := isRenaming_of_bijOn hsignals hconstant
  refine of_isRescaling hr h.field.symm h.dialect.symm hsignals hconstant (fun t ht => ?_) hconstraints
    fun k d hd => ?_
  · rw [← h.role (σ' t) (hsignals.mapsTo ht), hσ.2 ht]
  · -- the constraint that is mapped onto `d`, renamed back from its image
    have hk := Circuit.lt_nConstraints hd
    obtain ⟨c, hc⟩ := Circuit.exists_constraint (hconstraints.mapsTo hk)
    obtain ⟨d', hd', hrescaling⟩ := h.isRescaling hl.reduced hr hc
    rw [hκ.2 hk, hd] at hd'
    cases hd'
    have hreduced := hl.reduced.constraint hc
    have hback : (c.rename (signalRenaming left σ)).rename (signalRenaming right σ') = c := by
      refine Constraint.rename_rename hreduced.hasProperKeys (fun s hs => ?_) ?_
      · have hlt := Circuit.lt_nSignals_of_mem_signals hc hs
        rw [signalRenaming_of_lt hlt, signalRenaming_of_lt (h.signals.mapsTo hlt), hσ.1 hlt]
      · rw [h.isRenaming.constant, hrenaming.constant]
    have hmoved := hrescaling.rename (hreduced.rename h.isRenaming) hrenaming
    rw [hback, h.field] at hmoved
    exact ⟨c, hc, hmoved.symm (h.field ▸ hreduced.coefficients)⟩

theorem signalRenaming_comp (h : FullEquivalence left middle σ κ) (τ : Signal → Signal) :
    signalRenaming middle τ ∘ signalRenaming left σ = signalRenaming left (τ ∘ σ) := by
  funext s
  rw [Function.comp_apply]
  by_cases hs : s < left.nSignals
  · rw [signalRenaming_of_lt hs, signalRenaming_of_lt (h.signals.mapsTo hs), signalRenaming_of_lt hs]
    rfl
  · have hs' : ¬ s < middle.nSignals := h.nSignals_eq ▸ hs
    rw [signalRenaming, signalRenaming, signalRenaming, if_neg hs, if_neg hs', if_neg hs]

/-- Bijections of two full equivalences, one after the other, are a full equivalence. -/
protected theorem trans (h : FullEquivalence left middle σ κ) (h' : FullEquivalence middle right τ ρ)
    (hl : left.IsProper) (hm : middle.IsReduced) (hr : right.IsReduced) :
    FullEquivalence left right (τ ∘ σ) (ρ ∘ κ) := by
  have : Fact left.field.modulus.Prime := ⟨hl.prime⟩
  have : Fact middle.field.modulus.Prime := ⟨h.field ▸ hl.prime⟩
  refine of_isRescaling hl.reduced (h.field.trans h'.field) (h.dialect.trans h'.dialect)
    (h'.signals.comp h.signals) ?_ (fun s hs => ?_) (h'.constraints.comp h.constraints)
    fun k c hc => ?_
  · rw [Function.comp_apply, h.constant, h'.constant]
  · rw [Function.comp_apply, h'.role (σ s) (h.signals.mapsTo hs), h.role s hs]
  · obtain ⟨d, hd, hrescaling⟩ := h.isRescaling hl.reduced hm hc
    obtain ⟨e, he, hrescaling'⟩ := h'.isRescaling hm hr hd
    have hreduced := hl.reduced.constraint hc
    have hmoved := hrescaling.rename (hreduced.rename h.isRenaming) h'.isRenaming
    rw [Constraint.rename_comp hreduced h.isRenaming h'.isRenaming, h.signalRenaming_comp τ] at hmoved
    rw [← h.field] at hrescaling'
    exact ⟨e, he, hmoved.trans hrescaling'⟩

end FullEquivalence

/-! ## Equivalent circuits -/

namespace Circuit.Equivalent

variable {left middle right : Circuit}

protected theorem refl (hl : left.IsProper) : left.Equivalent left := ⟨_, _, .refl hl⟩

protected theorem symm (h : left.Equivalent right) (hl : left.IsProper) (hr : right.IsReduced) :
    right.Equivalent left := by
  obtain ⟨σ, κ, h⟩ := h
  exact ⟨_, _, h.symm hl hr h.signals.invOn_invFunOn h.constraints.invOn_invFunOn⟩

protected theorem trans (h : left.Equivalent middle) (h' : middle.Equivalent right)
    (hl : left.IsProper) (hm : middle.IsReduced) (hr : right.IsReduced) : left.Equivalent right := by
  obtain ⟨σ, κ, h⟩ := h
  obtain ⟨τ, ρ, h'⟩ := h'
  exact ⟨_, _, h.trans h' hl hm hr⟩

end Circuit.Equivalent

end CircuitEquiv
