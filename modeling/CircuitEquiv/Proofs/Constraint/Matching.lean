-- SUMMARY: Constraints that match under a map of signals: the relation turned round and composed.
import CircuitEquiv.Proofs.Constraint.Canonical
import CircuitEquiv.Proofs.Constraint.Renaming

/-!
# Matching constraints

A constraint matches another one under a map of signals when the checked renaming succeeds and its result
is a scalar multiple of the other constraint. The map need not be injective beyond the signals that occur,
but some renaming agrees with it there. So a match can be turned round, and two matches can be put one
after the other.
-/

namespace CircuitEquiv

/-! ## Renamings from injective maps -/

/-- A map of some signals to distinct signals below a bound, none of them the constant one, agrees with a
renaming that sends the others beyond the bound. -/
theorem exists_isRenaming_of_lt {S : Set Signal} {f : Signal → Signal} {n : Nat}
    (h0 : constantSignal ∉ S) (hlt : ∀ s ∈ S, f s < n) (hne : ∀ s ∈ S, f s ≠ constantSignal)
    (hinj : Set.InjOn f S) :
    ∃ g, IsRenaming g ∧ (∀ s ∈ S, g s = f s) ∧ ∀ s ∉ S, g s < n → s = constantSignal := by
  classical
  -- the other signals are spread out, so that zero stays and all others exceed the images
  have hspread : Function.Injective fun s : Signal => s * (n + 1) :=
    fun s t heq => Nat.eq_of_mul_eq_mul_right n.succ_pos heq
  have hbeyond : ∀ t : Signal, t * (n + 1) < n → t = constantSignal := fun t ht => by
    rcases Nat.eq_zero_or_pos t with rfl | hpos
    · rfl
    · exact absurd ((Nat.le_mul_of_pos_left _ hpos).trans ht.le) (Nat.not_succ_le_self n)
  have hoff : ∀ s ∈ S, ∀ t ∉ S, f s ≠ t * (n + 1) := fun s hs t _ heq => by
    have ht : t = constantSignal := hbeyond t (heq ▸ hlt s hs)
    rw [ht, constantSignal, Nat.zero_mul] at heq
    exact hne s hs heq
  refine ⟨S.piecewise f fun s => s * (n + 1),
    ⟨(Set.injective_piecewise_iff S).2 ⟨hinj, hspread.injOn, hoff⟩, ?_⟩,
    fun s hs => Set.piecewise_eq_of_mem S f _ hs, fun s hs hsn => ?_⟩
  · rw [Set.piecewise_eq_of_notMem S f _ h0]
    exact Nat.zero_mul _
  · rw [Set.piecewise_eq_of_notMem S f _ hs] at hsn
    exact hbeyond s hsn

/-- A map of finitely many signals to distinct signals, none of them the constant one, agrees with a
renaming. -/
theorem exists_isRenaming_of_injOn {S : Set Signal} {f : Signal → Signal} (hS : S.Finite)
    (h0 : constantSignal ∉ S) (hne : ∀ s ∈ S, f s ≠ constantSignal) (hinj : Set.InjOn f S) :
    ∃ g, IsRenaming g ∧ ∀ s ∈ S, g s = f s := by
  obtain ⟨n, hn⟩ := (hS.image f).bddAbove
  obtain ⟨g, hg, hagree, -⟩ := exists_isRenaming_of_lt h0
    (fun s hs => Nat.lt_succ_of_le (hn ⟨s, hs, rfl⟩)) hne hinj
  exact ⟨g, hg, hagree⟩

namespace Constraint

variable {F : PrimeField} {f g : Signal → Signal} {c d e : Constraint}

/-- Renaming keeps rescalings. -/
theorem IsRescaling.rename [Fact F.modulus.Prime] (h : c.IsRescaling F d) (hc : c.IsReduced F)
    (hf : IsRenaming f) : (c.rename f).IsRescaling F (d.rename f) := by
  have hd : d.IsReduced F := hc.rescaling h
  obtain ⟨n, hn⟩ := List.exists_mem_of_ne_nil _ (normalize_ne_nil hc.coefficients)
  have hn' : n ∈ d.normalize F := normalize_rescaling hc.coefficients h ▸ hn
  exact isRescaling_of_mem_normalize_of_mem_normalize (hc.rename hf).coefficients
    (hd.rename hf).coefficients ((mem_normalize_rename hc hf).2 ⟨n, hn, rfl⟩)
    ((mem_normalize_rename hd hf).2 ⟨n, hn', rfl⟩)

/-! ## Matches -/

/-- The constraint with its signals renamed is a scalar multiple of the other one. -/
def MatchesUnder (c : Constraint) (F : PrimeField) (f : Signal → Signal) (d : Constraint) : Prop :=
  ∃ renamed, c.signalMap f = .ok renamed ∧ renamed.isScalarMultipleOf F d = true

theorem finite_signals (c : Constraint) : {s | s ∈ c.signals}.Finite :=
  (List.finite_toSet c.signals.toList).subset fun _ hs => hs

namespace MatchesUnder

/-- Only the values on the signals that occur matter. -/
theorem congr (h : c.MatchesUnder F f d) (hagree : ∀ s ∈ c.signals, g s = f s) :
    c.MatchesUnder F g d := by
  obtain ⟨renamed, hrenamed, hmultiple⟩ := h
  exact ⟨renamed, signalMap_congr hagree hrenamed, hmultiple⟩

variable [Fact F.modulus.Prime]

theorem of_isRescaling (hc : c.IsReduced F) (hg : IsRenaming g) (hagree : ∀ s ∈ c.signals, f s = g s)
    (h : (c.rename g).IsRescaling F d) : c.MatchesUnder F f d := by
  have hreduced := hc.rename hg
  exact ⟨c.rename g, signalMap_of_agree hg (fun s hs => hc.ne_constant_of_mem_signals hs) hagree,
    (isScalarMultipleOf_iff_isRescaling hreduced.coefficients (hreduced.rescaling h).coefficients).2 h⟩

/-- Behind a match stands a renaming that makes the constraint a rescaling of the other one. -/
theorem exists_isRescaling (h : c.MatchesUnder F f d) (hc : c.IsReduced F) (hd : d.IsReduced F) :
    ∃ g, IsRenaming g ∧ (∀ s ∈ c.signals, g s = f s) ∧ (c.rename g).IsRescaling F d := by
  obtain ⟨renamed, hrenamed, hmultiple⟩ := h
  obtain ⟨hne, hinj, -⟩ := signalMap_eq_ok_iff.1 hrenamed
  obtain ⟨g, hg, hagree⟩ := exists_isRenaming_of_injOn c.finite_signals
    (fun h0 => hc.ne_constant_of_mem_signals h0 rfl) hne hinj
  rw [signalMap_of_agree hg (fun s hs => hc.ne_constant_of_mem_signals hs)
    fun s hs => (hagree s hs).symm] at hrenamed
  cases hrenamed
  exact ⟨g, hg, hagree,
    (isScalarMultipleOf_iff_isRescaling (hc.rename hg).coefficients hd.coefficients).1 hmultiple⟩

/-- The signals of the other constraint are the images of the signals that occur. -/
theorem mem_signals (h : c.MatchesUnder F f d) (hc : c.IsReduced F) (hd : d.IsReduced F) {t : Signal} :
    t ∈ d.signals ↔ ∃ s ∈ c.signals, f s = t := by
  obtain ⟨g, hg, hagree, hrescaling⟩ := h.exists_isRescaling hc hd
  rw [signals_of_isRescaling hrescaling, mem_signals_rename hg]
  constructor
  · rintro ⟨s, hs, rfl⟩
    exact ⟨s, hs, (hagree s hs).symm⟩
  · rintro ⟨s, hs, rfl⟩
    exact ⟨s, hs, hagree s hs⟩

/-- A match turned round, under a map that undoes the first one on the signals that occur. -/
protected theorem symm (h : c.MatchesUnder F f d) (hc : c.IsReduced F) (hd : d.IsReduced F)
    (hback : ∀ s ∈ c.signals, g (f s) = s) : d.MatchesUnder F g c := by
  obtain ⟨f', hf', hagree, hrescaling⟩ := h.exists_isRescaling hc hd
  have himage : ∀ t ∈ d.signals, ∃ s ∈ c.signals, f s = t := fun t ht => (h.mem_signals hc hd).1 ht
  obtain ⟨g', hg', hagree'⟩ : ∃ g', IsRenaming g' ∧ ∀ t ∈ d.signals, g' t = g t := by
    refine exists_isRenaming_of_injOn d.finite_signals
      (fun h0 => hd.ne_constant_of_mem_signals h0 rfl) (fun t ht => ?_) fun t ht u hu heq => ?_
    · obtain ⟨s, hs, rfl⟩ := himage t ht
      rw [hback s hs]
      exact hc.ne_constant_of_mem_signals hs
    · obtain ⟨s, hs, rfl⟩ := himage t ht
      obtain ⟨s', hs', rfl⟩ := himage u hu
      rw [hback s hs, hback s' hs'] at heq
      rw [heq]
  have hrestored : (c.rename f').rename g' = c := by
    refine rename_rename hc.hasProperKeys (fun s hs => ?_) (by rw [hf'.constant, hg'.constant])
    rw [hagree s hs, hagree' _ ((h.mem_signals hc hd).2 ⟨s, hs, rfl⟩), hback s hs]
  have hmoved := hrescaling.rename (hc.rename hf') hg'
  rw [hrestored] at hmoved
  exact of_isRescaling hd hg' (fun t ht => (hagree' t ht).symm) (hmoved.symm hc.coefficients)

/-- Two matches, one after the other. -/
protected theorem trans (h : c.MatchesUnder F f d) (h' : d.MatchesUnder F g e) (hc : c.IsReduced F)
    (hd : d.IsReduced F) (he : e.IsReduced F) : c.MatchesUnder F (g ∘ f) e := by
  obtain ⟨f', hf', hagree, hrescaling⟩ := h.exists_isRescaling hc hd
  obtain ⟨g', hg', hagree', hrescaling'⟩ := h'.exists_isRescaling hd he
  have hmoved := hrescaling.rename (hc.rename hf') hg'
  rw [rename_comp hc hf' hg'] at hmoved
  refine of_isRescaling hc (hg'.comp hf') (fun s hs => ?_) (hmoved.trans hrescaling')
  rw [Function.comp_apply, Function.comp_apply, hagree s hs,
    hagree' _ ((h.mem_signals hc hd).2 ⟨s, hs, rfl⟩)]

end MatchesUnder

end Constraint

end CircuitEquiv
