-- SUMMARY: A matching of the signals and norms of two circuits is a full equivalence of them.
import CircuitEquiv.Proofs.Equivalence.Signals
import CircuitEquiv.Proofs.Matching.NormMatching

/-!
# From matchings to equivalences

The signal pairs of a matching are the graph of a bijection of signals, its norm pairs the graph of a
bijection of norms. Norms that are matched agree under the renaming of signals, so the matching gives
a full equivalence.
-/

namespace CircuitEquiv.Residual.IsSolution

variable {left right : Circuit} {res : Residual} {S : PairVariable → Prop}
  (h : res.IsSolution left right S)
  (hres : res.refinement.IsBalanced left res.leftNorms right res.rightNorms)

include h hres

/-! ## Signals -/

/-- The signal pairs are the graph of a map that fixes the constant signal. -/
theorem exists_signalMap : ∃ σ : Signal → Signal, σ constantSignal = constantSignal ∧
    ∀ s t, S (.signal s t) ↔ s ≠ constantSignal ∧ s < left.nSignals ∧ σ s = t := by
  have himage : ∀ s, ∃ t, (s = constantSignal → t = constantSignal) ∧
      (s ≠ constantSignal → s < left.nSignals → S (.signal s t)) := by
    intro s
    by_cases hs : s ≠ constantSignal ∧ s < left.nSignals
    · obtain ⟨t, hpair⟩ := exists_isSignalPair_left hres hs.2 hs.1
      obtain ⟨t', ht'⟩ := h.isMatching.left_total s t hpair
      exact ⟨t', fun h0 => absurd h0 hs.1, fun _ _ => ht'⟩
    · exact ⟨constantSignal, fun _ => rfl, fun hne hlt => absurd ⟨hne, hlt⟩ hs⟩
  choose σ hconstant hσ using himage
  refine ⟨σ, hconstant _ rfl, fun s t => ⟨fun hst => ?_, fun ⟨hne, hlt, heq⟩ => heq ▸ hσ s hne hlt⟩⟩
  have hpair := h.within s t hst
  exact ⟨hpair.left_ne, hpair.left_lt,
    h.isMatching.functional s _ t (hσ s hpair.left_ne hpair.left_lt) hst⟩

variable {σ : Signal → Signal} (h0 : σ constantSignal = constantSignal)
  (hσ : ∀ s t, S (.signal s t) ↔ s ≠ constantSignal ∧ s < left.nSignals ∧ σ s = t)

include h0 hσ

theorem bijOn_signalMap : Set.BijOn σ (Set.Iio left.nSignals) (Set.Iio right.nSignals) := by
  have hpair : ∀ s < left.nSignals, s ≠ constantSignal → res.IsSignalPair left right s (σ s) :=
    fun s hs hne => h.within s _ ((hσ s _).2 ⟨hne, hs, rfl⟩)
  refine ⟨fun s hs => ?_, fun s hs s' hs' heq => ?_, fun t ht => ?_⟩
  · by_cases hne : s = constantSignal
    · rw [hne, h0]
      exact right.nSignals_pos
    · exact (hpair s hs hne).right_lt
  · by_cases hne : s = constantSignal
    · by_cases hne' : s' = constantSignal
      · rw [hne, hne']
      · rw [hne, h0] at heq
        exact absurd heq.symm (hpair s' hs' hne').right_ne
    · by_cases hne' : s' = constantSignal
      · rw [hne', h0] at heq
        exact absurd heq (hpair s hs hne).right_ne
      · exact h.isMatching.injective s s' (σ s) ((hσ s _).2 ⟨hne, hs, rfl⟩)
          ((hσ s' _).2 ⟨hne', hs', heq.symm⟩)
  · by_cases hne : t = constantSignal
    · exact ⟨constantSignal, left.nSignals_pos, by rw [h0, hne]⟩
    · obtain ⟨s, hst⟩ := exists_isSignalPair_right hres ht hne
      obtain ⟨s', hs'⟩ := h.isMatching.right_total s t hst
      obtain ⟨-, hlt, heq⟩ := (hσ s' t).1 hs'
      exact ⟨s', hlt, heq⟩

theorem role_signalMap {s : Signal} (hs : s < left.nSignals) : right.role (σ s) = left.role s := by
  by_cases hne : s = constantSignal
  · rw [hne, h0, Circuit.role_eq_constant_iff.2 rfl, Circuit.role_eq_constant_iff.2 rfl]
  · exact ((h.within s _ ((hσ s _).2 ⟨hne, hs, rfl⟩)).role hres).symm

omit h0 hσ

/-! ## Norms -/

theorem exists_left_norm {l : Nat} (hl : l < res.leftNorms.size) : ∃ r, S (.norm l r) := by
  obtain ⟨m, hm, hlm⟩ := (isPartition_normClasses hres).left_exists l hl
  obtain ⟨r, -, hS⟩ := (h.isMatched m hm).left_exists l hlm
  exact ⟨r, hS⟩

theorem exists_right_norm {r : Nat} (hr : r < res.rightNorms.size) : ∃ l, S (.norm l r) := by
  obtain ⟨m, hm, hrm⟩ := (isPartition_normClasses hres).right_exists r hr
  obtain ⟨l, -, hS⟩ := (h.isMatched m hm).right_exists r hrm
  exact ⟨l, hS⟩

variable (hleft : res.leftNorms = left.normalize) (hright : res.rightNorms = right.normalize)
  (hl : left.IsProper) (hr : right.IsReduced) (hfield : left.field = right.field)

include hleft hright hl hr hfield

/-- The norm pairs match the norms. -/
theorem normMatching {σ : Signal → Signal} (h0 : σ constantSignal = constantSignal)
    (hσ : ∀ s t, S (.signal s t) ↔ s ≠ constantSignal ∧ s < left.nSignals ∧ σ s = t) :
    NormMatching left right (FullEquivalence.signalRenaming left σ) fun l r => S (.norm l r) := by
  have hpartition := isPartition_normClasses hres
  refine .of_shapes (FullEquivalence.isRenaming_of_bijOn (h.bijOn_signalMap hres h0 hσ) h0) hl hr
    hfield (fun l r r' hS hS' => ?_) (fun l l' r hS hS' => ?_) (fun l r hS => ?_)
    (hleft ▸ hright ▸ h.siblings)
  · obtain ⟨m, hm, hlm, -⟩ := h.norms l r hS
    exact (h.isMatched m hm).left_unique l hlm r r' hS hS'
  · obtain ⟨m, hm, -, hrm⟩ := h.norms l r hS
    exact (h.isMatched m hm).right_unique r hrm l l' hS hS'
  · obtain ⟨m, hm, hlm, hrm⟩ := h.norms l r hS
    have hn := Array.getElem?_eq_getElem (hleft ▸ hpartition.left_lt m hm l hlm)
    have hn' := Array.getElem?_eq_getElem (hright ▸ hpartition.right_lt m hm r hrm)
    obtain ⟨isCandidate, shape, hshape, hholds⟩ := (h.isMatched m hm).shape l hlm r hS
    rw [leftNorm, rightNorm, hleft, hright, hn, hn', Option.getD_some, Option.getD_some] at hshape
    refine ⟨_, _, hn, hn', isCandidate, shape, hshape, hholds.mono fun s t hst => ?_⟩
    obtain ⟨-, hslt, heq⟩ := (hσ s t).1 hst
    rw [FullEquivalence.signalRenaming_of_lt hslt, heq]

/-- A matching of the signals and norms is a full equivalence, and it is the only one with these
pairs. -/
theorem exists_fullEquivalence (hdialect : left.dialect = right.dialect) :
    ∃ σ κ, FullEquivalence left right σ κ ∧
      (∀ s t, S (.signal s t) ↔ s ≠ constantSignal ∧ s < left.nSignals ∧ σ s = t) ∧
      (∀ l r, S (.norm l r) →
        κ (Draft.originOf res.leftNorms l) = Draft.originOf res.rightNorms r) ∧
      ∀ l < res.leftNorms.size, ∃ r, S (.norm l r) := by
  obtain ⟨σ, h0, hσ⟩ := h.exists_signalMap hres
  have hmatching := h.normMatching hres hleft hright hl hr hfield h0 hσ
  obtain ⟨κ, hκ⟩ := hmatching.exists_constraintMap
  have htotal : ∀ l < left.normalize.size, ∃ r, S (.norm l r) :=
    fun l hlt => h.exists_left_norm hres (hleft ▸ hlt)
  have hbij := hmatching.bijOn_constraintMap hκ hl hfield htotal hr
    fun r hlt => h.exists_right_norm hres (hright ▸ hlt)
  refine ⟨σ, κ, hmatching.fullEquivalence hκ hl hfield htotal rfl hdialect
    (h.bijOn_signalMap hres h0 hσ) h0 (fun s hs => h.role_signalMap hres h0 hσ hs) hbij, hσ, ?_,
    hleft ▸ htotal⟩
  rw [hleft, hright]
  exact hκ

end CircuitEquiv.Residual.IsSolution
