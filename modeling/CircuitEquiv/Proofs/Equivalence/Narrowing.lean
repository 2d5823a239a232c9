-- SUMMARY: The pairs that a class can still be matched by, and that narrowing never removes a pair of an equivalence.
import CircuitEquiv.Proofs.Data.Failure
import CircuitEquiv.Proofs.Equivalence.Classes
import CircuitEquiv.Proofs.Matching.PairShape
import CircuitEquiv.Proofs.Refinement.Invariance

/-!
# Narrowing

A class is narrowed by the norm pairs that some signal map within the candidates can match. The norm
pairs of an equivalence are always among them, so its signal pairs stay, and no member of a class is
ever without a partner.
-/

namespace CircuitEquiv.Residual

variable {res : Residual} {c c' : Candidates} {m : ClassMembers}
  {pairs : List ((Nat × Nat) × PairShape)}

/-! ## Feasible pairs -/

/-- The norm pairs of a class that can be matched, with their shapes. -/
def candidatePairs (res : Residual) (c : Candidates) (m : ClassMembers) :
    List ((Nat × Nat) × PairShape) :=
  m.left.flatMap fun l => m.right.filterMap fun r =>
    (PairShape.ofNorms? c.isLive (res.leftNorm l) (res.rightNorm r)).map fun shape => ((l, r), shape)

theorem mem_candidatePairs {l r : Nat} {shape : PairShape} :
    ((l, r), shape) ∈ res.candidatePairs c m ↔ l ∈ m.left ∧ r ∈ m.right ∧
      PairShape.ofNorms? c.isLive (res.leftNorm l) (res.rightNorm r) = some shape :=
  PairShape.mem_shapedPairs

theorem nodup_map_candidatePairs (hleft : m.left.Nodup) (hright : m.right.Nodup) :
    ((res.candidatePairs c m).map (·.1)).Nodup := PairShape.nodup_map_shapedPairs hleft hright

theorem feasiblePairs_eq (res : Residual) (c : Candidates) (m : ClassMembers) :
    res.feasiblePairs c m =
      match m.left.find? fun l => !(res.candidatePairs c m).any (·.1.1 = l),
        m.right.find? fun r => !(res.candidatePairs c m).any (·.1.2 = r) with
      | some l, _ => .error (.noFeasiblePartner .left l)
      | none, some r => .error (.noFeasiblePartner .right r)
      | none, none => .ok (res.candidatePairs c m) := rfl

theorem find?_eq_none_iff {members : List Nat} {side : (Nat × Nat) × PairShape → Nat} :
    (members.find? fun x => !pairs.any fun p => side p = x) = none ↔
      ∀ x ∈ members, ∃ p ∈ pairs, side p = x := by
  simp [List.find?_eq_none]

/-- A class is feasible when every member has a partner. -/
theorem feasiblePairs_eq_ok_iff :
    res.feasiblePairs c m = .ok pairs ↔ pairs = res.candidatePairs c m ∧
      (∀ l ∈ m.left, ∃ p ∈ pairs, p.1.1 = l) ∧ ∀ r ∈ m.right, ∃ p ∈ pairs, p.1.2 = r := by
  rw [feasiblePairs_eq]
  constructor
  · intro h
    split at h
    · cases h
    · cases h
    · rename_i hleft hright
      cases h
      exact ⟨rfl, find?_eq_none_iff.1 hleft, find?_eq_none_iff.1 hright⟩
  · rintro ⟨rfl, hleft, hright⟩
    rw [find?_eq_none_iff.2 hleft, find?_eq_none_iff.2 hright]

/-! ## Restriction -/

theorem isOver_narrowByNorm {P : Signal → Signal → Prop} (h : c.IsOver P) (l : Nat) :
    (res.narrowByNorm pairs c l).IsOver P := by
  refine foldl_invariant (Q := fun c => Candidates.IsOver c P) (fun c s _ hc => ?_) h
  split
  · exact hc.restrict s _
  · exact hc

/-- Narrowing keeps the pairs of a renaming that meets the shape of some partner of the norm. -/
theorem keeps_narrowByNorm {T : Signal → Signal → Prop} {f : Signal → Signal} (h : c.Keeps T)
    (hT : ∀ s t, T s t → f s = t) {l r : Nat} {shape : PairShape} (hmem : ((l, r), shape) ∈ pairs)
    (hmet : shape.IsMetBy f) : (res.narrowByNorm pairs c l).Keeps T := by
  refine foldl_invariant (Q := fun c => Candidates.Keeps c T) (fun c s _ hc => ?_) h
  split
  · rename_i allowed hallowed
    refine hc.restrict fun t hst => ?_
    have hshape : shape ∈ (pairs.filter (·.1.1 = l)).map (·.2) :=
      List.mem_map.2 ⟨_, List.mem_filter.2 ⟨hmem, by simp⟩, rfl⟩
    have hmeets := PairShape.allows_union hshape (PairShape.allows_allowed? hmet s) allowed hallowed
    rwa [hT s t hst] at hmeets
  · exact hc

theorem narrow_eq (res : Residual) (c : Candidates) (m : ClassMembers) :
    res.narrow c m = res.feasiblePairs c m >>= fun pairs =>
      .ok (m.left.foldl (res.narrowByNorm pairs) c) := rfl

theorem isOver_narrow {P : Signal → Signal → Prop} (h : c.IsOver P) (hok : res.narrow c m = .ok c') :
    c'.IsOver P := by
  rw [narrow_eq, bind_eq_ok_iff] at hok
  obtain ⟨pairs, -, hc'⟩ := hok
  cases hc'
  exact foldl_invariant (Q := fun c => Candidates.IsOver c P)
    (fun c l _ hc => isOver_narrowByNorm hc l) h

end CircuitEquiv.Residual

namespace CircuitEquiv.Candidates

/-! ## Propagation -/

variable {c c' : Candidates} {P T : Signal → Signal → Prop}

theorem propagated_eq (c : Candidates) :
    c.propagated = match c.propagate.2 with
      | none => .ok c.propagate.1
      | some difference => .error difference := by
  unfold propagated
  split <;> simp [*]

theorem propagated_eq_ok_iff :
    c.propagated = .ok c' ↔ c.propagate.2 = none ∧ c' = c.propagate.1 := by
  rw [propagated_eq]
  cases c.propagate.2 <;> simp [eq_comm]

/-- Propagated candidates are about the same pairs, and the sides agree on which are live. -/
theorem isOver_propagated (h : c.IsOver P) (hok : c.propagated = .ok c') : c'.IsOver P := by
  obtain ⟨-, rfl⟩ := propagated_eq_ok_iff.1 hok
  exact (propagates_propagate c).isOver h

theorem isSymmetric_propagated (hok : c.propagated = .ok c') : c'.IsSymmetric := by
  obtain ⟨hnone, rfl⟩ := propagated_eq_ok_iff.1 hok
  have hrun := propagates_propagate c
  rw [hnone] at hrun
  exact isSymmetric_of_step_eq hrun.still_of_none.1

/-- Propagation keeps every matching and finds no difference where there is one. -/
theorem exists_propagated (h : c.Keeps T) (hc : c.IsOver P) (hT : IsMatching P T) :
    ∃ c', c.propagated = .ok c' ∧ c'.Keeps T := by
  obtain ⟨hkept, hnone⟩ := (propagates_propagate c).keeps h hc hT
  exact ⟨_, propagated_eq_ok_iff.2 ⟨hnone, rfl⟩, hkept⟩

end CircuitEquiv.Candidates

namespace CircuitEquiv

/-! ## Equivalences in a residual -/

/-- A bijection of signals and one of norms, as they come from a full equivalence of the circuits that
a residual is about. -/
structure Residual.IsTarget (left right : Circuit) (res : Residual) (σ : Signal → Signal)
    (κ ν : Nat → Nat) : Prop where
  equivalence : FullEquivalence left right σ κ
  norms : Set.BijOn ν (Set.Iio res.leftNorms.size) (Set.Iio res.rightNorms.size)
  image : ∀ l n, res.leftNorms[l]? = some n →
    res.rightNorms[ν l]? = some (FullEquivalence.imageNorm left σ κ n)
  signal_label : ∀ s < left.nSignals,
    res.refinement.signalLabels.label ⟨1, σ s⟩ = res.refinement.signalLabels.label ⟨0, s⟩
  norm_label : ∀ l < res.leftNorms.size,
    res.refinement.normLabels.label ⟨1, ν l⟩ = res.refinement.normLabels.label ⟨0, l⟩

/-- The pairs that a bijection of signals and one of norms match. -/
def Residual.Matches (left : Circuit) (res : Residual) (σ : Signal → Signal) (ν : Nat → Nat) :
    PairVariable → Prop
  | .norm l r => l < res.leftNorms.size ∧ ν l = r
  | .signal s t => s ≠ constantSignal ∧ s < left.nSignals ∧ σ s = t

namespace Residual

variable {left right : Circuit} {res : Residual} {σ : Signal → Signal} {κ ν : Nat → Nat}

/-- Refinement finds no difference between circuits that are equivalent. -/
theorem exists_ofCircuits (h : FullEquivalence left right σ κ) (hl : left.IsProper)
    (hr : right.IsReduced) : ∃ res, ofCircuits left right = .ok res := by
  have : Fact left.field.modulus.Prime := ⟨hl.prime⟩
  obtain ⟨ν, hν, himage⟩ := h.exists_normBijection hl.reduced hr
  obtain ⟨r, hpair, -⟩ := Refinement.ofGraphs_agrees (h.isIsomorphism hl.reduced hν himage)
  replace hpair : Refinement.pair left left.normalize right right.normalize = .ok r := hpair
  refine ⟨⟨left.normalize, right.normalize, r⟩, ?_⟩
  unfold ofCircuits
  simp only [hpair]
  rfl

/-- Every full equivalence shows in the residual. -/
theorem exists_isTarget (hres : ofCircuits left right = .ok res)
    (h : FullEquivalence left right σ κ) (hl : left.IsProper) (hr : right.IsReduced) :
    ∃ ν, res.IsTarget left right σ κ ν := by
  have : Fact left.field.modulus.Prime := ⟨hl.prime⟩
  obtain ⟨hleft, hright, hpair⟩ := eq_of_ofCircuits hres
  obtain ⟨ν, hν, himage⟩ := h.exists_normBijection hl.reduced hr
  obtain ⟨r, hpair', hsignals, hnorms⟩ :=
    Refinement.ofGraphs_agrees (h.isIsomorphism hl.reduced hν himage)
  obtain rfl : res.refinement = r := by
    have hsame := hpair.symm.trans hpair'
    cases hsame
    rfl
  rw [← hleft, ← hright] at hν
  refine ⟨ν, h, hν, fun l n hn => ?_, fun s hs => ?_, fun l hl' => ?_⟩
  · rw [hright]
    exact himage l n (hleft ▸ hn)
  · exact hsignals.label s (by rwa [SideGraph.size_roles_ofCircuit])
  · exact hnorms.label l (by rwa [SideGraph.size_norms_ofCircuit, ← hleft])

/-- A refinement that finds no difference is balanced. -/
theorem isBalanced_of_ofCircuits (hres : ofCircuits left right = .ok res) :
    res.refinement.IsBalanced left res.leftNorms right res.rightNorms := by
  obtain ⟨hleft, hright, hpair⟩ := eq_of_ofCircuits hres
  rw [hleft, hright]
  exact Refinement.pair_isBalanced hpair

namespace IsTarget

variable (h : res.IsTarget left right σ κ ν)
  (hres : res.refinement.IsBalanced left res.leftNorms right res.rightNorms)

include h

theorem apply_ne_constant {s : Signal} (hs : s < left.nSignals) (hne : s ≠ constantSignal) :
    σ s ≠ constantSignal := by
  intro h0
  refine hne (h.equivalence.signals.injOn hs left.nSignals_pos ?_)
  rw [h0, h.equivalence.constant]

theorem isSignalPair {s : Signal} (hs : s < left.nSignals) (hne : s ≠ constantSignal) :
    res.IsSignalPair left right s (σ s) where
  left_ne := hne
  right_ne := h.apply_ne_constant hs hne
  left_lt := hs
  right_lt := h.equivalence.signals.mapsTo hs
  label := h.signal_label s hs

/-- The signal pairs of an equivalence match every signal once. -/
theorem isMatching : Candidates.IsMatching (res.IsSignalPair left right)
    (fun s t => res.Matches left σ ν (.signal s t)) where
  functional := fun s t t' ht ht' => ht.2.2.symm.trans ht'.2.2
  injective := fun s s' t hs hs' =>
    h.equivalence.signals.injOn hs.2.1 hs'.2.1 (hs.2.2.trans hs'.2.2.symm)
  left_total := fun s t hst => ⟨σ s, hst.left_ne, hst.left_lt, rfl⟩
  right_total := fun s t hst => by
    obtain ⟨s', hs', rfl⟩ := h.equivalence.signals.surjOn hst.right_lt
    refine ⟨s', fun h0 => hst.right_ne ?_, hs', rfl⟩
    rw [h0, h.equivalence.constant]

/-- Within candidates that keep the equivalence, the pair of a norm and its image has a shape that
the equivalence meets. -/
theorem exists_shape (hleft : res.leftNorms = left.normalize) (hl : left.IsProper) {c : Candidates}
    (hc : c.Keeps fun s t => res.Matches left σ ν (.signal s t)) {l : Nat}
    (hlt : l < res.leftNorms.size) :
    ∃ shape, PairShape.ofNorms? c.isLive (res.leftNorm l) (res.rightNorm (ν l)) = some shape ∧
      shape.IsMetBy (FullEquivalence.signalRenaming left σ) := by
  have : Fact left.field.modulus.Prime := ⟨hl.prime⟩
  obtain ⟨n, hn⟩ : ∃ n, res.leftNorms[l]? = some n := ⟨_, Array.getElem?_eq_getElem hlt⟩
  have hn' : left.normalize[l]? = some n := by rw [← hleft, hn]
  obtain ⟨d, hd, hnormal⟩ := Circuit.exists_constraint_of_norm hn'
  have hreduced := hl.reduced.constraint hd
  have hnorm : res.leftNorm l = n.constraint := by rw [leftNorm, hn, Option.getD_some]
  have himage : res.rightNorm (ν l) =
      n.constraint.renameNormal (FullEquivalence.signalRenaming left σ) := by
    rw [rightNorm, h.image l n hn]
    rfl
  rw [hnorm, himage]
  refine PairShape.exists_ofNorms? h.equivalence.isRenaming hreduced hnormal fun s hs => ?_
  have hlt' : s < left.nSignals := Circuit.lt_nSignals_of_norm hl.reduced hn' hs
  have hne : s ≠ constantSignal := (hreduced.rescaling
    (Constraint.isRescaling_of_mem_normalize hreduced.coefficients hnormal)).ne_constant_of_mem_signals hs
  rw [FullEquivalence.signalRenaming_of_lt hlt', Candidates.isLive_iff]
  exact hc.left s (σ s) ⟨hne, hlt', rfl⟩

include hres

theorem image_mem_right {m : ClassMembers} (hm : m ∈ res.normClasses) {l : Nat} (hl : l ∈ m.left) :
    ν l ∈ m.right := by
  have hlt := (isPartition_normClasses hres).left_lt m hm l hl
  exact mem_right_of_label_eq hres hm hl (h.norms.mapsTo hlt) (h.norm_label l hlt)

theorem exists_mem_left {m : ClassMembers} (hm : m ∈ res.normClasses) {r : Nat} (hr : r ∈ m.right) :
    ∃ l ∈ m.left, ν l = r := by
  obtain ⟨l, hlt, rfl⟩ := h.norms.surjOn ((isPartition_normClasses hres).right_lt m hm r hr)
  exact ⟨l, mem_left_of_label_eq hres hm hr hlt (h.norm_label l hlt), rfl⟩

/-- Candidates that keep an equivalence leave every class feasible. -/
theorem feasiblePairs_eq_ok (hleft : res.leftNorms = left.normalize) (hl : left.IsProper)
    {c : Candidates} (hc : c.Keeps fun s t => res.Matches left σ ν (.signal s t)) {m : ClassMembers}
    (hm : m ∈ res.normClasses) : res.feasiblePairs c m = .ok (res.candidatePairs c m) := by
  have hpair : ∀ l ∈ m.left, ∃ shape, ((l, ν l), shape) ∈ res.candidatePairs c m := fun l hlm => by
    obtain ⟨shape, hshape, -⟩ := h.exists_shape hleft hl hc
      ((isPartition_normClasses hres).left_lt m hm l hlm)
    exact ⟨shape, mem_candidatePairs.2 ⟨hlm, h.image_mem_right hres hm hlm, hshape⟩⟩
  refine feasiblePairs_eq_ok_iff.2 ⟨rfl, fun l hlm => ?_, fun r hr => ?_⟩
  · obtain ⟨shape, hmem⟩ := hpair l hlm
    exact ⟨_, hmem, rfl⟩
  · obtain ⟨l, hlm, rfl⟩ := h.exists_mem_left hres hm hr
    obtain ⟨shape, hmem⟩ := hpair l hlm
    exact ⟨_, hmem, rfl⟩

/-- Narrowing by a class succeeds and keeps the equivalence. -/
theorem exists_narrow (hleft : res.leftNorms = left.normalize) (hl : left.IsProper)
    {c : Candidates} (hc : c.Keeps fun s t => res.Matches left σ ν (.signal s t)) {m : ClassMembers}
    (hm : m ∈ res.normClasses) :
    ∃ c', res.narrow c m = .ok c' ∧ c'.Keeps fun s t => res.Matches left σ ν (.signal s t) := by
  refine ⟨_, by rw [narrow_eq, h.feasiblePairs_eq_ok hres hleft hl hc hm, ok_bind], ?_⟩
  refine foldl_invariant (Q := fun c' => Candidates.Keeps c' _) (fun c' l hlm hc' => ?_) hc
  obtain ⟨shape, hshape, hmet⟩ := h.exists_shape hleft hl hc
    ((isPartition_normClasses hres).left_lt m hm l hlm)
  refine keeps_narrowByNorm hc' (fun s t hst => ?_)
    (mem_candidatePairs.2 ⟨hlm, h.image_mem_right hres hm hlm, hshape⟩) hmet
  rw [FullEquivalence.signalRenaming_of_lt hst.2.1, hst.2.2]

end IsTarget

end Residual

end CircuitEquiv
