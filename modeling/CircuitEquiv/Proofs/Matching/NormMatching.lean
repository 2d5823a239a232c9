-- SUMMARY: A matching of norms of two circuits gives a matching of their constraints.
import CircuitEquiv.Proofs.Circuit.NormCorrespondence
import CircuitEquiv.Proofs.Matching.Draft

/-!
# From matched norms to matched constraints

A matching sends left norms to their renamed forms on the right, no two of them to one, and the norms
of one constraint together to norms of one constraint. It gives a map of the constraints whose norms it
matches. A constraint and its image have a normal form in common, so all their normal forms correspond,
and no two constraints share an image.
-/

namespace CircuitEquiv

open Draft (originOf)

/-- Left norms are matched to their renamed forms, those of one constraint together. -/
structure NormMatching (left right : Circuit) (f : Signal → Signal) (R : Nat → Nat → Prop) : Prop where
  isRenaming : IsRenaming f
  left_unique : ∀ l r r', R l r → R l r' → r = r'
  right_unique : ∀ l l' r, R l r → R l' r → l = l'
  image : ∀ l r, R l r → ∃ n n', left.normalize[l]? = some n ∧ right.normalize[r]? = some n' ∧
    n'.constraint = n.constraint.renameNormal f
  siblings : ∀ l r l', R l r → l' < left.normalize.size →
    originOf left.normalize l' = originOf left.normalize l →
      ∃ r', originOf right.normalize r' = originOf right.normalize r ∧ R l' r'

/-- A map of constraints follows a matching of norms. -/
def FollowsNorms (left right : Circuit) (R : Nat → Nat → Prop) (κ : Nat → Nat) : Prop :=
  ∀ l r, R l r → κ (originOf left.normalize l) = originOf right.normalize r

/-- The constraints of which some norm is matched. -/
def matchedConstraints (left : Circuit) (R : Nat → Nat → Prop) : Set Nat :=
  {k | ∃ l r, R l r ∧ originOf left.normalize l = k}

theorem originOf_of_getElem? {norms : Array Norm} {l : Nat} {n : Norm} (hn : norms[l]? = some n) :
    originOf norms l = n.origin := by
  rw [originOf, hn, Option.getD_some]

namespace NormMatching

variable {left right : Circuit} {f : Signal → Signal} {R : Nat → Nat → Prop} {κ : Nat → Nat}
  {l r k : Nat} {n : Norm} {c : Constraint}

/-- Selected norm pairs whose shapes a renaming meets are a matching. -/
theorem of_shapes {S : PairVariable → Prop} (hf : IsRenaming f) (hl : left.IsProper)
    (hr : right.IsReduced) (hfield : left.field = right.field)
    (left_unique : ∀ l r r', S (.norm l r) → S (.norm l r') → r = r')
    (right_unique : ∀ l l' r, S (.norm l r) → S (.norm l' r) → l = l')
    (shape : ∀ l r, S (.norm l r) → ∃ n n', left.normalize[l]? = some n ∧
      right.normalize[r]? = some n' ∧ ∃ isCandidate shape,
        PairShape.ofNorms? isCandidate n.constraint n'.constraint = some shape ∧ shape.IsMetBy f)
    (siblings : Draft.SiblingsAgree left.normalize right.normalize S) :
    NormMatching left right f fun l r => S (.norm l r) where
  isRenaming := hf
  left_unique := left_unique
  right_unique := right_unique
  image l r hS := by
    have : Fact left.field.modulus.Prime := ⟨hl.prime⟩
    obtain ⟨n, n', hn, hn', isCandidate, shape, hshape, hmet⟩ := shape l r hS
    obtain ⟨c, hc, hnormal⟩ := Circuit.exists_constraint_of_norm hn
    obtain ⟨d, hd, hnormal'⟩ := Circuit.exists_constraint_of_norm hn'
    rw [← hfield] at hnormal'
    exact ⟨n, n', hn, hn', (PairShape.renameNormal_eq_of_ofNorms? hf (hl.reduced.constraint hc)
      hnormal (hfield ▸ hr.constraint hd) hnormal' hshape hmet).symm⟩
  siblings l r l' hS hlt horigin := by
    by_cases hne : l' = l
    · exact ⟨r, rfl, hne ▸ hS⟩
    · obtain ⟨r', -, horigin', -, hS'⟩ := siblings l r l' hS hlt horigin hne
      exact ⟨r', horigin', hS'⟩

variable (h : NormMatching left right f R)

include h

theorem exists_constraintMap : ∃ κ, FollowsNorms left right R κ := by
  have himage : ∀ k, ∃ j, ∀ l r, R l r → originOf left.normalize l = k →
      j = originOf right.normalize r := by
    intro k
    by_cases hk : ∃ l r, R l r ∧ originOf left.normalize l = k
    · obtain ⟨l, r, hR, hlk⟩ := hk
      refine ⟨originOf right.normalize r, fun l' r' hR' hlk' => ?_⟩
      obtain ⟨n, -, hn, -⟩ := h.image l' r' hR'
      obtain ⟨r'', horigin, hR''⟩ := h.siblings l r l' hR (Array.getElem?_eq_some_iff.1 hn).1
        (hlk'.trans hlk.symm)
      rw [h.left_unique l' r' r'' hR' hR'', horigin]
    · exact ⟨0, fun l r hR hlk => absurd ⟨l, r, hR, hlk⟩ hk⟩
  choose κ hκ using himage
  exact ⟨κ, fun l r hR => hκ _ l r hR rfl⟩

/-- All norms of a matched constraint are matched. -/
theorem exists_of_origin (hk : k ∈ matchedConstraints left R) (hn : left.normalize[l]? = some n)
    (horigin : n.origin = k) : ∃ r, R l r := by
  obtain ⟨l', r', hR', rfl⟩ := hk
  obtain ⟨r, -, hR⟩ := h.siblings l' r' l hR' (Array.getElem?_eq_some_iff.1 hn).1
    ((originOf_of_getElem? hn).trans horigin)
  exact ⟨r, hR⟩

variable (hκ : FollowsNorms left right R κ)

include hκ

theorem image_norm (hR : R l r) (hn : left.normalize[l]? = some n) :
    right.normalize[r]? = some ⟨n.constraint.renameNormal f, κ n.origin⟩ := by
  obtain ⟨n₀, n', hn₀, hn', hconstraint⟩ := h.image l r hR
  obtain rfl : n₀ = n := Option.some.inj (hn₀.symm.trans hn)
  have horigin := hκ l r hR
  rw [originOf_of_getElem? hn, originOf_of_getElem? hn'] at horigin
  rw [hn', ← hconstraint, horigin]

variable (hl : left.IsProper) (hfield : left.field = right.field)

include hl hfield

/-- A matched constraint and its image have a normal form in common, after renaming. -/
theorem exists_image (hk : k ∈ matchedConstraints left R) (hc : left.constraints[k]? = some c) :
    ∃ d, right.constraints[κ k]? = some d ∧ (c.rename f).isScalarMultipleOf left.field d = true := by
  have : Fact left.field.modulus.Prime := ⟨hl.prime⟩
  have hcred := hl.reduced.constraint hc
  obtain ⟨n, hn⟩ := List.exists_mem_of_ne_nil _ (Constraint.normalize_ne_nil hcred.coefficients)
  obtain ⟨l, hl'⟩ := Circuit.exists_norm_of_mem_normalize hc hn
  obtain ⟨r, hR⟩ := h.exists_of_origin hk hl' rfl
  obtain ⟨d, hd, hnormal⟩ := Circuit.exists_constraint_of_norm (h.image_norm hκ hR hl')
  refine ⟨d, hd, ?_⟩
  rw [← hfield] at hnormal
  simp only [Constraint.isScalarMultipleOf, List.any_eq_true, decide_eq_true_eq]
  exact ⟨_, hnormal,
    (Constraint.normalize_rename_perm hcred h.isRenaming).mem_iff.2 (List.mem_map_of_mem hn)⟩

/-- No two matched constraints have one image: the norms of the image come from the norms of either. -/
theorem injOn_constraintMap (hr : right.IsReduced) : Set.InjOn κ (matchedConstraints left R) := by
  have : Fact left.field.modulus.Prime := ⟨hl.prime⟩
  rintro k hk _ ⟨l', r', hR', rfl⟩ heq
  obtain ⟨n', -, hn', -⟩ := h.image l' r' hR'
  obtain ⟨l₀, r₀, hR₀, hlk⟩ := hk
  obtain ⟨n₀, -, hn₀, -⟩ := h.image l₀ r₀ hR₀
  have hk : k ∈ matchedConstraints left R := ⟨l₀, r₀, hR₀, hlk⟩
  rw [originOf_of_getElem? hn₀] at hlk
  rw [originOf_of_getElem? hn'] at heq ⊢
  obtain ⟨c, hc⟩ := Circuit.exists_constraint (hlk ▸ Circuit.origin_lt hn₀)
  obtain ⟨d, hd, hmultiple⟩ := h.exists_image hκ hl hfield hk hc
  have hcred := hl.reduced.constraint hc
  have hdred : d.IsReduced left.field := hfield ▸ hr.constraint hd
  -- A norm of the second constraint, and a norm of the first one with the same image.
  have himage' := h.image_norm hκ hR' hn'
  obtain ⟨d', hd', hnormal'⟩ := Circuit.exists_constraint_of_norm himage'
  obtain rfl : d = d' := Option.some.inj (hd.symm.trans (heq ▸ hd'))
  rw [← hfield, (Constraint.normalize_perm_of_isScalarMultipleOf hcred hdred h.isRenaming
    hmultiple).mem_iff] at hnormal'
  obtain ⟨m, hm, hmn⟩ := List.mem_map.1 hnormal'
  obtain ⟨l, hl'⟩ := Circuit.exists_norm_of_mem_normalize hc hm
  obtain ⟨r, hR⟩ := h.exists_of_origin hk hl' rfl
  have himage := h.image_norm hκ hR hl'
  rw [show (⟨m.renameNormal f, κ k⟩ : Norm) = ⟨n'.constraint.renameNormal f, κ n'.origin⟩ from
    congrArg₂ Norm.mk hmn heq] at himage
  obtain rfl : r = r' := Circuit.index_eq_of_norm_eq himage himage'
  obtain rfl : l = l' := h.right_unique l l' r hR hR'
  rw [hl'] at hn'
  exact congrArg Norm.origin (Option.some.inj hn')

/-! ## Matchings of all norms -/

variable (htotal : ∀ l < left.normalize.size, ∃ r, R l r)

omit hκ hfield in
include htotal in
theorem matchedConstraints_eq_Iio : matchedConstraints left R = Set.Iio left.nConstraints := by
  have : Fact left.field.modulus.Prime := ⟨hl.prime⟩
  ext k
  constructor
  · rintro ⟨l, r, hR, rfl⟩
    obtain ⟨n, -, hn, -⟩ := h.image l r hR
    rw [originOf_of_getElem? hn]
    exact Circuit.origin_lt hn
  · intro hk
    obtain ⟨l, n, hn, rfl⟩ := Circuit.exists_norm_of_lt hl.reduced hk
    obtain ⟨r, hR⟩ := htotal l (Array.getElem?_eq_some_iff.1 hn).1
    exact ⟨l, r, hR, originOf_of_getElem? hn⟩

include htotal

/-- Where every norm is matched, so is every constraint. -/
theorem bijOn_constraintMap (hr : right.IsReduced)
    (hsurj : ∀ r < right.normalize.size, ∃ l, R l r) :
    Set.BijOn κ (Set.Iio left.nConstraints) (Set.Iio right.nConstraints) := by
  have : Fact right.field.modulus.Prime := ⟨hfield ▸ hl.prime⟩
  have hall := h.matchedConstraints_eq_Iio hl htotal
  refine ⟨fun k hk => ?_, hall ▸ h.injOn_constraintMap hκ hl hfield hr, fun j hj => ?_⟩
  · obtain ⟨c, hc⟩ := Circuit.exists_constraint hk
    obtain ⟨d, hd, -⟩ := h.exists_image hκ hl hfield (hall ▸ hk) hc
    exact Circuit.lt_nConstraints hd
  · obtain ⟨r, n, hn, rfl⟩ := Circuit.exists_norm_of_lt hr hj
    obtain ⟨l, hR⟩ := hsurj r (Array.getElem?_eq_some_iff.1 hn).1
    refine ⟨originOf left.normalize l, hall ▸ ⟨l, r, hR, rfl⟩, ?_⟩
    rw [hκ l r hR, originOf_of_getElem? hn]

/-- A matching of norms whose constraint map is a bijection is a full equivalence. -/
theorem fullEquivalence {σ : Signal → Signal} (hσf : f = FullEquivalence.signalRenaming left σ)
    (hdialect : left.dialect = right.dialect)
    (hσ : Set.BijOn σ (Set.Iio left.nSignals) (Set.Iio right.nSignals))
    (h0 : σ constantSignal = constantSignal)
    (hrole : ∀ s < left.nSignals, right.role (σ s) = left.role s)
    (hbij : Set.BijOn κ (Set.Iio left.nConstraints) (Set.Iio right.nConstraints)) :
    FullEquivalence left right σ κ where
  field := hfield
  dialect := hdialect
  signals := hσ
  constant := h0
  role := hrole
  constraints := hbij
  scalarMultiple k c hc := by
    subst hσf
    obtain ⟨d, hd, hmultiple⟩ := h.exists_image hκ hl hfield
      (h.matchedConstraints_eq_Iio hl htotal ▸ Circuit.lt_nConstraints hc) hc
    exact ⟨_, d, FullEquivalence.signalMap_eq h.isRenaming hl.reduced hc, hd, hmultiple⟩

end NormMatching

end CircuitEquiv
