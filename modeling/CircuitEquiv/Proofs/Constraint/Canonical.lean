-- SUMMARY: Normal forms are canonical: one list for each class of rescaled constraints, disjoint from all others.
import CircuitEquiv.Proofs.Constraint.NormalForm

/-!
# Normal forms are canonical

A rescaling can be undone by the inverse factors and two of them compose, so being a rescaling is an
equivalence relation on constraints with reduced coefficients. The constraints of one class have one
list of normal forms, and no normal form belongs to two classes.
-/

namespace CircuitEquiv

variable {F : PrimeField}

namespace Terms

variable {κ : Type} [Ord κ] {t : SortedMap κ Nat}

theorem scale_one (h : IsReduced F t) : scale F t 1 = t := by
  obtain ⟨l, hl⟩ := t
  simp only [scale, SortedMap.mapValues, SortedMap.mk.injEq]
  refine (List.map_congr_left fun e he => ?_).trans (List.map_id l)
  have hlt : e.2 < F.modulus := (h e.2 (List.mem_map_of_mem he)).2
  show (e.1, F.mul e.2 1) = e
  rw [PrimeField.mul_one hlt]

theorem scale_inverse [hp : Fact F.modulus.Prime] (h : IsReduced F t) {k : Nat}
    (hk : F.IsNonzero k) : scale F (scale F t k) (F.inverse k) = t := by
  rw [scale_scale, PrimeField.mul_inverse hk, scale_one h]

end Terms

/-! ## Rank-one constraints -/

namespace R1csConstraint

theorem scaled_scaled (r : R1csConstraint) (a b c a' b' c' : Nat) :
    (r.scaled F a b c).scaled F a' b' c' = r.scaled F (F.mul a a') (F.mul b b') (F.mul c c') := by
  simp only [scaled, Terms.scale_scale]

theorem scaled_exchanged (r : R1csConstraint) (a b c : Nat) :
    r.exchanged.scaled F a b c = (r.scaled F b a c).exchanged := rfl

theorem exchanged_exchanged (r : R1csConstraint) : r.exchanged.exchanged = r := rfl

section Prime

variable [hp : Fact F.modulus.Prime] {r s t : R1csConstraint}

omit hp in
theorem IsReduced.scaled_one (h : r.IsReduced F) : r.scaled F 1 1 1 = r := by
  rw [R1csConstraint.scaled, Terms.scale_one h.a, Terms.scale_one h.b, Terms.scale_one h.c]

theorem IsReduced.scaled_inverse (h : r.IsReduced F) {ka kb kc : Nat} (ha : F.IsNonzero ka)
    (hb : F.IsNonzero kb) (hc : F.IsNonzero kc) :
    (r.scaled F ka kb kc).scaled F (F.inverse ka) (F.inverse kb) (F.inverse kc) = r := by
  rw [R1csConstraint.scaled, R1csConstraint.scaled, Terms.scale_inverse h.a ha,
    Terms.scale_inverse h.b hb, Terms.scale_inverse h.c hc]

theorem IsRescaling.refl (h : r.IsReduced F) : r.IsRescaling F r :=
  ⟨1, 1, 1, PrimeField.isNonzero_one, PrimeField.isNonzero_one, PrimeField.isNonzero_one,
    fun _ => (PrimeField.mul_one hp.out.one_lt).symm, Or.inl h.scaled_one.symm⟩

/-- The inverse factors undo a rescaling. -/
theorem IsRescaling.symm (hr : r.IsReduced F) (h : r.IsRescaling F s) : s.IsRescaling F r := by
  obtain ⟨ka, kb, kc, ha, hb, hc, hprod, hs⟩ := h
  have hinverse : r.isLinear = false →
      F.inverse kc = F.mul (F.inverse ka) (F.inverse kb) := fun hlin => by
    rw [hprod hlin, PrimeField.inverse_mul ha hb]
  rcases hs with rfl | rfl
  · refine ⟨F.inverse ka, F.inverse kb, F.inverse kc, ha.inverse, hb.inverse, hc.inverse, ?_, ?_⟩
    · rw [isLinear_scaled]
      exact hinverse
    · exact Or.inl (hr.scaled_inverse ha hb hc).symm
  · refine ⟨F.inverse kb, F.inverse ka, F.inverse kc, hb.inverse, ha.inverse, hc.inverse, ?_, ?_⟩
    · rw [isLinear_exchanged, isLinear_scaled, PrimeField.mul_comm]
      exact hinverse
    · rw [scaled_exchanged, hr.scaled_inverse ha hb hc, exchanged_exchanged]
      exact Or.inr rfl

/-- Factors of two rescalings multiply. -/
theorem IsRescaling.trans (h : r.IsRescaling F s) (h' : s.IsRescaling F t) :
    r.IsRescaling F t := by
  obtain ⟨ka, kb, kc, ha, hb, hc, hprod, hs⟩ := h
  obtain ⟨la, lb, lc, ha', hb', hc', hprod', ht⟩ := h'
  rcases hs with rfl | rfl
  · refine ⟨F.mul ka la, F.mul kb lb, F.mul kc lc, ha.mul ha', hb.mul hb', hc.mul hc', ?_, ?_⟩
    · intro hlin
      rw [isLinear_scaled] at hprod'
      rw [hprod hlin, hprod' hlin]
      exact PrimeField.mul_mul_mul_comm ka kb la lb
    · rwa [scaled_scaled] at ht
  · -- the second pair of factors meets the exchanged parts
    refine ⟨F.mul ka lb, F.mul kb la, F.mul kc lc, ha.mul hb', hb.mul ha', hc.mul hc', ?_, ?_⟩
    · intro hlin
      rw [isLinear_exchanged, isLinear_scaled] at hprod'
      rw [hprod hlin, hprod' hlin, PrimeField.mul_comm la lb]
      exact PrimeField.mul_mul_mul_comm ka kb lb la
    · rw [scaled_exchanged, scaled_scaled, exchanged_exchanged] at ht
      exact ht.symm

end Prime

end R1csConstraint

/-! ## Polynomial constraints -/

namespace AcirConstraint

variable [hp : Fact F.modulus.Prime] {p q m : AcirConstraint}

theorem IsRescaling.refl (h : p.HasReducedCoefficients F) : p.IsRescaling F p := by
  refine ⟨1, PrimeField.isNonzero_one, ?_⟩
  rw [AcirConstraint.scaled, Terms.scale_one h.mult, Terms.scale_one h.linear,
    PrimeField.mul_one h.constant]

theorem IsRescaling.symm (hp' : p.HasReducedCoefficients F) (h : p.IsRescaling F q) :
    q.IsRescaling F p := by
  obtain ⟨k, hk, rfl⟩ := h
  refine ⟨F.inverse k, hk.inverse, ?_⟩
  have hconstant : F.mul (F.mul p.constant k) (F.inverse k) = p.constant := by
    rw [PrimeField.mul_assoc, PrimeField.mul_inverse hk, PrimeField.mul_one hp'.constant]
  rw [AcirConstraint.scaled, AcirConstraint.scaled, Terms.scale_inverse hp'.mult hk,
    Terms.scale_inverse hp'.linear hk, hconstant]

theorem IsRescaling.trans (h : p.IsRescaling F q) (h' : q.IsRescaling F m) :
    p.IsRescaling F m := by
  obtain ⟨k, hk, rfl⟩ := h
  obtain ⟨l, hl, rfl⟩ := h'
  refine ⟨F.mul k l, hk.mul hl, ?_⟩
  simp only [AcirConstraint.scaled, Terms.scale_scale, PrimeField.mul_assoc]

end AcirConstraint

/-! ## Constraints of either dialect -/

namespace Constraint

@[simp]
theorem compare_r1cs (r s : R1csConstraint) : compare (r1cs r) (r1cs s) = compare r s := by
  have hdefault : compare (default : AcirConstraint) default = .eq := Std.ReflCmp.compare_self
  show Ordering.eq.then ((compare r s).then (compare (default : AcirConstraint) default)) = _
  rw [hdefault, Ordering.then_eq, Ordering.eq_then]

@[simp]
theorem compare_acir (p q : AcirConstraint) : compare (acir p) (acir q) = compare p q := by
  have hdefault : compare (default : R1csConstraint) default = .eq := Std.ReflCmp.compare_self
  show Ordering.eq.then ((compare (default : R1csConstraint) default).then (compare p q)) = _
  rw [hdefault, Ordering.eq_then, Ordering.eq_then]

/-- The normal forms are strictly ascending. -/
theorem pairwise_normalize (c : Constraint) :
    (c.normalize F).Pairwise fun m n => compare m n = .lt := by
  cases c with
  | r1cs r =>
    simp only [normalize, List.pairwise_map, compare_r1cs]
    exact SortedSet.sorted _
  | acir p =>
    simp only [normalize, List.pairwise_map, compare_acir]
    exact SortedSet.sorted _

variable [hp : Fact F.modulus.Prime] {c d e : Constraint}

theorem IsRescaling.refl (hc : c.HasReducedCoefficients F) : c.IsRescaling F c := by
  cases c with
  | r1cs r => exact R1csConstraint.IsRescaling.refl hc
  | acir p => exact AcirConstraint.IsRescaling.refl hc

theorem IsRescaling.symm (hc : c.HasReducedCoefficients F) (h : c.IsRescaling F d) :
    d.IsRescaling F c := by
  cases c with
  | r1cs r =>
    cases d with
    | r1cs s => exact R1csConstraint.IsRescaling.symm hc h
    | acir q => exact h.elim
  | acir p =>
    cases d with
    | r1cs s => exact h.elim
    | acir q => exact AcirConstraint.IsRescaling.symm hc h

theorem IsRescaling.trans (h : c.IsRescaling F d) (h' : d.IsRescaling F e) :
    c.IsRescaling F e := by
  cases c with
  | r1cs r =>
    cases d with
    | r1cs s =>
      cases e with
      | r1cs t => exact R1csConstraint.IsRescaling.trans h h'
      | acir m => exact h'.elim
    | acir q => exact h.elim
  | acir p =>
    cases d with
    | r1cs s => exact h.elim
    | acir q =>
      cases e with
      | r1cs t => exact h'.elim
      | acir m => exact AcirConstraint.IsRescaling.trans h h'

/-- A shared normal form links two constraints by its two rescalings. -/
theorem isRescaling_of_mem_normalize_of_mem_normalize {n : Constraint}
    (hc : c.HasReducedCoefficients F) (hd : d.HasReducedCoefficients F) (hnc : n ∈ c.normalize F)
    (hnd : n ∈ d.normalize F) : c.IsRescaling F d :=
  (isRescaling_of_mem_normalize hc hnc).trans ((isRescaling_of_mem_normalize hd hnd).symm hd)

/-- Having a normal form in common is being a rescaling. -/
theorem isScalarMultipleOf_iff_isRescaling (hc : c.HasReducedCoefficients F)
    (hd : d.HasReducedCoefficients F) : c.isScalarMultipleOf F d = true ↔ c.IsRescaling F d := by
  constructor
  · intro h
    obtain ⟨n, hnc, hnd⟩ := exists_mem_normalize_of_isScalarMultipleOf h
    exact isRescaling_of_mem_normalize_of_mem_normalize hc hd hnc hnd
  · intro h
    exact (isScalarMultipleOf_iff_normalize_eq hc hd).2 (normalize_rescaling hc h).symm

theorem disjoint_normalize (hc : c.HasReducedCoefficients F) (hd : d.HasReducedCoefficients F)
    (h : ¬c.IsRescaling F d) : (c.normalize F).Disjoint (d.normalize F) := fun _ hnc hnd =>
  h (isRescaling_of_mem_normalize_of_mem_normalize hc hd hnc hnd)

/-- Scalar multiples form classes among the constraints with reduced coefficients. -/
theorem equivalence_isScalarMultipleOf :
    Equivalence fun c d : {c : Constraint // c.HasReducedCoefficients F} =>
      c.1.isScalarMultipleOf F d.1 = true where
  refl c := (isScalarMultipleOf_iff_isRescaling c.2 c.2).2 (IsRescaling.refl c.2)
  symm {c d} h := by
    rw [isScalarMultipleOf_iff_isRescaling c.2 d.2] at h
    exact (isScalarMultipleOf_iff_isRescaling d.2 c.2).2 (h.symm c.2)
  trans {c d e} h h' := by
    rw [isScalarMultipleOf_iff_isRescaling c.2 d.2] at h
    rw [isScalarMultipleOf_iff_isRescaling d.2 e.2] at h'
    exact (isScalarMultipleOf_iff_isRescaling c.2 e.2).2 (h.trans h')

/-- The normal forms of a constraint are a strictly ascending list that is not empty. Rescalings of
one another have the same list, other constraints have no normal form in common, and so having one
in common is an equivalence relation. -/
theorem normalize_canonical (F : PrimeField) [hp : Fact F.modulus.Prime] :
    (∀ c : Constraint, c.HasReducedCoefficients F →
      c.normalize F ≠ [] ∧ (c.normalize F).Pairwise fun m n => compare m n = .lt) ∧
    (∀ c d : Constraint, c.HasReducedCoefficients F → d.HasReducedCoefficients F →
      (c.IsRescaling F d → c.normalize F = d.normalize F) ∧
      (¬c.IsRescaling F d → (c.normalize F).Disjoint (d.normalize F)) ∧
      (c.isScalarMultipleOf F d = true ↔ c.IsRescaling F d)) ∧
    Equivalence fun c d : {c : Constraint // c.HasReducedCoefficients F} =>
      c.1.isScalarMultipleOf F d.1 = true := by
  refine ⟨fun c hc => ⟨normalize_ne_nil hc, pairwise_normalize c⟩, fun c d hc hd => ?_,
    equivalence_isScalarMultipleOf⟩
  exact ⟨fun h => (normalize_rescaling hc h).symm, disjoint_normalize hc hd,
    isScalarMultipleOf_iff_isRescaling hc hd⟩

/-- A product whose first factor has coefficients that sum to zero modulo seven, so that two divisors
are equally rare. -/
def Sample.product : Constraint := .r1cs (.ofTerms [(1, 1), (2, 6)] [(3, 2)] [(4, 5)])

/-- The same product with its factors scaled by three and by five, and exchanged. -/
def Sample.exchangedProduct : Constraint := .r1cs (.ofTerms [(3, 3)] [(1, 3), (2, 4)] [(4, 5)])

/-- A product with other signals in its first factor. -/
def Sample.otherProduct : Constraint := .r1cs (.ofTerms [(1, 1), (5, 6)] [(3, 2)] [(4, 5)])

/-- The product shares its normal forms with its rescaling and none with a product of other
signals. -/
theorem normalize_canonical_sample :
    Nat.Prime 7 ∧ Sample.product.normalize ⟨7⟩ = Sample.exchangedProduct.normalize ⟨7⟩ ∧
      Sample.product.isScalarMultipleOf ⟨7⟩ Sample.exchangedProduct = true ∧
      (Sample.product.normalize ⟨7⟩).Disjoint (Sample.otherProduct.normalize ⟨7⟩) := by
  have hprime : Nat.Prime 7 := by decide
  have hproduct : Sample.product.HasReducedCoefficients ⟨7⟩ := by decide
  have hexchanged : Sample.exchangedProduct.HasReducedCoefficients ⟨7⟩ := by decide
  have hother : Sample.otherProduct.HasReducedCoefficients ⟨7⟩ := by decide
  have hrescaling : Sample.product.IsRescaling ⟨7⟩ Sample.exchangedProduct :=
    ⟨3, 5, 1, by decide, by decide, by decide, fun _ => by decide, Or.inr (by decide)⟩
  have hunrelated : ¬Sample.product.IsRescaling ⟨7⟩ Sample.otherProduct := by
    rintro ⟨ka, kb, kc, -, -, -, -, h | h⟩
    · have hkeys := congrArg (fun r : R1csConstraint => r.a.keys) h
      simp only [R1csConstraint.scaled, Terms.keys_scale] at hkeys
      exact absurd hkeys (by decide)
    · have hkeys := congrArg (fun r : R1csConstraint => r.a.keys) h
      simp only [R1csConstraint.scaled, R1csConstraint.exchanged, Terms.keys_scale] at hkeys
      exact absurd hkeys (by decide)
  have : Fact (PrimeField.mk 7).modulus.Prime := ⟨hprime⟩
  obtain ⟨-, hpairs, -⟩ := normalize_canonical ⟨7⟩
  obtain ⟨heq, -, hmultiple⟩ := hpairs _ _ hproduct hexchanged
  obtain ⟨-, hdisjoint, -⟩ := hpairs _ _ hproduct hother
  exact ⟨hprime, heq hrescaling, hmultiple.2 hrescaling, hdisjoint hunrelated⟩

end Constraint

end CircuitEquiv
