-- SUMMARY: Constraints built from terms are canonical: equal exactly if the terms add up to the same formal polynomial.
import CircuitEquiv.Proofs.Constraint.Polynomial
import Mathlib.Algebra.MvPolynomial.Monad
import Mathlib.Data.Finsupp.Weight
import Mathlib.RingTheory.MvPolynomial.Basic

/-!
# Polynomials behind constraints

Terms add up to a formal polynomial over the field. The constraint that is built from them has that
polynomial too, once the variable of the constant signal is replaced by one. The coefficients of a
constraint can be read off its polynomial, as its keys name different monomials. So building forgets the
order of the terms and how coefficients are split up, and nothing else.
-/

namespace CircuitEquiv

open MvPolynomial

variable {F : PrimeField}

/-! ## Coefficients of collected terms -/

namespace Terms

variable {κ : Type} [Ord κ] {t u : SortedMap κ Nat} {m : κ → Signal →₀ ℕ} {d : Signal →₀ ℕ} {j : κ}

theorem coeff_valueIn : coeff d (valueIn t fun k => monomial (m k) (1 : ZMod F.modulus)) =
    (t.entries.map fun e => if m e.1 = d then (e.2 : ZMod F.modulus) else 0).sum := by
  rw [valueIn, ← lcoeff_apply, map_list_sum, List.map_map]
  refine congrArg List.sum (List.map_congr_left fun e _ => ?_)
  rw [Function.comp_apply, lcoeff_apply, ← map_natCast C, coeff_C_mul, coeff_monomial, mul_ite, mul_one,
    mul_zero]

/-- A monomial that no term belongs to has coefficient zero. -/
theorem coeff_valueIn_eq_zero (h : ∀ k ∈ t.keys, m k ≠ d) :
    coeff d (valueIn t fun k => monomial (m k) (1 : ZMod F.modulus)) = 0 := by
  rw [coeff_valueIn]
  refine List.sum_eq_zero fun x hx => ?_
  obtain ⟨e, he, rfl⟩ := List.mem_map.1 hx
  exact if_neg (h e.1 (List.mem_map_of_mem he))

variable [Std.LawfulEqOrd κ]

/-- A monomial that one term can belong to has the coefficient of that term. -/
theorem coeff_valueIn_eq_getD [Std.TransOrd κ] (h : ∀ k ∈ t.keys, m k = d ↔ k = j) :
    coeff d (valueIn t fun k => monomial (m k) (1 : ZMod F.modulus)) = (t.getD j 0 : Nat) := by
  classical
  cases hget : t.get? j with
  | none =>
    have hnone : ∀ k ∈ t.keys, m k ≠ d := fun k hk hd =>
      SortedMap.get?_eq_none_iff.1 hget ((h k hk).1 hd ▸ hk)
    rw [coeff_valueIn_eq_zero hnone, SortedMap.getD, hget, Option.getD_none, Nat.cast_zero]
  | some v =>
    have hentry : (j, v) ∈ t.entries := SortedMap.get?_eq_some_iff.1 hget
    have hiff : ∀ e ∈ t.entries, m e.1 = d ↔ e = (j, v) := fun e he => by
      rw [h e.1 (List.mem_map_of_mem he)]
      refine ⟨fun hj => Prod.ext hj ?_, fun heq => congrArg Prod.fst heq⟩
      have hget' := SortedMap.get?_eq_some_iff.2 he
      rw [hj, hget] at hget'
      exact (Option.some.inj hget').symm
    rw [coeff_valueIn, ← List.sum_toFinset _ t.nodup_entries, Finset.sum_eq_single (j, v), SortedMap.getD,
      hget, if_pos ((hiff _ hentry).2 rfl), Option.getD_some]
    · exact fun e he hne => if_neg fun hd => hne ((hiff e (List.mem_toFinset.1 he)).1 hd)
    · exact fun hnot => absurd (List.mem_toFinset.2 hentry) hnot

/-- Nonzero coefficients are told apart by looking them up. -/
theorem get?_eq_of_getD_eq (ht : IsReduced F t) (hu : IsReduced F u) (h : t.getD j 0 = u.getD j 0) :
    t.get? j = u.get? j := by
  have hpos : ∀ {t : SortedMap κ Nat}, IsReduced F t → ∀ v, t.get? j = some v → v ≠ 0 :=
    fun ht v hv => (ht v (SortedMap.mem_values_iff.2 ⟨j, hv⟩)).1.ne'
  rw [SortedMap.getD, SortedMap.getD] at h
  cases ht' : t.get? j with
  | none =>
    cases hu' : u.get? j with
    | none => rfl
    | some w => simp [ht', hu', (hpos hu w hu').symm] at h
  | some v =>
    cases hu' : u.get? j with
    | none => simp [ht', hu', hpos ht v ht'] at h
    | some w => simpa [ht', hu'] using h

theorem getD_lt [Fact F.modulus.Prime] (ht : IsReduced F t) (j : κ) : t.getD j 0 < F.modulus := by
  rw [SortedMap.getD]
  cases hget : t.get? j with
  | none => exact PrimeField.modulus_pos
  | some v => exact (ht v (SortedMap.mem_values_iff.2 ⟨j, hget⟩)).2

end Terms

/-! ## The polynomial of a constraint -/

namespace AcirConstraint

variable {p q : AcirConstraint}

/-- The formal polynomial that has to vanish. -/
noncomputable def toPolynomial (F : PrimeField) (p : AcirConstraint) :
    MvPolynomial Signal (ZMod F.modulus) := p.valueIn X

theorem toPolynomial_eq : p.toPolynomial F = C (p.constant : ZMod F.modulus) +
    Terms.valueIn p.mult (fun k =>
      monomial (Finsupp.single k.1 1 + Finsupp.single k.2 1) (1 : ZMod F.modulus)) +
    Terms.valueIn p.linear fun s => monomial (Finsupp.single s 1) (1 : ZMod F.modulus) := by
  have hproduct : (fun k : Signal × Signal => (X k.1 * X k.2 : MvPolynomial Signal (ZMod F.modulus))) =
      fun k => monomial (Finsupp.single k.1 1 + Finsupp.single k.2 1) 1 := by
    funext k
    rw [X, X, monomial_mul, mul_one]
  rw [toPolynomial, valueIn, hproduct, map_natCast]
  rfl

theorem coeff_toPolynomial_zero : coeff 0 (p.toPolynomial F) = p.constant := by
  rw [toPolynomial_eq, coeff_add, coeff_add, coeff_C, if_pos rfl, Terms.coeff_valueIn_eq_zero,
    Terms.coeff_valueIn_eq_zero, add_zero, add_zero]
  · intro s _ h
    simpa using congrArg Finsupp.degree h
  · intro k _ h
    simpa using congrArg Finsupp.degree h

theorem coeff_toPolynomial_linear (s : Signal) :
    coeff (Finsupp.single s 1) (p.toPolynomial F) = (p.linear.getD s 0 : Nat) := by
  rw [toPolynomial_eq, coeff_add, coeff_add, coeff_C, if_neg, Terms.coeff_valueIn_eq_zero, zero_add,
    zero_add]
  · refine Terms.coeff_valueIn_eq_getD fun k _ => ?_
    exact Finsupp.single_left_inj one_ne_zero
  · intro k _ h
    simpa using congrArg Finsupp.degree h
  · intro h
    simpa using congrArg Finsupp.degree h

/-- Pairs of signals in ascending order name different monomials. -/
theorem coeff_toPolynomial_mult (hp : p.HasProperKeys) {j : Signal × Signal} (hj : j.1 ≤ j.2) :
    coeff (Finsupp.single j.1 1 + Finsupp.single j.2 1) (p.toPolynomial F) = (p.mult.getD j 0 : Nat) := by
  rw [toPolynomial_eq, coeff_add, coeff_add, coeff_C, if_neg,
    Terms.coeff_valueIn_eq_zero (t := p.linear), zero_add, add_zero]
  · refine Terms.coeff_valueIn_eq_getD fun k hk => ?_
    have hk := (hp.mult_keys k hk).2
    rw [Finsupp.single_add_single_eq_single_add_single one_ne_zero one_ne_zero, Prod.ext_iff]
    constructor
    · rintro (h | ⟨-, h1, h2⟩ | ⟨h, -⟩)
      · exact h
      · exact ⟨le_antisymm (hk.trans_eq h2) (hj.trans_eq h1.symm),
          le_antisymm (h2.trans_le hj) (h1.symm.trans_le hk)⟩
      · cases h
    · exact Or.inl
  · intro s _ h
    simpa using congrArg Finsupp.degree h
  · intro h
    simpa using congrArg Finsupp.degree h

/-- Reduced constraints with one polynomial are equal. -/
theorem eq_of_toPolynomial_eq [Fact F.modulus.Prime] (hp : p.IsReduced F) (hq : q.IsReduced F)
    (h : p.toPolynomial F = q.toPolynomial F) : p = q := by
  have hconstant : p.constant = q.constant := by
    refine PrimeField.eq_of_cast_eq hp.constant hq.constant ?_
    rw [← coeff_toPolynomial_zero, h, coeff_toPolynomial_zero]
  have hlinear : p.linear = q.linear := by
    refine SortedMap.ext_get? fun s => Terms.get?_eq_of_getD_eq hp.linear hq.linear ?_
    refine PrimeField.eq_of_cast_eq (Terms.getD_lt hp.linear s) (Terms.getD_lt hq.linear s) ?_
    rw [← coeff_toPolynomial_linear, h, coeff_toPolynomial_linear]
  have hmult : p.mult = q.mult := by
    refine SortedMap.ext_get? fun j => Terms.get?_eq_of_getD_eq hp.mult hq.mult ?_
    by_cases hj : j.1 ≤ j.2
    · refine PrimeField.eq_of_cast_eq (Terms.getD_lt hp.mult j) (Terms.getD_lt hq.mult j) ?_
      rw [← coeff_toPolynomial_mult hp.hasProperKeys hj, h, coeff_toPolynomial_mult hq.hasProperKeys hj]
    · have hnone : ∀ {p : AcirConstraint}, p.IsReduced F → p.mult.get? j = none := fun hp =>
        SortedMap.get?_eq_none_iff.2 fun hmem => hj (hp.mult_keys j hmem).2
      rw [SortedMap.getD, SortedMap.getD, hnone hp, hnone hq]
  cases p
  cases q
  simp_all

end AcirConstraint

/-! ## Terms before they are collected -/

/-- The terms that a polynomial is built from. Pairs of signals stand in either order, signals may repeat
and be the constant one, and coefficients are of any size. -/
structure PolynomialTerms where
  mult : List ((Signal × Signal) × Nat)
  linear : List (Signal × Nat)
  constant : Nat

namespace PolynomialTerms

/-- The signals that the terms mention. -/
def signals (t : PolynomialTerms) : List Signal :=
  (t.mult.flatMap fun e => [e.1.1, e.1.2]) ++ t.linear.map (·.1)

/-- The sum of the coefficients times the values of the signals, plus the constant. -/
def valueIn {R : Type} [CommSemiring R] (t : PolynomialTerms) (x : Signal → R) : R :=
  (t.mult.map fun e => (e.2 : R) * (x e.1.1 * x e.1.2)).sum +
    (t.linear.map fun e => (e.2 : R) * x e.1).sum + t.constant

/-- The constraint that is built from the terms. -/
def build (F : PrimeField) (t : PolynomialTerms) : AcirConstraint :=
  .ofTerms F t.mult t.linear t.constant

/-- The formal polynomial over the field that the terms add up to. -/
noncomputable def formal (F : PrimeField) (t : PolynomialTerms) : MvPolynomial Signal (ZMod F.modulus) :=
  t.valueIn X

variable {t u : PolynomialTerms}

theorem map_valueIn {R S : Type} [CommSemiring R] [CommSemiring S] (f : R →+* S) (x : Signal → R) :
    f (t.valueIn x) = t.valueIn fun s => f (x s) := by
  simp [valueIn, map_list_sum, Function.comp_def]

end PolynomialTerms

/-- The variable of the constant signal is replaced by one. -/
noncomputable def setConstantToOne (F : PrimeField) :
    MvPolynomial Signal (ZMod F.modulus) →ₐ[ZMod F.modulus] MvPolynomial Signal (ZMod F.modulus) :=
  bind₁ fun s => if s = constantSignal then 1 else X s

theorem setConstantToOne_X_of_ne {s : Signal} (hs : s ≠ constantSignal) :
    setConstantToOne F (X s) = X s := by
  rw [setConstantToOne, bind₁_X_right, if_neg hs]

theorem setConstantToOne_X_constantSignal : setConstantToOne F (X constantSignal) = 1 := by
  rw [setConstantToOne, bind₁_X_right, if_pos rfl]

namespace AcirConstraint

variable {p : AcirConstraint} {S : Set Signal} {a b : Signal}

/-- A constraint does not mention the constant signal, so its variable may be set to one. -/
theorem valueIn_setConstantToOne (hp : p.HasProperKeys) :
    (p.valueIn fun s => setConstantToOne F (X s)) = p.toPolynomial F := by
  have hmult : (Terms.valueIn p.mult fun k => setConstantToOne F (X k.1) * setConstantToOne F (X k.2)) =
      Terms.valueIn p.mult fun k => X k.1 * X k.2 := Terms.valueIn_congr fun k hk => by
    obtain ⟨hpos, hle⟩ := hp.mult_keys k hk
    rw [setConstantToOne_X_of_ne hpos.ne', setConstantToOne_X_of_ne (hpos.trans_le hle).ne']
  have hlinear : (Terms.valueIn p.linear fun s => setConstantToOne F (X s)) = Terms.valueIn p.linear X :=
    Terms.valueIn_congr fun s hs => setConstantToOne_X_of_ne (hp.linear_keys s hs).ne'
  rw [toPolynomial, valueIn, valueIn, hmult, hlinear]

/-- All signals of a polynomial are among those of a set. -/
def MentionsOnly (S : Set Signal) (p : AcirConstraint) : Prop := ∀ s ∈ p.signals, s ∈ S

theorem MentionsOnly.addMult (h : p.MentionsOnly S) (ha : a ∈ S) (hb : b ∈ S) (v : Nat) :
    (p.addMult F a b v).MentionsOnly S := by
  have hmax : max a b ∈ S := max_rec' (· ∈ S) ha hb
  have hmin : min a b ∈ S := min_rec' (· ∈ S) ha hb
  intro s hs
  unfold AcirConstraint.addMult at hs
  split at hs
  · exact h s (mem_signals.2 (mem_signals.1 hs))
  · split at hs
    · rcases mem_signals.1 hs with hs | hs
      · exact h s (mem_signals.2 (Or.inl hs))
      · rcases mem_keys_accumulate hs with rfl | hs
        · exact hmax
        · exact h s (mem_signals.2 (Or.inr hs))
    · rcases mem_signals.1 hs with ⟨k, hk, hs⟩ | hs
      · rcases mem_keys_accumulate hk with rfl | hk
        · rcases hs with rfl | rfl
          · exact hmin
          · exact hmax
        · exact h s (mem_signals.2 (Or.inl ⟨k, hk, hs⟩))
      · exact h s (mem_signals.2 (Or.inr hs))

theorem MentionsOnly.addLinear (h : p.MentionsOnly S) (ha : a ∈ S) (v : Nat) :
    (p.addLinear F a v).MentionsOnly S := by
  intro s hs
  unfold AcirConstraint.addLinear at hs
  split at hs
  · exact h s (mem_signals.2 (mem_signals.1 hs))
  · rcases mem_signals.1 hs with hs | hs
    · exact h s (mem_signals.2 (Or.inl hs))
    · rcases mem_keys_accumulate hs with rfl | hs
      · exact ha
      · exact h s (mem_signals.2 (Or.inr hs))

/-- A polynomial mentions no other signals than the terms it is built from. -/
theorem mentionsOnly_ofTerms {mult : List ((Signal × Signal) × Nat)} {linear : List (Signal × Nat)}
    (hmult : ∀ e ∈ mult, e.1.1 ∈ S ∧ e.1.2 ∈ S) (hlinear : ∀ e ∈ linear, e.1 ∈ S) (constant : Nat) :
    (ofTerms F mult linear constant).MentionsOnly S := by
  have hstart : (⟨SortedMap.empty, SortedMap.empty, F.element constant⟩ :
      AcirConstraint).MentionsOnly S := fun s hs => absurd hs List.not_mem_nil
  have hproducts : (mult.foldl (fun (p : AcirConstraint) t => p.addMult F t.1.1 t.1.2 t.2) _).MentionsOnly S :=
    foldl_invariant (fun _ e he h => h.addMult (hmult e he).1 (hmult e he).2 e.2) hstart
  have hall : (linear.foldl (fun (p : AcirConstraint) t => p.addLinear F t.1 t.2) _).MentionsOnly S :=
    foldl_invariant (fun _ e he h => h.addLinear (hlinear e he) e.2) hproducts
  intro s hs
  refine hall s (mem_signals.2 ((mem_signals.1 hs).imp ?_ Terms.mem_keys_dropZeros))
  rintro ⟨k, hk, h⟩
  exact ⟨k, Terms.mem_keys_dropZeros hk, h⟩

end AcirConstraint

namespace PolynomialTerms

variable {t u : PolynomialTerms}

theorem hasProperKeys_build : (t.build F).HasProperKeys := AcirConstraint.hasProperKeys_ofTerms _ _ _

theorem isReduced_build [Fact F.modulus.Prime] : (t.build F).IsReduced F :=
  AcirConstraint.isReduced_ofTerms _ _ _

theorem mentionsOnly_build : (t.build F).MentionsOnly {s | s ∈ t.signals} := by
  refine AcirConstraint.mentionsOnly_ofTerms (fun e he => ⟨?_, ?_⟩) (fun e he => ?_) _
  · exact List.mem_append_left _ (List.mem_flatMap.2 ⟨e, he, List.mem_cons_self⟩)
  · exact List.mem_append_left _
      (List.mem_flatMap.2 ⟨e, he, List.mem_cons_of_mem _ List.mem_cons_self⟩)
  · exact List.mem_append_right _ (List.mem_map_of_mem he)

theorem valueIn_build {R : Type} [CommRing R] [CharP R F.modulus] {x : Signal → R}
    (hone : x constantSignal = 1) : (t.build F).valueIn x = t.valueIn x :=
  AcirConstraint.valueIn_ofTerms hone _ _ _

/-- The polynomial of the constraint is the formal polynomial with the constant signal set to one. -/
theorem toPolynomial_build : (t.build F).toPolynomial F = setConstantToOne F (t.formal F) := by
  rw [← AcirConstraint.valueIn_setConstantToOne hasProperKeys_build,
    valueIn_build setConstantToOne_X_constantSignal]
  exact (map_valueIn (setConstantToOne F).toRingHom X).symm

/-- Building a constraint from terms gives a canonical form of their formal polynomial over the field, with
the variable of the constant signal set to one. The result is reduced: quadratic terms have the pairs of
their signals in ascending order, no term mentions the constant signal, and coefficients are nonzero
elements. Two lists of terms give the same constraint exactly if they have the same such polynomial. And
where all signals that the terms mention have values, that of the constant signal being one, the
constraint is satisfied exactly if the modulus divides the sum of the terms. -/
theorem build_canonical (F : PrimeField) [Fact F.modulus.Prime] :
    (∀ t : PolynomialTerms, (t.build F).IsReduced F) ∧
    (∀ t u : PolynomialTerms, t.build F = u.build F ↔
      setConstantToOne F (t.formal F) = setConstantToOne F (u.formal F)) ∧
    ∀ (t : PolynomialTerms) (values : List Nat), (∀ s ∈ t.signals, s < values.length) →
      values[constantSignal]? = some 1 →
        ((t.build F).isSatisfied F values = true ↔ F.modulus ∣ t.valueIn fun s => values.getD s 0) := by
  refine ⟨fun t => isReduced_build, fun t u => ?_, fun t values hsignals hone => ?_⟩
  · rw [← toPolynomial_build, ← toPolynomial_build]
    refine ⟨fun h => by rw [h], ?_⟩
    exact AcirConstraint.eq_of_toPolynomial_eq isReduced_build isReduced_build
  · have hassignment : F.assignment values constantSignal = 1 := by
      rw [PrimeField.assignment, List.getD_eq_getElem?_getD, hone, Option.getD_some, Nat.cast_one]
    have hcast : ((t.valueIn fun s => values.getD s 0 : Nat) : ZMod F.modulus) =
        t.valueIn (F.assignment values) := map_valueIn (Nat.castRingHom (ZMod F.modulus)) _
    rw [AcirConstraint.isSatisfied_iff_valueAt PrimeField.modulus_pos isReduced_build.constant
      fun s hs => hsignals s (mentionsOnly_build s hs), ← ZMod.natCast_eq_zero_iff, hcast,
      ← valueIn_build hassignment]
    rfl

namespace Sample

/-- Terms of the constant signal, and a product written with its greater signal first. -/
def scattered : PolynomialTerms where
  mult := [((2, 0), 3), ((0, 0), 1), ((2, 1), 1)]
  linear := [(0, 4)]
  constant := 0

/-- The same polynomial with its terms collected, one coefficient not reduced. -/
def collected : PolynomialTerms := ⟨[((1, 2), 24)], [(2, 3)], 5⟩

end Sample

open Sample in
/-- Both lists of terms build the polynomial that fifteen and one satisfy modulo 23. -/
theorem build_canonical_scattered : Nat.Prime 23 ∧ (scattered.build ⟨23⟩).IsReduced ⟨23⟩ ∧
    scattered.build ⟨23⟩ = collected.build ⟨23⟩ ∧
    setConstantToOne ⟨23⟩ (scattered.formal ⟨23⟩) = setConstantToOne ⟨23⟩ (collected.formal ⟨23⟩) ∧
    (scattered.build ⟨23⟩).isSatisfied ⟨23⟩ [1, 15, 1] = true := by
  have hprime : Nat.Prime 23 := by decide
  have : Fact (PrimeField.mk 23).modulus.Prime := ⟨hprime⟩
  obtain ⟨hreduced, hequal, hsatisfied⟩ := build_canonical ⟨23⟩
  have hsame : scattered.build ⟨23⟩ = collected.build ⟨23⟩ := by decide
  exact ⟨hprime, hreduced scattered, hsame, (hequal scattered collected).1 hsame,
    (hsatisfied scattered [1, 15, 1] (by decide) rfl).2 (by decide)⟩

end PolynomialTerms

end CircuitEquiv
