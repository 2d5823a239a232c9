-- SUMMARY: Rescaled and renamed constraints have the same normal forms, up to the renaming.
import CircuitEquiv.Constraint
import CircuitEquiv.Proofs.Constraint.Terms

/-!
# Normal forms

Rescaling a constraint with reduced coefficients does not change its normal forms, and every normal
form is itself a rescaling of the constraint. Two constraints that have one normal form in common
therefore have all of them in common. A renaming carries normal forms to normal forms, except that
the factors of a product may have to be exchanged to be in canonical order again.
-/

namespace CircuitEquiv

variable {F : PrimeField}

/-! ## Rank-one constraints -/

namespace R1csConstraint

/-- Every coefficient is a nonzero element. -/
structure IsReduced (F : PrimeField) (r : R1csConstraint) : Prop where
  a : Terms.IsReduced F r.a
  b : Terms.IsReduced F r.b
  c : Terms.IsReduced F r.c

instance (F : PrimeField) (r : R1csConstraint) : Decidable (r.IsReduced F) :=
  decidable_of_iff (Terms.IsReduced F r.a ∧ Terms.IsReduced F r.b ∧ Terms.IsReduced F r.c)
    ⟨fun h => ⟨h.1, h.2.1, h.2.2⟩, fun h => ⟨h.a, h.b, h.c⟩⟩

/-- The constraint with the given parts, its factors in canonical order. -/
def ofFactors (a b c : Terms) : R1csConstraint :=
  ⟨(orderFactors a b).1, (orderFactors a b).2, c⟩

theorem orderFactors_comm (a b : Terms) : orderFactors a b = orderFactors b a := by
  have hvalues : compare (Terms.sortedValues b) (Terms.sortedValues a) =
      (compare (Terms.sortedValues a) (Terms.sortedValues b)).swap := Std.OrientedCmp.eq_swap
  have hterms : compare b a = (compare a b).swap := Std.OrientedCmp.eq_swap
  unfold orderFactors
  rw [hvalues, hterms]
  cases hv : compare (Terms.sortedValues a) (Terms.sortedValues b) with
  | lt => rfl
  | gt => rfl
  | eq =>
    cases ht : compare a b with
    | lt => rfl
    | gt => rfl
    | eq =>
      rw [Std.LawfulEqCmp.eq_of_compare ht]
      rfl

theorem orderFactors_eq_or (a b : Terms) :
    orderFactors a b = (a, b) ∨ orderFactors a b = (b, a) := by
  unfold orderFactors
  split
  · exact Or.inl rfl
  · exact Or.inr rfl

theorem ofFactors_comm (a b c : Terms) : ofFactors a b c = ofFactors b a c := by
  rw [ofFactors, ofFactors, orderFactors_comm]

/-- The factors of a constraint in canonical order are the given ones, one way or the other. -/
theorem ofFactors_eq_or (a b c : Terms) : ofFactors a b c = ⟨a, b, c⟩ ∨ ofFactors a b c = ⟨b, a, c⟩ := by
  rcases orderFactors_eq_or a b with h | h
  · exact Or.inl (by rw [ofFactors, h])
  · exact Or.inr (by rw [ofFactors, h])

/-! ### Divisors of one part -/

section Part

variable {t : Terms} {d k : Nat}

variable [hp : Fact F.modulus.Prime]

theorem isNonzero_of_mem_partDivisors (ht : Terms.IsReduced F t) (hd : d ∈ partDivisors F t) :
    F.IsNonzero d := by
  unfold partDivisors at hd
  split at hd
  · rename_i value hvalue
    rw [List.mem_singleton] at hd
    exact hd ▸ ht value (SortedMap.mem_values_iff.2 ⟨constantSignal, hvalue⟩)
  · exact PrimeField.isNonzero_of_mem_divisorCandidates ht hd

theorem partDivisors_ne_nil (ht : Terms.IsReduced F t) : partDivisors F t ≠ [] := by
  unfold partDivisors
  split
  · exact List.cons_ne_nil _ _
  · exact PrimeField.divisorCandidates_ne_nil ht

theorem mem_partDivisors_scale (ht : Terms.IsReduced F t) (hne : t.isEmpty = false)
    (hk : F.IsNonzero k) :
    d ∈ partDivisors F (Terms.scale F t k) ↔ ∃ e ∈ partDivisors F t, d = F.mul e k := by
  unfold partDivisors
  rw [Terms.get?_scale]
  cases t.get? constantSignal with
  | some value => simp
  | none =>
    exact PrimeField.mem_divisorCandidates_rescale ht (SortedMap.values_ne_nil hne) hk
      (Terms.isRescaling_values_scale k)

/-- Dividing a rescaled part by its divisors gives what dividing the part itself gives. -/
theorem exists_partDivisors_scale (ht : Terms.IsReduced F t) (hk : F.IsNonzero k)
    {P : Terms → Prop} :
    (∃ d ∈ partDivisors F (Terms.scale F t k), P (Terms.scale F (Terms.scale F t k) (F.inverse d))) ↔
      ∃ d ∈ partDivisors F t, P (Terms.scale F t (F.inverse d)) := by
  cases hempty : t.isEmpty with
  | true =>
    rw [Terms.scale_of_isEmpty hempty]
  | false =>
    constructor
    · rintro ⟨d, hd, hP⟩
      obtain ⟨e, he, rfl⟩ := (mem_partDivisors_scale ht hempty hk).1 hd
      rw [Terms.scale_scale_inverse (isNonzero_of_mem_partDivisors ht he) hk] at hP
      exact ⟨e, he, hP⟩
    · rintro ⟨e, he, hP⟩
      refine ⟨F.mul e k, (mem_partDivisors_scale ht hempty hk).2 ⟨e, he, rfl⟩, ?_⟩
      rw [Terms.scale_scale_inverse (isNonzero_of_mem_partDivisors ht he) hk]
      exact hP

theorem mem_partDivisors_rename {f : Signal → Signal} (ht : Terms.IsReduced F t)
    (hf : Function.Injective f) (hf0 : f constantSignal = constantSignal) :
    d ∈ partDivisors F (Terms.rename t f) ↔ d ∈ partDivisors F t := by
  have hconst : (Terms.rename t f).get? constantSignal = t.get? constantSignal := by
    have h := SortedMap.get?_mapKeys_of_injective (m := t) hf constantSignal
    rwa [hf0] at h
  unfold partDivisors
  rw [hconst]
  cases t.get? constantSignal with
  | some value => rfl
  | none =>
    exact PrimeField.mem_divisorCandidates_perm ht (SortedMap.values_mapKeys_perm hf.injOn).symm

end Part

/-! ### Normal forms -/

/-- The divisors of `c` beside those of the factors. -/
def outerDivisors (F : PrimeField) (r : R1csConstraint) (a b : Nat) : List Nat :=
  if r.isLinear then partDivisors F r.c else [F.mul a b]

/-- The constraint with every part multiplied by its own factor. -/
def scaled (F : PrimeField) (r : R1csConstraint) (ka kb kc : Nat) : R1csConstraint :=
  ⟨Terms.scale F r.a ka, Terms.scale F r.b kb, Terms.scale F r.c kc⟩

/-- The constraint with its factors exchanged. -/
def exchanged (r : R1csConstraint) : R1csConstraint := ⟨r.b, r.a, r.c⟩

/-- `s` is `r` with its parts multiplied by nonzero elements and maybe its factors exchanged. The
factor of `c` is the product of the others, unless the product vanishes. -/
def IsRescaling (F : PrimeField) (r s : R1csConstraint) : Prop :=
  ∃ ka kb kc, F.IsNonzero ka ∧ F.IsNonzero kb ∧ F.IsNonzero kc ∧
    (r.isLinear = false → kc = F.mul ka kb) ∧
    (s = r.scaled F ka kb kc ∨ s = (r.scaled F ka kb kc).exchanged)

theorem isLinear_scaled (r : R1csConstraint) (ka kb kc : Nat) :
    (r.scaled F ka kb kc).isLinear = r.isLinear := by
  simp [isLinear, scaled]

theorem isLinear_exchanged (r : R1csConstraint) : r.exchanged.isLinear = r.isLinear := by
  simp [isLinear, exchanged, Bool.or_comm]

theorem isLinear_eq_false_iff {r : R1csConstraint} :
    r.isLinear = false ↔ r.a.isEmpty = false ∧ r.b.isEmpty = false := by
  simp [isLinear]

section Prime

variable [hp : Fact F.modulus.Prime] {r s m : R1csConstraint}

theorem IsReduced.scaled (hr : r.IsReduced F) {ka kb kc : Nat} (ha : F.IsNonzero ka)
    (hb : F.IsNonzero kb) (hc : F.IsNonzero kc) : (r.scaled F ka kb kc).IsReduced F :=
  ⟨hr.a.scale ha, hr.b.scale hb, hr.c.scale hc⟩

omit hp in
theorem IsReduced.exchanged (hr : r.IsReduced F) : r.exchanged.IsReduced F := ⟨hr.b, hr.a, hr.c⟩

theorem IsReduced.rescaling (hr : r.IsReduced F) (h : r.IsRescaling F s) : s.IsReduced F := by
  obtain ⟨ka, kb, kc, ha, hb, hc, -, rfl | rfl⟩ := h
  · exact hr.scaled ha hb hc
  · exact (hr.scaled ha hb hc).exchanged

theorem isNonzero_of_mem_outerDivisors (hr : r.IsReduced F) {a b c : Nat} (ha : F.IsNonzero a)
    (hb : F.IsNonzero b) (hc : c ∈ r.outerDivisors F a b) : F.IsNonzero c := by
  unfold outerDivisors at hc
  split at hc
  · exact isNonzero_of_mem_partDivisors hr.c hc
  · rw [List.mem_singleton] at hc
    exact hc ▸ ha.mul hb

omit hp in
theorem mem_divisors_iff {d : Divisors} :
    d ∈ r.divisors F ↔
      d.a ∈ partDivisors F r.a ∧ d.b ∈ partDivisors F r.b ∧ d.c ∈ r.outerDivisors F d.a d.b := by
  obtain ⟨a, b, c⟩ := d
  unfold divisors outerDivisors
  cases r.isLinear <;> simp

theorem divide?_eq_some {a b c : Nat} (ha : F.IsNonzero a) (hb : F.IsNonzero b)
    (hc : F.IsNonzero c) :
    r.divide? F ⟨a, b, c⟩ = some (ofFactors (Terms.scale F r.a (F.inverse a))
      (Terms.scale F r.b (F.inverse b)) (Terms.scale F r.c (F.inverse c))) := by
  simp [divide?, Terms.divide?_eq_some, ha, hb, hc, ofFactors]

/-- The normal forms are the quotients by the divisors. -/
theorem mem_normalize_iff (hr : r.IsReduced F) :
    m ∈ r.normalize F ↔ ∃ a ∈ partDivisors F r.a, ∃ b ∈ partDivisors F r.b,
      ∃ c ∈ r.outerDivisors F a b, m = ofFactors (Terms.scale F r.a (F.inverse a))
        (Terms.scale F r.b (F.inverse b)) (Terms.scale F r.c (F.inverse c)) := by
  have hmem : m ∈ r.normalize F ↔ ∃ d ∈ r.divisors F, r.divide? F d = some m := by
    rw [normalize, ← SortedSet.mem_def, SortedSet.mem_ofList, List.mem_filterMap]
  rw [hmem]
  constructor
  · rintro ⟨⟨a, b, c⟩, hd, hm⟩
    obtain ⟨ha, hb, hc⟩ := mem_divisors_iff.1 hd
    have ha' := isNonzero_of_mem_partDivisors hr.a ha
    have hb' := isNonzero_of_mem_partDivisors hr.b hb
    rw [divide?_eq_some ha' hb' (isNonzero_of_mem_outerDivisors hr ha' hb' hc)] at hm
    exact ⟨a, ha, b, hb, c, hc, (Option.some.inj hm).symm⟩
  · rintro ⟨a, ha, b, hb, c, hc, rfl⟩
    have ha' := isNonzero_of_mem_partDivisors hr.a ha
    have hb' := isNonzero_of_mem_partDivisors hr.b hb
    exact ⟨⟨a, b, c⟩, mem_divisors_iff.2 ⟨ha, hb, hc⟩,
      divide?_eq_some ha' hb' (isNonzero_of_mem_outerDivisors hr ha' hb' hc)⟩

omit hp in
theorem normalize_congr (h : ∀ m, m ∈ r.normalize F ↔ m ∈ s.normalize F) :
    r.normalize F = s.normalize F := congrArg SortedSet.toList (SortedSet.ext h)

theorem mem_normalize_iff_of_isLinear (hr : r.IsReduced F) (hlin : r.isLinear = true) :
    m ∈ r.normalize F ↔ ∃ a ∈ partDivisors F r.a, ∃ b ∈ partDivisors F r.b,
      ∃ c ∈ partDivisors F r.c, m = ofFactors (Terms.scale F r.a (F.inverse a))
        (Terms.scale F r.b (F.inverse b)) (Terms.scale F r.c (F.inverse c)) := by
  rw [mem_normalize_iff hr]
  simp only [outerDivisors, hlin, if_true]

theorem mem_normalize_iff_of_not_isLinear (hr : r.IsReduced F) (hlin : r.isLinear = false) :
    m ∈ r.normalize F ↔ ∃ a ∈ partDivisors F r.a, ∃ b ∈ partDivisors F r.b,
      m = ofFactors (Terms.scale F r.a (F.inverse a)) (Terms.scale F r.b (F.inverse b))
        (Terms.scale F r.c (F.inverse (F.mul a b))) := by
  rw [mem_normalize_iff hr]
  simp [outerDivisors, hlin]

theorem normalize_scaled (hr : r.IsReduced F) {ka kb kc : Nat} (ha : F.IsNonzero ka)
    (hb : F.IsNonzero kb) (hc : F.IsNonzero kc) (hprod : r.isLinear = false → kc = F.mul ka kb) :
    (r.scaled F ka kb kc).normalize F = r.normalize F := by
  apply normalize_congr
  intro m
  have hlin := isLinear_scaled (F := F) r ka kb kc
  cases hr' : r.isLinear with
  | true =>
    rw [hr'] at hlin
    rw [mem_normalize_iff_of_isLinear (hr.scaled ha hb hc) hlin,
      mem_normalize_iff_of_isLinear hr hr']
    -- the three parts are rescaled on their own
    refine (exists_partDivisors_scale hr.a ha (P := fun A => ∃ b ∈ _, ∃ c ∈ _,
      m = ofFactors A (Terms.scale F (Terms.scale F r.b kb) (F.inverse b))
        (Terms.scale F (Terms.scale F r.c kc) (F.inverse c)))).trans ?_
    refine exists_congr fun a => and_congr_right fun _ => ?_
    refine (exists_partDivisors_scale hr.b hb (P := fun B => ∃ c ∈ _,
      m = ofFactors _ B (Terms.scale F (Terms.scale F r.c kc) (F.inverse c)))).trans ?_
    refine exists_congr fun b => and_congr_right fun _ => ?_
    exact exists_partDivisors_scale hr.c hc (P := fun C => m = ofFactors _ _ C)
  | false =>
    rw [hr'] at hlin
    rw [mem_normalize_iff_of_not_isLinear (hr.scaled ha hb hc) hlin,
      mem_normalize_iff_of_not_isLinear hr hr']
    obtain ⟨hane, hbne⟩ := isLinear_eq_false_iff.1 hr'
    -- the factor of `c` cancels against those of both divisors
    have hquot : ∀ a ∈ partDivisors F r.a, ∀ b ∈ partDivisors F r.b,
        ofFactors (Terms.scale F (Terms.scale F r.a ka) (F.inverse (F.mul a ka)))
          (Terms.scale F (Terms.scale F r.b kb) (F.inverse (F.mul b kb)))
          (Terms.scale F (Terms.scale F r.c kc) (F.inverse (F.mul (F.mul a ka) (F.mul b kb)))) =
        ofFactors (Terms.scale F r.a (F.inverse a)) (Terms.scale F r.b (F.inverse b))
          (Terms.scale F r.c (F.inverse (F.mul a b))) := by
      intro a hamem b hbmem
      have ha' := isNonzero_of_mem_partDivisors hr.a hamem
      have hb' := isNonzero_of_mem_partDivisors hr.b hbmem
      have hswap : F.mul (F.mul a ka) (F.mul b kb) = F.mul (F.mul a b) kc := by
        rw [hprod hr', PrimeField.mul_mul_mul_comm]
      rw [hswap, Terms.scale_scale_inverse ha' ha, Terms.scale_scale_inverse hb' hb,
        Terms.scale_scale_inverse (ha'.mul hb') hc]
    constructor
    · rintro ⟨a', ha', b', hb', rfl⟩
      obtain ⟨a, hamem, rfl⟩ := (mem_partDivisors_scale hr.a hane ha).1 ha'
      obtain ⟨b, hbmem, rfl⟩ := (mem_partDivisors_scale hr.b hbne hb).1 hb'
      exact ⟨a, hamem, b, hbmem, hquot a hamem b hbmem⟩
    · rintro ⟨a, hamem, b, hbmem, rfl⟩
      exact ⟨F.mul a ka, (mem_partDivisors_scale hr.a hane ha).2 ⟨a, hamem, rfl⟩,
        F.mul b kb, (mem_partDivisors_scale hr.b hbne hb).2 ⟨b, hbmem, rfl⟩,
        (hquot a hamem b hbmem).symm⟩

theorem mem_normalize_of_mem_exchanged (hr : r.IsReduced F) (hm : m ∈ r.exchanged.normalize F) :
    m ∈ r.normalize F := by
  rw [mem_normalize_iff hr.exchanged] at hm
  obtain ⟨b, hb, a, ha, c, hc, rfl⟩ := hm
  refine (mem_normalize_iff hr).2 ⟨a, ha, b, hb, c, ?_, ofFactors_comm _ _ _⟩
  unfold outerDivisors at hc ⊢
  rw [isLinear_exchanged] at hc
  rwa [PrimeField.mul_comm a b]

theorem normalize_exchanged (hr : r.IsReduced F) : r.exchanged.normalize F = r.normalize F :=
  normalize_congr fun _ =>
    ⟨mem_normalize_of_mem_exchanged hr, mem_normalize_of_mem_exchanged hr.exchanged⟩

/-- Rescaled constraints have the same normal forms. -/
theorem normalize_rescaling (hr : r.IsReduced F) (h : r.IsRescaling F s) :
    s.normalize F = r.normalize F := by
  obtain ⟨ka, kb, kc, ha, hb, hc, hprod, rfl | rfl⟩ := h
  · exact normalize_scaled hr ha hb hc hprod
  · rw [normalize_exchanged (hr.scaled ha hb hc), normalize_scaled hr ha hb hc hprod]

/-- A normal form is a rescaling of the constraint. -/
theorem isRescaling_of_mem_normalize (hr : r.IsReduced F) (hm : m ∈ r.normalize F) :
    r.IsRescaling F m := by
  obtain ⟨a, ha, b, hb, c, hc, rfl⟩ := (mem_normalize_iff hr).1 hm
  have ha' := isNonzero_of_mem_partDivisors hr.a ha
  have hb' := isNonzero_of_mem_partDivisors hr.b hb
  have hc' := isNonzero_of_mem_outerDivisors hr ha' hb' hc
  refine ⟨F.inverse a, F.inverse b, F.inverse c, ha'.inverse, hb'.inverse, hc'.inverse, ?_,
    ofFactors_eq_or _ _ _⟩
  intro hlin
  have hcab : c = F.mul a b := by simpa [outerDivisors, hlin] using hc
  rw [hcab, PrimeField.inverse_mul ha' hb']

theorem normalize_ne_nil (hr : r.IsReduced F) : r.normalize F ≠ [] := by
  obtain ⟨a, ha⟩ := List.exists_mem_of_ne_nil _ (partDivisors_ne_nil hr.a)
  obtain ⟨b, hb⟩ := List.exists_mem_of_ne_nil _ (partDivisors_ne_nil hr.b)
  obtain ⟨c, hc⟩ : ∃ c, c ∈ r.outerDivisors F a b := by
    unfold outerDivisors
    split
    · exact List.exists_mem_of_ne_nil _ (partDivisors_ne_nil hr.c)
    · exact ⟨F.mul a b, List.mem_singleton_self _⟩
  exact List.ne_nil_of_mem ((mem_normalize_iff hr).2 ⟨a, ha, b, hb, c, hc, rfl⟩)

end Prime

end R1csConstraint

/-! ## Polynomial constraints -/

namespace AcirConstraint

/-- Every coefficient is a nonzero element and the constant is an element. -/
structure HasReducedCoefficients (F : PrimeField) (p : AcirConstraint) : Prop where
  mult : Terms.IsReduced F p.mult
  linear : Terms.IsReduced F p.linear
  constant : p.constant < F.modulus

instance (F : PrimeField) (p : AcirConstraint) : Decidable (p.HasReducedCoefficients F) :=
  decidable_of_iff (Terms.IsReduced F p.mult ∧ Terms.IsReduced F p.linear ∧
      p.constant < F.modulus)
    ⟨fun h => ⟨h.1, h.2.1, h.2.2⟩, fun h => ⟨h.mult, h.linear, h.constant⟩⟩

/-- Every coefficient is a nonzero element, the constant is an element, and the terms mention the
constant signal nowhere and each pair of signals in ascending order. -/
structure IsReduced (F : PrimeField) (p : AcirConstraint) : Prop where
  mult : Terms.IsReduced F p.mult
  linear : Terms.IsReduced F p.linear
  constant : p.constant < F.modulus
  mult_keys : ∀ k ∈ p.mult.keys, constantSignal < k.1 ∧ k.1 ≤ k.2
  linear_keys : ∀ s ∈ p.linear.keys, constantSignal < s

instance (F : PrimeField) (p : AcirConstraint) : Decidable (p.IsReduced F) :=
  decidable_of_iff (Terms.IsReduced F p.mult ∧ Terms.IsReduced F p.linear ∧
      p.constant < F.modulus ∧ (∀ k ∈ p.mult.keys, constantSignal < k.1 ∧ k.1 ≤ k.2) ∧
      ∀ s ∈ p.linear.keys, constantSignal < s)
    ⟨fun h => ⟨h.1, h.2.1, h.2.2.1, h.2.2.2.1, h.2.2.2.2⟩,
      fun h => ⟨h.mult, h.linear, h.constant, h.mult_keys, h.linear_keys⟩⟩

/-- The terms mention the constant signal nowhere and each pair of signals in ascending order, as
construction leaves them. -/
structure HasProperKeys (p : AcirConstraint) : Prop where
  mult_keys : ∀ k ∈ p.mult.keys, constantSignal < k.1 ∧ k.1 ≤ k.2
  linear_keys : ∀ s ∈ p.linear.keys, constantSignal < s

instance (p : AcirConstraint) : Decidable p.HasProperKeys :=
  decidable_of_iff ((∀ k ∈ p.mult.keys, constantSignal < k.1 ∧ k.1 ≤ k.2) ∧
      ∀ s ∈ p.linear.keys, constantSignal < s)
    ⟨fun h => ⟨h.1, h.2⟩, fun h => ⟨h.mult_keys, h.linear_keys⟩⟩

/-- The constraint with all coefficients multiplied by one factor. -/
def scaled (F : PrimeField) (p : AcirConstraint) (k : Nat) : AcirConstraint :=
  ⟨Terms.scale F p.mult k, Terms.scale F p.linear k, F.mul p.constant k⟩

/-- `q` is `p` multiplied by a nonzero element. -/
def IsRescaling (F : PrimeField) (p q : AcirConstraint) : Prop :=
  ∃ k, F.IsNonzero k ∧ q = p.scaled F k

variable [hp : Fact F.modulus.Prime] {p q m : AcirConstraint} {d k : Nat}

omit hp in
theorem IsReduced.coefficients (h : p.IsReduced F) : p.HasReducedCoefficients F :=
  ⟨h.mult, h.linear, h.constant⟩

omit hp in
theorem IsReduced.hasProperKeys (h : p.IsReduced F) : p.HasProperKeys := ⟨h.mult_keys, h.linear_keys⟩

theorem HasReducedCoefficients.scaled (h : p.HasReducedCoefficients F) (hk : F.IsNonzero k) :
    (p.scaled F k).HasReducedCoefficients F where
  mult := h.mult.scale hk
  linear := h.linear.scale hk
  constant := PrimeField.mul_lt _ _

theorem IsReduced.scaled (h : p.IsReduced F) (hk : F.IsNonzero k) : (p.scaled F k).IsReduced F where
  mult := h.mult.scale hk
  linear := h.linear.scale hk
  constant := PrimeField.mul_lt _ _
  mult_keys := by
    simp only [AcirConstraint.scaled, Terms.keys_scale]
    exact h.mult_keys
  linear_keys := by
    simp only [AcirConstraint.scaled, Terms.keys_scale]
    exact h.linear_keys

theorem IsReduced.rescaling (h : p.IsReduced F) (hq : p.IsRescaling F q) : q.IsReduced F := by
  obtain ⟨k, hk, rfl⟩ := hq
  exact h.scaled hk

omit hp in
theorem divisors_of_constant_ne_zero (h : p.constant ≠ 0) : p.divisors F = [p.constant] := by
  rw [divisors, if_pos h]

omit hp in
theorem divisors_of_isNonlinear (h : p.constant = 0) (hmult : p.isNonlinear = true) :
    p.divisors F = F.divisorCandidates p.mult.values := by
  rw [divisors, if_neg (not_not_intro h), if_pos hmult]

omit hp in
theorem divisors_of_not_isNonlinear (h : p.constant = 0) (hmult : p.isNonlinear = false) :
    p.divisors F = F.divisorCandidates p.linear.values := by
  rw [divisors, if_neg (not_not_intro h), if_neg (Bool.eq_false_iff.1 hmult)]

theorem isNonzero_of_mem_divisors (h : p.HasReducedCoefficients F) (hd : d ∈ p.divisors F) : F.IsNonzero d := by
  unfold divisors at hd
  split at hd
  · rename_i hconst
    rw [List.mem_singleton] at hd
    exact hd ▸ ⟨Nat.pos_of_ne_zero hconst, h.constant⟩
  · split at hd
    · exact PrimeField.isNonzero_of_mem_divisorCandidates h.mult hd
    · exact PrimeField.isNonzero_of_mem_divisorCandidates h.linear hd

theorem divisors_ne_nil (h : p.HasReducedCoefficients F) : p.divisors F ≠ [] := by
  unfold divisors
  split
  · exact List.cons_ne_nil _ _
  · split
    · exact PrimeField.divisorCandidates_ne_nil h.mult
    · exact PrimeField.divisorCandidates_ne_nil h.linear

theorem divide?_eq_some (hd : F.IsNonzero d) :
    p.divide? F d = some (p.scaled F (F.inverse d)) := by
  simp [divide?, Terms.divide?_eq_some, PrimeField.div?_eq_some, hd, AcirConstraint.scaled]

/-- The normal forms are the quotients by the divisors. -/
theorem mem_normalize_iff (h : p.HasReducedCoefficients F) :
    m ∈ p.normalize F ↔ ∃ d ∈ p.divisors F, m = p.scaled F (F.inverse d) := by
  rw [normalize, ← SortedSet.mem_def, SortedSet.mem_ofList, List.mem_filterMap]
  refine exists_congr fun d => and_congr_right fun hd => ?_
  rw [divide?_eq_some (isNonzero_of_mem_divisors h hd), Option.some_inj, eq_comm]

/-- The polynomial without terms. -/
def IsZero (p : AcirConstraint) : Prop :=
  p.constant = 0 ∧ p.mult.isEmpty = true ∧ p.linear.isEmpty = true

omit hp in
theorem scaled_of_isZero (h : p.IsZero) (k : Nat) : p.scaled F k = p := by
  obtain ⟨hconst, hmult, hlinear⟩ := h
  rw [AcirConstraint.scaled, Terms.scale_of_isEmpty hmult, Terms.scale_of_isEmpty hlinear, hconst,
    PrimeField.mul, Nat.zero_mul, Nat.zero_mod, ← hconst]

theorem mem_divisors_scaled (h : p.HasReducedCoefficients F) (hne : ¬p.IsZero) (hk : F.IsNonzero k) :
    d ∈ (p.scaled F k).divisors F ↔ ∃ e ∈ p.divisors F, d = F.mul e k := by
  have hnonlinear : (p.scaled F k).isNonlinear = p.isNonlinear := by
    simp [isNonlinear, AcirConstraint.scaled]
  by_cases hzero : p.constant = 0
  · have hzero' : (p.scaled F k).constant = 0 := by
      rw [AcirConstraint.scaled, hzero, PrimeField.mul, Nat.zero_mul, Nat.zero_mod]
    cases hmult : p.isNonlinear with
    | true =>
      have hempty : p.mult.isEmpty = false := by simpa [isNonlinear] using hmult
      rw [divisors_of_isNonlinear hzero' (hnonlinear.trans hmult),
        divisors_of_isNonlinear hzero hmult]
      exact PrimeField.mem_divisorCandidates_rescale h.mult (SortedMap.values_ne_nil hempty) hk
        (Terms.isRescaling_values_scale k)
    | false =>
      have hempty : p.mult.isEmpty = true := by simpa [isNonlinear] using hmult
      have hlinear : p.linear.isEmpty = false := by
        rw [Bool.eq_false_iff]
        exact fun hl => hne ⟨hzero, hempty, hl⟩
      rw [divisors_of_not_isNonlinear hzero' (hnonlinear.trans hmult),
        divisors_of_not_isNonlinear hzero hmult]
      exact PrimeField.mem_divisorCandidates_rescale h.linear (SortedMap.values_ne_nil hlinear) hk
        (Terms.isRescaling_values_scale k)
  · have hnonzero : F.IsNonzero p.constant := ⟨Nat.pos_of_ne_zero hzero, h.constant⟩
    have hzero' : (p.scaled F k).constant ≠ 0 := Nat.pos_iff_ne_zero.1 (hnonzero.mul hk).1
    rw [divisors_of_constant_ne_zero hzero, divisors_of_constant_ne_zero hzero']
    simp [AcirConstraint.scaled]

theorem scaled_scaled_inverse (hd : F.IsNonzero d) (hk : F.IsNonzero k) :
    (p.scaled F k).scaled F (F.inverse (F.mul d k)) = p.scaled F (F.inverse d) := by
  simp only [AcirConstraint.scaled, Terms.scale_scale_inverse hd hk,
    PrimeField.mul_inverse_mul hd hk]

/-- Rescaled constraints have the same normal forms. -/
theorem normalize_rescaling (h : p.HasReducedCoefficients F) (hq : p.IsRescaling F q) :
    q.normalize F = p.normalize F := by
  obtain ⟨k, hk, rfl⟩ := hq
  by_cases hzero : p.IsZero
  · rw [scaled_of_isZero hzero]
  · refine congrArg SortedSet.toList (SortedSet.ext fun m => ?_)
    show m ∈ (p.scaled F k).normalize F ↔ m ∈ p.normalize F
    rw [mem_normalize_iff (h.scaled hk), mem_normalize_iff h]
    constructor
    · rintro ⟨d, hd, rfl⟩
      obtain ⟨e, he, rfl⟩ := (mem_divisors_scaled h hzero hk).1 hd
      exact ⟨e, he, scaled_scaled_inverse (isNonzero_of_mem_divisors h he) hk⟩
    · rintro ⟨e, he, rfl⟩
      exact ⟨F.mul e k, (mem_divisors_scaled h hzero hk).2 ⟨e, he, rfl⟩,
        (scaled_scaled_inverse (isNonzero_of_mem_divisors h he) hk).symm⟩

/-- A normal form is a rescaling of the constraint. -/
theorem isRescaling_of_mem_normalize (h : p.HasReducedCoefficients F) (hm : m ∈ p.normalize F) :
    p.IsRescaling F m := by
  obtain ⟨d, hd, rfl⟩ := (mem_normalize_iff h).1 hm
  exact ⟨F.inverse d, (isNonzero_of_mem_divisors h hd).inverse, rfl⟩

theorem normalize_ne_nil (h : p.HasReducedCoefficients F) : p.normalize F ≠ [] := by
  obtain ⟨d, hd⟩ := List.exists_mem_of_ne_nil _ (divisors_ne_nil h)
  exact List.ne_nil_of_mem ((mem_normalize_iff h).2 ⟨d, hd, rfl⟩)

end AcirConstraint

/-! ## Constraints of either dialect -/

namespace Constraint

/-- Every coefficient is a nonzero element, and a constant is an element. -/
def HasReducedCoefficients (F : PrimeField) : Constraint → Prop
  | .r1cs r => r.IsReduced F
  | .acir p => p.HasReducedCoefficients F

instance (F : PrimeField) (c : Constraint) : Decidable (c.HasReducedCoefficients F) :=
  match c with
  | .r1cs r => inferInstanceAs (Decidable (r.IsReduced F))
  | .acir p => inferInstanceAs (Decidable (p.HasReducedCoefficients F))

/-- Every coefficient is reduced. -/
def IsReduced (F : PrimeField) : Constraint → Prop
  | .r1cs r => r.IsReduced F
  | .acir p => p.IsReduced F

instance (F : PrimeField) (c : Constraint) : Decidable (c.IsReduced F) :=
  match c with
  | .r1cs r => inferInstanceAs (Decidable (r.IsReduced F))
  | .acir p => inferInstanceAs (Decidable (p.IsReduced F))

/-- The terms are keyed as construction leaves them. -/
def HasProperKeys : Constraint → Prop
  | .r1cs _ => True
  | .acir p => p.HasProperKeys

instance (c : Constraint) : Decidable c.HasProperKeys :=
  match c with
  | .r1cs _ => inferInstanceAs (Decidable True)
  | .acir p => inferInstanceAs (Decidable p.HasProperKeys)

/-- `d` is `c` up to nonzero factors that do not change its meaning. -/
def IsRescaling (F : PrimeField) : Constraint → Constraint → Prop
  | .r1cs r, .r1cs s => r.IsRescaling F s
  | .acir p, .acir q => p.IsRescaling F q
  | _, _ => False

variable [hp : Fact F.modulus.Prime] {c d n : Constraint}

omit hp in
theorem nodup_normalize (c : Constraint) : (c.normalize F).Nodup := by
  cases c with
  | r1cs r => exact (SortedSet.nodup_toList _).map fun r s h => by cases h; rfl
  | acir p => exact (SortedSet.nodup_toList _).map fun p q h => by cases h; rfl

omit hp in
theorem IsReduced.coefficients (hc : c.IsReduced F) : c.HasReducedCoefficients F := by
  cases c with
  | r1cs r => exact hc
  | acir p => exact AcirConstraint.IsReduced.coefficients hc

omit hp in
theorem IsReduced.hasProperKeys (hc : c.IsReduced F) : c.HasProperKeys := by
  cases c with
  | r1cs r => exact trivial
  | acir p => exact AcirConstraint.IsReduced.hasProperKeys hc

theorem normalize_rescaling (hc : c.HasReducedCoefficients F) (h : c.IsRescaling F d) :
    d.normalize F = c.normalize F := by
  cases c with
  | r1cs r =>
    cases d with
    | r1cs s => exact congrArg (List.map r1cs) (R1csConstraint.normalize_rescaling hc h)
    | acir q => exact h.elim
  | acir p =>
    cases d with
    | r1cs s => exact h.elim
    | acir q => exact congrArg (List.map acir) (AcirConstraint.normalize_rescaling hc h)

theorem isRescaling_of_mem_normalize (hc : c.HasReducedCoefficients F) (hn : n ∈ c.normalize F) :
    c.IsRescaling F n := by
  cases c with
  | r1cs r =>
    obtain ⟨m, hm, rfl⟩ := List.mem_map.1 hn
    exact R1csConstraint.isRescaling_of_mem_normalize hc hm
  | acir p =>
    obtain ⟨m, hm, rfl⟩ := List.mem_map.1 hn
    exact AcirConstraint.isRescaling_of_mem_normalize hc hm

theorem normalize_ne_nil (hc : c.HasReducedCoefficients F) : c.normalize F ≠ [] := by
  cases c with
  | r1cs r => simpa [normalize] using R1csConstraint.normalize_ne_nil hc
  | acir p => simpa [normalize] using AcirConstraint.normalize_ne_nil hc

/-- A normal form has the normal forms of the constraint it comes from. -/
theorem normalize_of_mem_normalize (hc : c.HasReducedCoefficients F) (hn : n ∈ c.normalize F) :
    n.normalize F = c.normalize F :=
  normalize_rescaling hc (isRescaling_of_mem_normalize hc hn)

omit hp in
theorem exists_mem_normalize_of_isScalarMultipleOf (h : c.isScalarMultipleOf F d = true) :
    ∃ n, n ∈ c.normalize F ∧ n ∈ d.normalize F := by
  simp only [isScalarMultipleOf, List.any_eq_true, decide_eq_true_eq] at h
  obtain ⟨n, hd, hc⟩ := h
  exact ⟨n, hc, hd⟩

/-- Constraints with one normal form in common have all of them in common. -/
theorem isScalarMultipleOf_iff_normalize_eq (hc : c.HasReducedCoefficients F)
    (hd : d.HasReducedCoefficients F) :
    c.isScalarMultipleOf F d = true ↔ c.normalize F = d.normalize F := by
  constructor
  · intro h
    obtain ⟨n, hnc, hnd⟩ := exists_mem_normalize_of_isScalarMultipleOf h
    rw [← normalize_of_mem_normalize hc hnc, normalize_of_mem_normalize hd hnd]
  · intro h
    obtain ⟨n, hn⟩ := List.exists_mem_of_ne_nil _ (normalize_ne_nil hc)
    simp only [isScalarMultipleOf, List.any_eq_true, decide_eq_true_eq]
    exact ⟨n, h ▸ hn, hn⟩

end Constraint

end CircuitEquiv
