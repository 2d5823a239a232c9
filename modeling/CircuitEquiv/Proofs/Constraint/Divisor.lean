-- SUMMARY: Candidate divisors are values of the list, and they follow every rescaling of it.
import CircuitEquiv.Constraint.Divisor
import CircuitEquiv.Proofs.Data.Ordered
import CircuitEquiv.Proofs.Field.Arithmetic
import Mathlib.Data.Finset.Prod
import Mathlib.Data.List.Sort

/-!
# Candidate divisors

The candidates of a list do not depend on its order, and the candidates of a rescaled list are the
rescaled candidates. Both follow from one statement about a list that is a permutation of a
rescaled one.

Values that sum to zero are thinned out in rounds, and what a round keeps is described on the set of
the values. Two ordered pairs of members have the same ratio if their products taken crosswise are
equal, so ratios are counted without a division; a round keeps the numerators of the least frequent
ones. Rounds go on while they lose a member, and none loses all, so there are fewer of them than
members.
-/

namespace CircuitEquiv.PrimeField

variable {F : PrimeField} [hp : Fact F.modulus.Prime]

/-- A list of nonzero elements. -/
def AllNonzero (F : PrimeField) (l : List Nat) : Prop := ∀ v ∈ l, F.IsNonzero v

instance (F : PrimeField) (l : List Nat) : Decidable (F.AllNonzero l) :=
  inferInstanceAs (Decidable (∀ v ∈ l, F.IsNonzero v))

/-- A rearrangement of a list in which every element is multiplied by `k`. -/
def IsRescaling (F : PrimeField) (k : Nat) (l l' : List Nat) : Prop :=
  l'.Perm (l.map (F.mul · k))

omit hp in
theorem isRescaling_one {l l' : List Nat} (h : F.AllNonzero l) (hperm : l.Perm l') :
    F.IsRescaling 1 l l' := by
  have hone : l.map (F.mul · 1) = l := by
    conv_rhs => rw [← List.map_id l]
    exact List.map_congr_left fun v hv => mul_one (h v hv).2
  rw [IsRescaling, hone]
  exact hperm.symm

theorem AllNonzero.rescale {l l' : List Nat} {k : Nat} (h : F.AllNonzero l) (hk : F.IsNonzero k)
    (hl : F.IsRescaling k l l') : F.AllNonzero l' := by
  intro v hv
  obtain ⟨w, hw, rfl⟩ := List.mem_map.1 (hl.mem_iff.1 hv)
  exact (h w hw).mul hk

theorem mul_ne_mul {a b k : Nat} (ha : F.IsNonzero a) (hb : F.IsNonzero b) (hk : F.IsNonzero k) :
    F.mul a k ≠ F.mul b k ↔ a ≠ b := by
  constructor
  · rintro h rfl
    exact h rfl
  · intro h heq
    exact h (mul_injective ha.2 hb.2 hk heq)

/-! ## Values that do not sum to zero -/

theorem sum_rescale {l l' : List Nat} {k : Nat} (hl : F.IsRescaling k l l') :
    F.sum l' = F.mul (F.sum l) k := by
  apply eq_of_cast_eq (sum_lt _) (mul_lt _ _)
  rw [cast_sum, cast_mul, cast_sum, (hl.map _).sum_eq, List.map_map, ← List.sum_map_mul_right]
  congr 1
  exact List.map_congr_left fun v _ => by simp

/-- Quotients of one nonzero element tell their divisors apart. -/
theorem quotient_injective {t a b : Nat} (ht : F.IsNonzero t) (ha : F.IsNonzero a) (hb : F.IsNonzero b)
    (h : F.mul t (F.inverse a) = F.mul t (F.inverse b)) : a = b := by
  rw [mul_inverse_eq_iff ha hb, mul_comm t b, mul_comm t a] at h
  exact (mul_injective hb.2 ha.2 ht h).symm

/-- The value that `minOn?` picks is the only one that attains the least quotient. -/
theorem mem_minOn?_div_iff {l : List Nat} {t d : Nat} (hl : F.AllNonzero l) (ht : F.IsNonzero t) :
    d ∈ (l.minOn? fun v => (F.div? t v).getD 0).toList ↔
      d ∈ l ∧ ∀ v ∈ l, F.mul t (F.inverse d) ≤ F.mul t (F.inverse v) := by
  have hdiv : ∀ v ∈ l, (F.div? t v).getD 0 = F.mul t (F.inverse v) := fun v hv => by
    rw [div?_eq_some (hl v hv), Option.getD_some]
  have hleast : ∀ d, (l.minOn? fun v => (F.div? t v).getD 0) = some d →
      d ∈ l ∧ ∀ v ∈ l, F.mul t (F.inverse d) ≤ F.mul t (F.inverse v) := by
    intro d hd
    have hmem : d ∈ l := List.minOn?_mem hd
    refine ⟨hmem, fun v hv => ?_⟩
    have hle := List.apply_get_minOn?_le_of_mem (f := fun v => (F.div? t v).getD 0) hv
    simpa only [hd, Option.get_some, hdiv d hmem, hdiv v hv] using hle
  rw [Option.mem_toList]
  refine ⟨hleast d, fun ⟨hd, hmin⟩ => ?_⟩
  have hsome := List.isSome_minOn?_of_mem (f := fun v => (F.div? t v).getD 0) hd
  obtain ⟨e, he⟩ := Option.isSome_iff_exists.1 hsome
  have ⟨hel, hemin⟩ := hleast e he
  have hquot : F.mul t (F.inverse e) = F.mul t (F.inverse d) := Nat.le_antisymm (hemin d hd) (hmin e hel)
  rw [he, quotient_injective ht (hl e hel) (hl d hd) hquot]

theorem mem_minOn?_rescale {l l' : List Nat} {k t d : Nat} (hl : F.AllNonzero l)
    (hk : F.IsNonzero k) (ht : F.IsNonzero t) (h : F.IsRescaling k l l') :
    d ∈ (l'.minOn? fun v => (F.div? (F.mul t k) v).getD 0).toList ↔
      ∃ e ∈ (l.minOn? fun v => (F.div? t v).getD 0).toList, d = F.mul e k := by
  rw [mem_minOn?_div_iff (hl.rescale hk h) (ht.mul hk)]
  have hquot : ∀ v ∈ l, F.mul (F.mul t k) (F.inverse (F.mul v k)) = F.mul t (F.inverse v) :=
    fun v hv => mul_inverse_mul (hl v hv) hk
  constructor
  · rintro ⟨hd, hmin⟩
    obtain ⟨e, he, rfl⟩ := List.mem_map.1 (h.mem_iff.1 hd)
    refine ⟨e, (mem_minOn?_div_iff hl ht).2 ⟨he, fun v hv => ?_⟩, rfl⟩
    have := hmin (F.mul v k) (h.mem_iff.2 (List.mem_map_of_mem hv))
    rwa [hquot e he, hquot v hv] at this
  · rintro ⟨e, he, rfl⟩
    have ⟨hel, hmin⟩ := (mem_minOn?_div_iff hl ht).1 he
    refine ⟨h.mem_iff.2 (List.mem_map_of_mem hel), fun v hv => ?_⟩
    obtain ⟨w, hw, rfl⟩ := List.mem_map.1 (h.mem_iff.1 hv)
    rw [hquot e hel, hquot w hw]
    exact hmin w hw

/-! ## Values that sum to zero -/

theorem inverses?_eq_some {l : List Nat} (h : F.AllNonzero l) :
    F.inverses? l = some (l.map fun b => (b, F.inverse b)) := by
  induction l with
  | nil => rfl
  | cons b rest ih =>
    have hb := inv?_eq_some (h b List.mem_cons_self).cast_ne_zero
    have hrest := ih fun v hv => h v (List.mem_cons_of_mem _ hv)
    rw [inverses?] at hrest
    simp [inverses?, List.mapM_cons, hb, hrest]

/-- The ratios of `a` to the other members of a list. -/
def ratios (F : PrimeField) (l : List Nat) (a : Nat) : List Nat :=
  (l.filter (· ≠ a)).map fun b => F.mul a (F.inverse b)

/-- How often the ratios of `a` occur among all ratios of a list. -/
def frequencies (F : PrimeField) (l : List Nat) (a : Nat) : List Nat :=
  (F.ratios l a).map fun ratio => (l.flatMap (F.ratios l)).count ratio

omit hp in
theorem ratiosOf_eq (l : List Nat) (a : Nat) :
    F.ratiosOf (l.map fun b => (b, F.inverse b)) a = F.ratios l a := by
  simp only [ratiosOf, ratios, List.filter_map, List.map_map]
  rfl

theorem rarestNumerators_eq {l : List Nat} (h : F.AllNonzero l) :
    F.rarestNumerators l =
      match (l.flatMap (F.frequencies l)).min? with
      | none => l
      | some least => l.filter fun a => least ∈ F.frequencies l a := by
  have hratios : F.ratiosOf (l.map fun b => (b, F.inverse b)) = F.ratios l := funext (ratiosOf_eq l)
  simp only [rarestNumerators, inverses?_eq_some h, hratios, getD_tally]
  rfl

theorem ratios_rescale {l l' : List Nat} {k a : Nat} (hl : F.AllNonzero l) (hk : F.IsNonzero k)
    (ha : F.IsNonzero a) (h : F.IsRescaling k l l') :
    (F.ratios l' (F.mul a k)).Perm (F.ratios l a) := by
  refine ((h.filter _).map _).trans (List.Perm.of_eq ?_)
  rw [List.filter_map, List.map_map, ratios]
  have hfilter : l.filter ((fun b => decide (b ≠ F.mul a k)) ∘ (F.mul · k)) = l.filter (· ≠ a) :=
    List.filter_congr fun b hb => decide_eq_decide.2 (mul_ne_mul (hl b hb) ha hk)
  rw [hfilter]
  exact List.map_congr_left fun b hb => mul_inverse_mul (hl b (List.mem_of_mem_filter hb)) hk

theorem flatMap_ratios_rescale {l l' : List Nat} {k : Nat} (hl : F.AllNonzero l)
    (hk : F.IsNonzero k) (h : F.IsRescaling k l l') :
    (l'.flatMap (F.ratios l')).Perm (l.flatMap (F.ratios l)) := by
  refine (h.flatMap_right _).trans ?_
  rw [List.flatMap_map]
  exact List.Perm.flatMap_left l fun a ha => ratios_rescale hl hk (hl a ha) h

theorem frequencies_rescale {l l' : List Nat} {k a : Nat} (hl : F.AllNonzero l)
    (hk : F.IsNonzero k) (ha : F.IsNonzero a) (h : F.IsRescaling k l l') :
    (F.frequencies l' (F.mul a k)).Perm (F.frequencies l a) := by
  have hcount := fun ratio => (flatMap_ratios_rescale hl hk h).count_eq ratio
  simp only [frequencies, hcount]
  exact (ratios_rescale hl hk ha h).map _

omit hp in
theorem min?_eq_of_perm {l l' : List Nat} (h : l.Perm l') : l.min? = l'.min? := by
  cases hl : l.min? with
  | none =>
    rw [List.min?_eq_none_iff] at hl
    subst hl
    rw [← List.Perm.nil_eq h]
    rfl
  | some m =>
    rw [List.min?_eq_some_iff] at hl
    symm
    rw [List.min?_eq_some_iff]
    exact ⟨h.mem_iff.1 hl.1, fun b hb => hl.2 b (h.mem_iff.2 hb)⟩

theorem rarestNumerators_rescale {l l' : List Nat} {k : Nat} (hl : F.AllNonzero l)
    (hk : F.IsNonzero k) (h : F.IsRescaling k l l') :
    F.IsRescaling k (F.rarestNumerators l) (F.rarestNumerators l') := by
  rw [rarestNumerators_eq hl, rarestNumerators_eq (hl.rescale hk h)]
  have hfreq : (l'.flatMap (F.frequencies l')).Perm (l.flatMap (F.frequencies l)) := by
    refine (h.flatMap_right _).trans ?_
    rw [List.flatMap_map]
    exact List.Perm.flatMap_left l fun a ha => frequencies_rescale hl hk (hl a ha) h
  rw [min?_eq_of_perm hfreq]
  cases (l.flatMap (F.frequencies l)).min? with
  | none => exact h
  | some least =>
    refine (h.filter _).trans (List.Perm.of_eq ?_)
    rw [List.filter_map]
    congr 1
    exact List.filter_congr fun a ha =>
      decide_eq_decide.2 (frequencies_rescale hl hk (hl a ha) h).mem_iff

omit hp in
theorem rarestNumerators_sublist (l : List Nat) : (F.rarestNumerators l).Sublist l := by
  unfold rarestNumerators
  split
  · exact List.Sublist.refl l
  · dsimp only
    split
    · exact List.Sublist.refl l
    · exact List.filter_sublist

omit hp in
theorem AllNonzero.rarestNumerators {l : List Nat} (h : F.AllNonzero l) :
    F.AllNonzero (F.rarestNumerators l) := fun v hv => h v ((rarestNumerators_sublist l).subset hv)

/-- Induction along the rounds of thinning out. -/
@[elab_as_elim]
theorem thinOut_induction (F : PrimeField) {motive : List Nat → Prop}
    (step : ∀ l, (F.rarestNumerators l).length < l.length → motive (F.rarestNumerators l) → motive l)
    (stop : ∀ l, ¬(F.rarestNumerators l).length < l.length → motive l) (l : List Nat) : motive l :=
  thinOut.induct F motive step stop l

omit hp in
theorem thinOut_of_lt {l : List Nat} (h : (F.rarestNumerators l).length < l.length) :
    F.thinOut l = F.thinOut (F.rarestNumerators l) := by
  rw [thinOut, dif_pos h]

omit hp in
theorem thinOut_of_not_lt {l : List Nat} (h : ¬(F.rarestNumerators l).length < l.length) :
    F.thinOut l = l := by
  rw [thinOut, dif_neg h]

omit hp in
theorem thinOut_sublist (l : List Nat) : (F.thinOut l).Sublist l := by
  induction l using thinOut_induction F with
  | step l hlt ih =>
    rw [thinOut_of_lt hlt]
    exact ih.trans (rarestNumerators_sublist l)
  | stop l hlt =>
    rw [thinOut_of_not_lt hlt]

theorem thinOut_rescale {l l' : List Nat} {k : Nat} (hl : F.AllNonzero l) (hk : F.IsNonzero k)
    (h : F.IsRescaling k l l') : F.IsRescaling k (F.thinOut l) (F.thinOut l') := by
  have hlength : ∀ {m m' : List Nat}, F.IsRescaling k m m' → m'.length = m.length := fun hm => by
    rw [hm.length_eq, List.length_map]
  induction l using thinOut_induction F generalizing l' with
  | step l hlt ih =>
    have hkept := rarestNumerators_rescale hl hk h
    have hlt' : (F.rarestNumerators l').length < l'.length := by
      rw [hlength hkept, hlength h]
      exact hlt
    rw [thinOut_of_lt hlt, thinOut_of_lt hlt']
    exact ih hl.rarestNumerators hkept
  | stop l hlt =>
    have hkept := rarestNumerators_rescale hl hk h
    have hlt' : ¬(F.rarestNumerators l').length < l'.length := by
      rw [hlength hkept, hlength h]
      exact hlt
    rw [thinOut_of_not_lt hlt, thinOut_of_not_lt hlt']
    exact h

/-- Thinning out leaves something over: the numerators of the rarest ratio stay. -/
theorem rarestNumerators_ne_nil {l : List Nat} (hl : F.AllNonzero l) (h : l ≠ []) :
    F.rarestNumerators l ≠ [] := by
  rw [rarestNumerators_eq hl]
  cases hmin : (l.flatMap (F.frequencies l)).min? with
  | none => exact h
  | some least =>
    have hmem := (List.min?_eq_some_iff.1 hmin).1
    obtain ⟨a, ha, hfreq⟩ := List.mem_flatMap.1 hmem
    exact List.ne_nil_of_mem (List.mem_filter.2 ⟨ha, decide_eq_true hfreq⟩)

theorem thinOut_ne_nil {l : List Nat} (hl : F.AllNonzero l) (h : l ≠ []) : F.thinOut l ≠ [] := by
  induction l using thinOut_induction F with
  | step l hlt ih =>
    rw [thinOut_of_lt hlt]
    exact ih hl.rarestNumerators (rarestNumerators_ne_nil hl h)
  | stop l hlt =>
    rw [thinOut_of_not_lt hlt]
    exact h

/-! ## Rounds on sets -/

/-- How many ordered pairs of different members have the ratio of the pair. -/
def ratioFrequency (F : PrimeField) (s : Finset Nat) (pair : Nat × Nat) : Nat :=
  (s.offDiag.filter fun other => F.mul pair.1 other.2 = F.mul other.1 pair.2).card

/-- The members that are numerators of a ratio of least frequency. -/
def keepRarest (F : PrimeField) (s : Finset Nat) : Finset Nat :=
  s.filter fun a => ∃ b ∈ s, b ≠ a ∧
    ∀ other ∈ s.offDiag, F.ratioFrequency s (a, b) ≤ F.ratioFrequency s other

/-- The given number of rounds leads from one set to the other: each of them loses a member, and one more round
would lose none. A single member has no ratio and stays. -/
inductive ThinsOut (F : PrimeField) : Nat → Finset Nat → Finset Nat → Prop
  | stop {s : Finset Nat} : (1 < s.card → F.keepRarest s = s) → ThinsOut F 0 s s
  | round {s result : Finset Nat} {rounds : Nat} : 1 < s.card → F.keepRarest s ≠ s →
      ThinsOut F rounds (F.keepRarest s) result → ThinsOut F (rounds + 1) s result

/-! ## Ordered pairs of a list -/

/-- The ordered pairs of different members of a list. -/
def orderedPairs (l : List Nat) : List (Nat × Nat) :=
  l.flatMap fun a => (l.filter (· ≠ a)).map (a, ·)

theorem mem_orderedPairs {l : List Nat} {a b : Nat} :
    (a, b) ∈ orderedPairs l ↔ a ∈ l ∧ b ∈ l ∧ b ≠ a := by
  simp only [orderedPairs, List.mem_flatMap, List.mem_map, List.mem_filter, decide_eq_true_eq, Prod.mk.injEq]
  constructor
  · rintro ⟨_, ha, _, ⟨hb, hne⟩, rfl, rfl⟩
    exact ⟨ha, hb, hne⟩
  · rintro ⟨ha, hb, hne⟩
    exact ⟨a, ha, b, ⟨hb, hne⟩, rfl, rfl⟩

theorem toFinset_orderedPairs (l : List Nat) : (orderedPairs l).toFinset = l.toFinset.offDiag := by
  ext ⟨a, b⟩
  rw [List.mem_toFinset, mem_orderedPairs, Finset.mem_offDiag, List.mem_toFinset, List.mem_toFinset, ne_comm]

theorem nodup_orderedPairs {l : List Nat} (h : l.Nodup) : (orderedPairs l).Nodup := by
  refine List.nodup_flatMap.2 ⟨fun a _ => ?_, h.imp fun hab => ?_⟩
  · exact (h.filter _).map fun b c hbc => (Prod.mk.inj hbc).2
  · -- the first component tells the groups apart
    intro pair ha hb
    obtain ⟨_, -, rfl⟩ := List.mem_map.1 ha
    obtain ⟨_, -, heq⟩ := List.mem_map.1 hb
    exact hab (Prod.mk.inj heq).1.symm

theorem flatMap_ratios (F : PrimeField) (l : List Nat) :
    l.flatMap (F.ratios l) = (orderedPairs l).map fun pair => F.mul pair.1 (F.inverse pair.2) := by
  simp only [orderedPairs, List.map_flatMap, List.map_map]
  rfl

/-! ## Rounds on lists -/

section Rounds

variable {l : List Nat} {a b n : Nat}

/-- How often a ratio occurs in the list of all ratios is its frequency in the set. -/
theorem count_ratios (hl : F.AllNonzero l) (hnodup : l.Nodup) (hb : F.IsNonzero b) :
    (l.flatMap (F.ratios l)).count (F.mul a (F.inverse b)) = F.ratioFrequency l.toFinset (a, b) := by
  have hratio : ∀ pair ∈ orderedPairs l,
      F.mul pair.1 (F.inverse pair.2) = F.mul a (F.inverse b) ↔ F.mul a pair.2 = F.mul pair.1 b := by
    rintro ⟨c, d⟩ hpair
    rw [eq_comm]
    exact mul_inverse_eq_iff hb (hl d (mem_orderedPairs.1 hpair).2.1)
  calc (l.flatMap (F.ratios l)).count (F.mul a (F.inverse b))
      = (orderedPairs l).countP fun pair => decide (F.mul a pair.2 = F.mul pair.1 b) := by
        rw [flatMap_ratios, List.count_eq_countP, List.countP_map]
        exact List.countP_congr fun pair hpair => by
          rw [Function.comp_apply, beq_iff_eq, decide_eq_true_eq, hratio pair hpair]
    _ = ((orderedPairs l).filter fun pair => decide (F.mul a pair.2 = F.mul pair.1 b)).toFinset.card := by
        rw [List.countP_eq_length_filter, List.toFinset_card_of_nodup ((nodup_orderedPairs hnodup).filter _)]
    _ = F.ratioFrequency l.toFinset (a, b) := by
        simp only [ratioFrequency, List.toFinset_filter, toFinset_orderedPairs, decide_eq_true_eq]

theorem mem_frequencies_iff (hl : F.AllNonzero l) (hnodup : l.Nodup) :
    n ∈ F.frequencies l a ↔ ∃ b ∈ l, b ≠ a ∧ F.ratioFrequency l.toFinset (a, b) = n := by
  simp only [frequencies, ratios, List.map_map, List.mem_map, List.mem_filter, decide_eq_true_eq, and_assoc,
    Function.comp_apply]
  exact exists_congr fun b => and_congr_right fun hb => by rw [count_ratios hl hnodup (hl b hb)]

theorem mem_flatMap_frequencies_iff (hl : F.AllNonzero l) (hnodup : l.Nodup) :
    n ∈ l.flatMap (F.frequencies l) ↔
      ∃ pair ∈ l.toFinset.offDiag, F.ratioFrequency l.toFinset pair = n := by
  simp only [List.mem_flatMap, mem_frequencies_iff hl hnodup]
  constructor
  · rintro ⟨a, ha, b, hb, hne, hn⟩
    exact ⟨(a, b), Finset.mem_offDiag.2 ⟨List.mem_toFinset.2 ha, List.mem_toFinset.2 hb, hne.symm⟩, hn⟩
  · rintro ⟨⟨a, b⟩, hpair, hn⟩
    obtain ⟨ha, hb, hne⟩ := Finset.mem_offDiag.1 hpair
    exact ⟨a, List.mem_toFinset.1 ha, b, List.mem_toFinset.1 hb, hne.symm, hn⟩

/-- The pairs of least frequency are those whose ratio is not more frequent than any other. -/
theorem ratioFrequency_eq_least_iff {least : Nat} {pair : Nat × Nat} (hl : F.AllNonzero l) (hnodup : l.Nodup)
    (hleast : (l.flatMap (F.frequencies l)).min? = some least) (hpair : pair ∈ l.toFinset.offDiag) :
    F.ratioFrequency l.toFinset pair = least ↔
      ∀ other ∈ l.toFinset.offDiag, F.ratioFrequency l.toFinset pair ≤ F.ratioFrequency l.toFinset other := by
  obtain ⟨hmem, hle⟩ := List.min?_eq_some_iff.1 hleast
  have hle' : ∀ other ∈ l.toFinset.offDiag, least ≤ F.ratioFrequency l.toFinset other := fun other hother =>
    hle _ ((mem_flatMap_frequencies_iff hl hnodup).2 ⟨other, hother, rfl⟩)
  constructor
  · rintro rfl
    exact hle'
  · intro hall
    obtain ⟨rarest, hrarest, heq⟩ := (mem_flatMap_frequencies_iff hl hnodup).1 hmem
    exact Nat.le_antisymm ((hall rarest hrarest).trans_eq heq) (hle' pair hpair)

/-- A round on a list of at least two values is a round on the set of its members. -/
theorem toFinset_rarestNumerators (hl : F.AllNonzero l) (hnodup : l.Nodup) (hlength : 1 < l.length) :
    (F.rarestNumerators l).toFinset = F.keepRarest l.toFinset := by
  have hoffDiag : ∀ a ∈ l, ∀ b ∈ l, b ≠ a → (a, b) ∈ l.toFinset.offDiag := fun a ha b hb hne =>
    Finset.mem_offDiag.2 ⟨List.mem_toFinset.2 ha, List.mem_toFinset.2 hb, hne.symm⟩
  rw [rarestNumerators_eq hl]
  cases hmin : (l.flatMap (F.frequencies l)).min? with
  | none =>
    -- two members have a ratio
    obtain ⟨a, ha, b, hb, hne⟩ := Finset.one_lt_card.1 ((List.toFinset_card_of_nodup hnodup).symm ▸ hlength)
    have hpair := hoffDiag a (List.mem_toFinset.1 ha) b (List.mem_toFinset.1 hb) hne.symm
    have hfrequency := (mem_flatMap_frequencies_iff hl hnodup).2 ⟨(a, b), hpair, rfl⟩
    exact absurd (List.min?_eq_none_iff.1 hmin) (List.ne_nil_of_mem hfrequency)
  | some least =>
    ext a
    simp only [List.mem_toFinset, List.mem_filter, decide_eq_true_eq, keepRarest, Finset.mem_filter,
      mem_frequencies_iff hl hnodup]
    refine and_congr_right fun ha => exists_congr fun b => ?_
    refine and_congr_right fun hb => and_congr_right fun hne => ?_
    exact ratioFrequency_eq_least_iff hl hnodup hmin (hoffDiag a ha b hb hne)

/-- Thinning out leaves what rounds lead to that each lose a value. -/
theorem exists_thinsOut (hl : F.AllNonzero l) (hnodup : l.Nodup) :
    ∃ rounds, rounds + (F.thinOut l).length ≤ l.length ∧
      F.ThinsOut rounds l.toFinset (F.thinOut l).toFinset := by
  induction l using thinOut_induction F with
  | step l hlt ih =>
    have hkept := hnodup.sublist (rarestNumerators_sublist (F := F) l)
    obtain ⟨rounds, hrounds, hthins⟩ := ih hl.rarestNumerators hkept
    -- what is kept is not empty, so a list that loses a value has at least two
    have hlength : 1 < l.length := by
      have hne : l ≠ [] := List.ne_nil_of_length_pos (Nat.zero_lt_of_lt hlt)
      have hpos := List.length_pos_iff.2 (rarestNumerators_ne_nil hl hne)
      omega
    have hround := toFinset_rarestNumerators hl hnodup hlength
    rw [thinOut_of_lt hlt]
    refine ⟨rounds + 1, by omega, .round ?_ ?_ (hround ▸ hthins)⟩
    · rwa [List.toFinset_card_of_nodup hnodup]
    · intro heq
      rw [← hround] at heq
      have hcard := congrArg Finset.card heq
      rw [List.toFinset_card_of_nodup hkept, List.toFinset_card_of_nodup hnodup] at hcard
      exact hlt.ne hcard
  | stop l hlt =>
    rw [thinOut_of_not_lt hlt]
    refine ⟨0, by omega, .stop fun hcard => ?_⟩
    rw [List.toFinset_card_of_nodup hnodup] at hcard
    rw [← toFinset_rarestNumerators hl hnodup hcard,
      (rarestNumerators_sublist l).eq_of_length_le (Nat.not_lt.1 hlt)]

end Rounds

/-! ## Candidates -/

theorem isRescaling_ofList {l l' : List Nat} {k : Nat} (hl : F.AllNonzero l) (hk : F.IsNonzero k)
    (h : F.IsRescaling k l l') :
    F.IsRescaling k (SortedSet.ofList l).toList (SortedSet.ofList l').toList := by
  have hmem : ∀ v, v ∈ (SortedSet.ofList l).toList ↔ v ∈ l := fun v => SortedSet.mem_ofList
  have hnodup : ((SortedSet.ofList l).toList.map (F.mul · k)).Nodup := by
    refine List.Nodup.map_on (fun a ha b hb heq => ?_) (SortedSet.nodup_toList _)
    exact mul_injective (hl a ((hmem a).1 ha)).2 (hl b ((hmem b).1 hb)).2 hk heq
  refine (List.perm_ext_iff_of_nodup (SortedSet.nodup_toList _) hnodup).2 fun v => ?_
  have hmem' : v ∈ (SortedSet.ofList l').toList ↔ v ∈ l' := SortedSet.mem_ofList
  rw [hmem', h.mem_iff, List.mem_map, List.mem_map]
  simp only [hmem]

omit hp in
theorem divisorCandidates_nil : F.divisorCandidates [] = [1] := rfl

omit hp in
theorem divisorCandidates_of_sum_ne_zero {l : List Nat} (hne : l ≠ []) (h : F.sum l ≠ 0) :
    F.divisorCandidates l = (l.minOn? fun v => (F.div? (F.sum l) v).getD 0).toList := by
  have hempty : l.isEmpty = false := List.isEmpty_eq_false_iff.2 hne
  simp [divisorCandidates, hempty, h]

omit hp in
theorem divisorCandidates_of_sum_eq_zero {l : List Nat} (hne : l ≠ []) (h : F.sum l = 0) :
    F.divisorCandidates l = F.thinOut (SortedSet.ofList l).toList := by
  have hempty : l.isEmpty = false := List.isEmpty_eq_false_iff.2 hne
  simp [divisorCandidates, hempty, h]

omit hp in
theorem allNonzero_ofList {l : List Nat} (hl : F.AllNonzero l) :
    F.AllNonzero (SortedSet.ofList l).toList := fun v hv => hl v (SortedSet.mem_ofList.1 hv)

/-- The candidates of a rescaled list are the rescaled candidates, in whatever order the values
come. -/
theorem mem_divisorCandidates_rescale {l l' : List Nat} {k d : Nat} (hl : F.AllNonzero l)
    (hne : l ≠ []) (hk : F.IsNonzero k) (h : F.IsRescaling k l l') :
    d ∈ F.divisorCandidates l' ↔ ∃ e ∈ F.divisorCandidates l, d = F.mul e k := by
  have hne' : l' ≠ [] := by
    rintro rfl
    exact hne (List.map_eq_nil_iff.1 (List.Perm.nil_eq h).symm)
  by_cases hsum : F.sum l = 0
  · have hsum' : F.sum l' = 0 := by
      rw [sum_rescale h, hsum, mul, Nat.zero_mul, Nat.zero_mod]
    rw [divisorCandidates_of_sum_eq_zero hne hsum, divisorCandidates_of_sum_eq_zero hne' hsum',
      (thinOut_rescale (allNonzero_ofList hl) hk (isRescaling_ofList hl hk h)).mem_iff,
      List.mem_map]
    simp only [eq_comm]
  · have hsumNonzero : F.IsNonzero (F.sum l) := ⟨Nat.pos_of_ne_zero hsum, sum_lt l⟩
    have hsum' : F.sum l' ≠ 0 := by
      rw [sum_rescale h]
      exact Nat.pos_iff_ne_zero.1 (hsumNonzero.mul hk).1
    rw [divisorCandidates_of_sum_ne_zero hne hsum, divisorCandidates_of_sum_ne_zero hne' hsum',
      sum_rescale h]
    exact mem_minOn?_rescale hl hk hsumNonzero h

theorem mem_of_mem_divisorCandidates {l : List Nat} {d : Nat} (hl : F.AllNonzero l) (hne : l ≠ [])
    (h : d ∈ F.divisorCandidates l) : d ∈ l := by
  by_cases hsum : F.sum l = 0
  · rw [divisorCandidates_of_sum_eq_zero hne hsum] at h
    exact SortedSet.mem_ofList.1 ((thinOut_sublist _).subset h)
  · rw [divisorCandidates_of_sum_ne_zero hne hsum] at h
    exact ((mem_minOn?_div_iff hl ⟨Nat.pos_of_ne_zero hsum, sum_lt l⟩).1 h).1

theorem isNonzero_of_mem_divisorCandidates {l : List Nat} {d : Nat} (hl : F.AllNonzero l)
    (h : d ∈ F.divisorCandidates l) : F.IsNonzero d := by
  by_cases hne : l = []
  · subst hne
    rw [divisorCandidates_nil, List.mem_singleton] at h
    exact h ▸ isNonzero_one
  · exact hl d (mem_of_mem_divisorCandidates hl hne h)

/-- The candidates do not depend on the order of the values. -/
theorem mem_divisorCandidates_perm {l l' : List Nat} {d : Nat} (hl : F.AllNonzero l)
    (h : l.Perm l') : d ∈ F.divisorCandidates l' ↔ d ∈ F.divisorCandidates l := by
  by_cases hne : l = []
  · subst hne
    rw [List.Perm.nil_eq h]
  · have hmem : ∀ e ∈ F.divisorCandidates l, F.mul e 1 = e := fun e he =>
      mul_one (isNonzero_of_mem_divisorCandidates hl he).2
    rw [mem_divisorCandidates_rescale hl hne isNonzero_one (isRescaling_one hl h)]
    constructor
    · rintro ⟨e, he, rfl⟩
      rwa [hmem e he]
    · intro he
      exact ⟨d, he, (hmem d he).symm⟩

section Values

variable {values other : List Nat}

/-- Where the sum is not zero, the only candidate is the value by which the sum divided is least. -/
theorem exists_divisorCandidates_eq_singleton (hvalues : F.AllNonzero values) (hne : values ≠ [])
    (hsum : F.sum values ≠ 0) :
    ∃ v q, F.divisorCandidates values = [v] ∧ F.div? (F.sum values) v = some q ∧
      ∀ w ∈ values, w ≠ v → ∃ r, F.div? (F.sum values) w = some r ∧ q < r := by
  have htotal : F.IsNonzero (F.sum values) := ⟨Nat.pos_of_ne_zero hsum, sum_lt values⟩
  obtain ⟨u, hu⟩ := List.exists_mem_of_ne_nil values hne
  obtain ⟨v, hv⟩ := Option.isSome_iff_exists.1
    (List.isSome_minOn?_of_mem (f := fun v => (F.div? (F.sum values) v).getD 0) hu)
  obtain ⟨hmem, hle⟩ := (mem_minOn?_div_iff hvalues htotal).1 (Option.mem_toList.2 hv)
  refine ⟨v, _, ?_, div?_eq_some (hvalues v hmem), fun w hw hwv => ⟨_, div?_eq_some (hvalues w hw), ?_⟩⟩
  · rw [divisorCandidates_of_sum_ne_zero hne hsum, hv, Option.toList_some]
  · exact (hle w hw).lt_of_ne fun heq =>
      hwv (quotient_injective htotal (hvalues v hmem) (hvalues w hw) heq).symm

theorem divisorCandidates_ne_nil (hvalues : F.AllNonzero values) : F.divisorCandidates values ≠ [] := by
  by_cases hne : values = []
  · subst hne
    simp [divisorCandidates_nil]
  by_cases hsum : F.sum values = 0
  · rw [divisorCandidates_of_sum_eq_zero hne hsum]
    obtain ⟨v, hv⟩ := List.exists_mem_of_ne_nil values hne
    exact thinOut_ne_nil (allNonzero_ofList hvalues) (List.ne_nil_of_mem (SortedSet.mem_ofList.2 hv))
  · obtain ⟨v, -, hv, -⟩ := exists_divisorCandidates_eq_singleton hvalues hne hsum
    rw [hv]
    exact List.cons_ne_nil v []

/-- Where the sum is zero, the candidates are what thinning out leaves of the values. -/
theorem exists_thinsOut_divisorCandidates (hvalues : F.AllNonzero values) (hne : values ≠ [])
    (hsum : F.sum values = 0) :
    ∃ rounds, rounds + (F.divisorCandidates values).length ≤ values.toFinset.card ∧
      F.ThinsOut rounds values.toFinset (F.divisorCandidates values).toFinset := by
  have hnodup := SortedSet.nodup_toList (SortedSet.ofList values)
  have hset : (SortedSet.ofList values).toList.toFinset = values.toFinset := by
    ext v
    rw [List.mem_toFinset, List.mem_toFinset]
    exact SortedSet.mem_ofList
  rw [divisorCandidates_of_sum_eq_zero hne hsum, ← hset, List.toFinset_card_of_nodup hnodup]
  exact exists_thinsOut (allNonzero_ofList hvalues) hnodup

theorem pairwise_divisorCandidates (hvalues : F.AllNonzero values) (hne : values ≠ []) :
    (F.divisorCandidates values).Pairwise (· < ·) := by
  by_cases hsum : F.sum values = 0
  · rw [divisorCandidates_of_sum_eq_zero hne hsum]
    have hsorted := (SortedSet.ofList values).sorted.imp fun hab => Nat.compare_eq_lt.1 hab
    exact hsorted.sublist (thinOut_sublist _)
  · obtain ⟨v, -, hv, -⟩ := exists_divisorCandidates_eq_singleton hvalues hne hsum
    rw [hv]
    exact List.pairwise_singleton _ v

theorem divisorCandidates_eq_of_perm (hvalues : F.AllNonzero values) (hne : values ≠ [])
    (hperm : other.Perm values) : F.divisorCandidates other = F.divisorCandidates values := by
  have hother : F.AllNonzero other := fun v hv => hvalues v (hperm.mem_iff.1 hv)
  have hne' : other ≠ [] := fun h => hne (List.nil_perm.1 (h ▸ hperm))
  exact (pairwise_divisorCandidates hother hne').eq_of_mem_iff (pairwise_divisorCandidates hvalues hne)
    fun _ => mem_divisorCandidates_perm hvalues hperm.symm

theorem toFinset_divisorCandidates_map_mul {k : Nat} (hvalues : F.AllNonzero values) (hne : values ≠ [])
    (hk : F.IsNonzero k) : (F.divisorCandidates (values.map (F.mul k))).toFinset =
      (F.divisorCandidates values).toFinset.image (F.mul k) := by
  have hrescaling : F.IsRescaling k values (values.map (F.mul k)) :=
    List.Perm.of_eq (List.map_congr_left fun v _ => mul_comm k v)
  ext d
  simp only [List.mem_toFinset, Finset.mem_image, mem_divisorCandidates_rescale hvalues hne hk hrescaling,
    mul_comm k, eq_comm]

omit hp in
/-- The candidate divisors of a nonempty list of nonzero elements of a prime field are an ascending and nonempty
list of its values. Where the sum is not zero, there is one candidate, and the sum divided by it is the least
quotient. Where it is zero, thinning out the values ends with the candidates, and each round loses a value. If
all values are multiplied by a nonzero element, so are the candidates, and another order of the values does not
change them. -/
theorem divisorCandidates_follow_rescaling (hprime : F.modulus.Prime) (hne : values ≠ [])
    (hvalues : F.AllNonzero values) :
    ((F.divisorCandidates values).Pairwise (· < ·) ∧ F.divisorCandidates values ≠ [] ∧
      F.divisorCandidates values ⊆ values) ∧
    (F.sum values ≠ 0 → ∃ v q, F.divisorCandidates values = [v] ∧ F.div? (F.sum values) v = some q ∧
      ∀ w ∈ values, w ≠ v → ∃ r, F.div? (F.sum values) w = some r ∧ q < r) ∧
    (F.sum values = 0 → ∃ rounds, rounds + (F.divisorCandidates values).length ≤ values.toFinset.card ∧
      F.ThinsOut rounds values.toFinset (F.divisorCandidates values).toFinset) ∧
    (∀ k, F.IsNonzero k → (F.divisorCandidates (values.map (F.mul k))).toFinset =
      (F.divisorCandidates values).toFinset.image (F.mul k)) ∧
    (∀ other : List Nat, other.Perm values → F.divisorCandidates other = F.divisorCandidates values) := by
  have : Fact F.modulus.Prime := ⟨hprime⟩
  refine ⟨⟨pairwise_divisorCandidates hvalues hne, divisorCandidates_ne_nil hvalues, fun d hd => ?_⟩, ?_, ?_,
    fun k hk => ?_, fun other hperm => ?_⟩
  · exact mem_of_mem_divisorCandidates hvalues hne hd
  · exact exists_divisorCandidates_eq_singleton hvalues hne
  · exact exists_thinsOut_divisorCandidates hvalues hne
  · exact toFinset_divisorCandidates_map_mul hvalues hne hk
  · exact divisorCandidates_eq_of_perm hvalues hne hperm

/-- Modulo 17 the values 1, 2, 4, 8 and 9, two of them twice, sum to zero and lose 2 in a first round, 8 and 9 in
a second. The values times five have 1 and 4 times five as candidates. -/
theorem divisorCandidates_follow_rescaling_two_rounds :
    Nat.Prime 17 ∧ (PrimeField.mk 17).AllNonzero [9, 1, 4, 2, 9, 8, 1] ∧
      (PrimeField.mk 17).sum [9, 1, 4, 2, 9, 8, 1] = 0 ∧
      (∃ rounds, rounds + 2 ≤ 5 ∧ (PrimeField.mk 17).ThinsOut rounds {1, 2, 4, 8, 9} {1, 4}) ∧
      ((PrimeField.mk 17).divisorCandidates [11, 5, 3, 10, 11, 6, 5]).toFinset = {3, 5} ∧
      (PrimeField.mk 17).divisorCandidates [1, 1, 2, 4, 8, 9, 9] = [1, 4] := by
  have hprime : (PrimeField.mk 17).modulus.Prime := by norm_num
  have hvalues : (PrimeField.mk 17).AllNonzero [9, 1, 4, 2, 9, 8, 1] := by decide
  have hsum : (PrimeField.mk 17).sum [9, 1, 4, 2, 9, 8, 1] = 0 := by decide
  have hcandidates : (PrimeField.mk 17).divisorCandidates [9, 1, 4, 2, 9, 8, 1] = [1, 4] := by cbv
  have hset : [9, 1, 4, 2, 9, 8, 1].toFinset = {1, 2, 4, 8, 9} := by decide
  have hscaling : [9, 1, 4, 2, 9, 8, 1].map ((PrimeField.mk 17).mul 5) = [11, 5, 3, 10, 11, 6, 5] := by decide
  obtain ⟨-, -, hthins, hscaled, hperm⟩ :=
    divisorCandidates_follow_rescaling hprime (List.cons_ne_nil _ _) hvalues
  rw [hcandidates] at hthins hscaled hperm
  refine ⟨hprime, hvalues, hsum, hset ▸ hthins hsum, ?_, hperm _ (by decide)⟩
  have hfive := hscaled 5 (by decide)
  rw [hscaling] at hfive
  exact hfive.trans (by decide)

end Values

end CircuitEquiv.PrimeField
