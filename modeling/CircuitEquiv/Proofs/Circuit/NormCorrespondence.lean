-- SUMMARY: The norms of a circuit, and how a full equivalence matches the norms of two circuits.
import CircuitEquiv.Proofs.Circuit.FullEquivalence

/-!
# Corresponding norms

The norms of a circuit are the normal forms of its constraints, each once for every constraint it
comes from. A full equivalence matches the norms of the two circuits: the image of a norm is the
renamed norm of the image of its constraint.
-/

namespace CircuitEquiv

/-! ## The norms of one circuit -/

namespace Circuit

variable {circuit : Circuit} {n : Norm} {i : Nat}

theorem mem_normalize_iff :
    n ∈ circuit.normalize.toList ↔ ∃ c, circuit.constraints[n.origin]? = some c ∧
      n.constraint ∈ c.normalize circuit.field := by
  simp only [normalize, List.mem_flatMap, List.mem_map, Prod.exists, List.mem_zipIdx_iff_getElem?,
    Array.getElem?_toList]
  constructor
  · rintro ⟨c, k, hc, m, hm, rfl⟩
    exact ⟨c, hc, hm⟩
  · rintro ⟨c, hc, hm⟩
    exact ⟨c, n.origin, hc, n.constraint, hm, rfl⟩

theorem nodup_normalize (circuit : Circuit) : circuit.normalize.toList.Nodup := by
  rw [normalize, List.nodup_flatMap]
  constructor
  · rintro ⟨c, k⟩ -
    exact (Constraint.nodup_normalize c).map fun m n h => congrArg Norm.constraint h
  · have hindices : circuit.constraints.toList.zipIdx.Pairwise (fun x y => x.2 ≠ y.2) := by
      have hnodup : (circuit.constraints.toList.zipIdx.map Prod.snd).Nodup := by
        rw [List.zipIdx_map_snd]
        exact List.nodup_range'
      exact List.pairwise_map.1 hnodup
    refine hindices.imp ?_
    rintro ⟨c, k⟩ ⟨d, l⟩ hkl m hm hm'
    obtain ⟨x, -, rfl⟩ := List.mem_map.1 hm
    obtain ⟨y, -, hy⟩ := List.mem_map.1 hm'
    exact hkl (congrArg Norm.origin hy).symm

theorem exists_constraint_of_norm (h : circuit.normalize[i]? = some n) :
    ∃ c, circuit.constraints[n.origin]? = some c ∧ n.constraint ∈ c.normalize circuit.field := by
  rw [← mem_normalize_iff, Array.mem_toList_iff]
  exact Array.mem_of_getElem? h

theorem origin_lt (h : circuit.normalize[i]? = some n) : n.origin < circuit.nConstraints := by
  obtain ⟨c, hc, -⟩ := exists_constraint_of_norm h
  exact lt_nConstraints hc

theorem exists_norm_of_mem_normalize {k : Nat} {c m : Constraint}
    (hc : circuit.constraints[k]? = some c) (hm : m ∈ c.normalize circuit.field) :
    ∃ i : Nat, circuit.normalize[i]? = some ⟨m, k⟩ := by
  have hmem : (⟨m, k⟩ : Norm) ∈ circuit.normalize.toList := mem_normalize_iff.2 ⟨c, hc, hm⟩
  rw [Array.mem_toList_iff] at hmem
  exact Array.getElem?_of_mem hmem

/-- Every constraint has a norm. -/
theorem exists_norm_of_lt [Fact circuit.field.modulus.Prime] (h : circuit.IsReduced) {k : Nat}
    (hk : k < circuit.nConstraints) : ∃ (i : Nat) (n : Norm), circuit.normalize[i]? = some n ∧ n.origin = k := by
  obtain ⟨c, hc⟩ := exists_constraint hk
  obtain ⟨m, hm⟩ := List.exists_mem_of_ne_nil _ (Constraint.normalize_ne_nil (h.constraint hc).coefficients)
  obtain ⟨i, hi⟩ := exists_norm_of_mem_normalize hc hm
  exact ⟨i, ⟨m, k⟩, hi, rfl⟩

theorem index_eq_of_norm_eq {j : Nat} (hi : circuit.normalize[i]? = some n)
    (hj : circuit.normalize[j]? = some n) : i = j := by
  rw [← Array.getElem?_toList] at hi hj
  obtain ⟨hlt, -⟩ := List.getElem?_eq_some_iff.1 hi
  exact (List.getElem?_inj hlt circuit.nodup_normalize).1 (hi.trans hj.symm)

/-- The signals of a norm are those of its constraint. -/
theorem signals_of_norm [Fact circuit.field.modulus.Prime] (h : circuit.IsReduced) {c : Constraint}
    (hc : circuit.constraints[n.origin]? = some c) (hn : n.constraint ∈ c.normalize circuit.field) :
    n.constraint.signals = c.signals :=
  Constraint.signals_of_isRescaling (Constraint.isRescaling_of_mem_normalize (h.constraint hc).coefficients hn)

theorem lt_nSignals_of_norm [Fact circuit.field.modulus.Prime] (h : circuit.IsReduced)
    (hn : circuit.normalize[i]? = some n) {s : Signal} (hs : s ∈ n.constraint.signals) :
    s < circuit.nSignals := by
  obtain ⟨c, hc, hmem⟩ := exists_constraint_of_norm hn
  rw [signals_of_norm h hc hmem] at hs
  exact lt_nSignals_of_mem_signals hc hs

end Circuit

/-! ## Matching lists -/

/-- Lists without repetition that have corresponding members are matched index by index. -/
theorem exists_bijOn_of_perm {α β : Type} [DecidableEq β] {l : List α} {m : List β} (g : α → β)
    (hm : m.Nodup) (hperm : m.Perm (l.map g)) :
    ∃ ν : Nat → Nat, Set.BijOn ν (Set.Iio l.length) (Set.Iio m.length) ∧
      ∀ i a, l[i]? = some a → m[ν i]? = some (g a) := by
  have himages : (l.map g).Nodup := hperm.nodup_iff.1 hm
  have hindex : ∀ j b, m[j]? = some b → m.idxOf b = j := fun j b hb => by
    obtain ⟨hj, rfl⟩ := List.getElem?_eq_some_iff.1 hb
    exact hm.idxOf_getElem j hj
  let ν : Nat → Nat := fun i => ((l[i]?).map fun a => m.idxOf (g a)).getD 0
  have hν : ∀ i a, l[i]? = some a → ν i = m.idxOf (g a) := fun i a ha => by simp [ν, ha]
  have hget : ∀ i a, l[i]? = some a → m[ν i]? = some (g a) := fun i a ha => by
    have hmem : g a ∈ m := hperm.mem_iff.2 (List.mem_map_of_mem (List.mem_of_getElem? ha))
    rw [hν i a ha, List.getElem?_eq_getElem (List.idxOf_lt_length_of_mem hmem), List.getElem_idxOf]
  refine ⟨ν, ⟨fun i hi => ?_, fun i hi j hj heq => ?_, fun j hj => ?_⟩, hget⟩
  · exact (List.getElem?_eq_some_iff.1 (hget i _ (List.getElem?_eq_getElem hi))).1
  · have hi' := hget i _ (List.getElem?_eq_getElem hi)
    have hj' := hget j _ (List.getElem?_eq_getElem hj)
    rw [heq, hj', Option.some_inj] at hi'
    have hmap : (l.map g)[i]? = (l.map g)[j]? := by
      rw [List.getElem?_map, List.getElem?_map, List.getElem?_eq_getElem hi,
        List.getElem?_eq_getElem hj, Option.map_some, Option.map_some, hi']
    exact (List.getElem?_inj (by simpa using hi) himages).1 hmap
  · have hmem : m[j] ∈ l.map g := hperm.mem_iff.1 (List.getElem_mem hj)
    obtain ⟨a, ha, heq⟩ := List.mem_map.1 hmem
    obtain ⟨i, hi⟩ := List.getElem?_of_mem ha
    refine ⟨i, (List.getElem?_eq_some_iff.1 hi).1, ?_⟩
    rw [hν i a hi]
    exact hindex j _ (by rw [List.getElem?_eq_getElem hj, heq])

namespace FullEquivalence

variable {left right : Circuit} {σ : Signal → Signal} {κ : Nat → Nat}

/-- The image of a norm under a full equivalence. -/
def imageNorm (left : Circuit) (σ : Signal → Signal) (κ : Nat → Nat) (n : Norm) : Norm :=
  ⟨n.constraint.renameNormal (signalRenaming left σ), κ n.origin⟩

variable [hp : Fact left.field.modulus.Prime] (h : FullEquivalence left right σ κ)
  (hl : left.IsReduced) (hr : right.IsReduced)

include h hl

theorem nodup_map_imageNorm :
    (left.normalize.toList.map (imageNorm left σ κ)).Nodup := by
  obtain ⟨g, hg⟩ := h.isRenaming.exists_leftInverse
  refine List.Nodup.map_on (fun m hm n hn heq => ?_) left.nodup_normalize
  obtain ⟨c, hc, hmc⟩ := Circuit.mem_normalize_iff.1 hm
  obtain ⟨d, hd, hnd⟩ := Circuit.mem_normalize_iff.1 hn
  obtain ⟨m, k⟩ := m
  obtain ⟨n, l⟩ := n
  obtain ⟨hconstraint, horigin⟩ := Norm.mk.inj heq
  have hkl : k = l :=
    h.constraints.injOn (Circuit.lt_nConstraints hc) (Circuit.lt_nConstraints hd) horigin
  dsimp only at hmc hnd hconstraint
  have hmn : m = n := by
    rw [← Constraint.renameNormal_renameNormal (hl.constraint hc) hmc hg, hconstraint,
      Constraint.renameNormal_renameNormal (hl.constraint hd) hnd hg]
  rw [hkl, hmn]

include hr

/-- The norms of the right circuit are the images of those of the left one. -/
theorem normalize_perm_map_imageNorm :
    right.normalize.toList.Perm (left.normalize.toList.map (imageNorm left σ κ)) := by
  refine (List.perm_ext_iff_of_nodup right.nodup_normalize (h.nodup_map_imageNorm hl)).2
    fun n => ?_
  rw [Circuit.mem_normalize_iff, List.mem_map, ← h.field]
  constructor
  · rintro ⟨d, hd, hn⟩
    obtain ⟨k, hk, hκ⟩ := h.constraints.surjOn (Circuit.lt_nConstraints hd)
    obtain ⟨c, hc⟩ := Circuit.exists_constraint hk
    have hperm := h.normalize_perm hl hr hc (hκ ▸ hd)
    obtain ⟨m, hm, hmn⟩ := List.mem_map.1 (hperm.mem_iff.1 hn)
    refine ⟨⟨m, k⟩, Circuit.mem_normalize_iff.2 ⟨c, hc, hm⟩, ?_⟩
    obtain ⟨n, l⟩ := n
    exact congrArg₂ Norm.mk hmn hκ
  · rintro ⟨m, hm, rfl⟩
    obtain ⟨c, hc, hmc⟩ := Circuit.mem_normalize_iff.1 hm
    obtain ⟨d, hd, -⟩ := h.isScalarMultipleOf hl hc
    exact ⟨d, hd, (h.normalize_perm hl hr hc hd).mem_iff.2 (List.mem_map_of_mem hmc)⟩

/-- The bijection of norm indices that a full equivalence induces. -/
theorem exists_normBijection :
    ∃ ν : Nat → Nat,
      Set.BijOn ν (Set.Iio left.normalize.size) (Set.Iio right.normalize.size) ∧
      ∀ i n, left.normalize[i]? = some n → right.normalize[ν i]? = some (imageNorm left σ κ n) := by
  have hmatch := exists_bijOn_of_perm (imageNorm left σ κ) right.nodup_normalize
    (h.normalize_perm_map_imageNorm hl hr)
  simpa only [Array.length_toList, Array.getElem?_toList] using hmatch

end FullEquivalence

end CircuitEquiv
