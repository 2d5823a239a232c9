-- SUMMARY: Attraction grows connected clusters, ends with a settled one, and depends on no order of constraints or signals.
import CircuitEquiv.Clustering.Attraction
import CircuitEquiv.Proofs.Circuit.FullEquivalence
import CircuitEquiv.Proofs.Clustering.Graph

/-!
# What attraction clusters

A constraint never leaves its cluster, so every round but the last takes one more constraint in and the
loop ends. Each cluster keeps chains to the nonlinear constraints it was seeded with, and a constraint
that stays out at the end has no cluster beside it, or several. A round looks at nothing but which
neighbours are in one cluster, so it commutes with renumbering constraints and renaming signals.
-/

namespace CircuitEquiv

namespace Attraction

variable {g : ConstraintGraph} {cluster last : Array (Option Nat)} {u v w k : Nat}

/-! ## Rounds -/

/-- The cluster of a vertex. -/
def clusterOf (cluster : Array (Option Nat)) (v : Nat) : Option Nat := (cluster[v]?).join

/-- The clusters after a round. -/
def round (g : ConstraintGraph) (cluster : Array (Option Nat)) : Array (Option Nat) :=
  Array.ofFn fun v : Fin cluster.size => afterRound g cluster v

/-- Some neighbour is in a cluster, and no neighbour is in another one. -/
structure IsOnlyCluster (g : ConstraintGraph) (cluster : Array (Option Nat)) (v k : Nat) : Prop where
  adjacent : ∃ u ∈ (g.edges v).keys, clusterOf cluster u = some k
  unique : ∀ u ∈ (g.edges v).keys, ∀ l, clusterOf cluster u = some l → l = k

theorem mem_adjacentClusters :
    k ∈ adjacentClusters g cluster v ↔ ∃ u ∈ (g.edges v).keys, clusterOf cluster u = some k := by
  rw [adjacentClusters, List.mem_eraseDups, List.mem_filterMap]
  rfl

theorem adjacentClusters_eq_singleton_iff :
    adjacentClusters g cluster v = [k] ↔ IsOnlyCluster g cluster v k := by
  constructor
  · intro h
    have hmem : ∀ l, l ∈ adjacentClusters g cluster v ↔ l = k := fun l => by
      rw [h, List.mem_singleton]
    exact ⟨mem_adjacentClusters.1 ((hmem k).2 rfl),
      fun u hu l hl => (hmem l).1 (mem_adjacentClusters.2 ⟨u, hu, hl⟩)⟩
  · rintro ⟨hadjacent, hunique⟩
    refine List.perm_singleton.1 ((List.perm_ext_iff_of_nodup (nodup_eraseDups _)
      (List.nodup_singleton k)).2 fun l => ?_)
    rw [List.mem_singleton]
    constructor
    · intro hl
      obtain ⟨u, hu, hl⟩ := mem_adjacentClusters.1 hl
      exact hunique u hu l hl
    · rintro rfl
      exact mem_adjacentClusters.2 hadjacent

theorem afterRound_eq_some_iff : afterRound g cluster v = some k ↔
    clusterOf cluster v = some k ∨ clusterOf cluster v = none ∧ IsOnlyCluster g cluster v k := by
  rw [← adjacentClusters_eq_singleton_iff, afterRound, ← clusterOf]
  cases clusterOf cluster v with
  | some l => simp
  | none =>
    simp only [reduceCtorEq, false_or, true_and]
    split
    · rename_i l hl
      simp [hl]
    · rename_i hother
      simpa using hother k

theorem lt_size_of_clusterOf (h : clusterOf cluster v = some k) : v < cluster.size := by
  by_contra hlt
  rw [clusterOf, Array.getElem?_eq_none (Nat.le_of_not_lt hlt)] at h
  cases h

@[simp]
theorem size_round : (round g cluster).size = cluster.size := Array.size_ofFn

theorem clusterOf_round (hv : v < cluster.size) :
    clusterOf (round g cluster) v = afterRound g cluster v := by
  rw [clusterOf, round, Array.getElem?_ofFn, dif_pos hv]
  rfl

/-- A vertex is in a cluster after a round if it was before, or if it joins. -/
theorem clusterOf_round_eq_some_iff : clusterOf (round g cluster) v = some k ↔
    clusterOf cluster v = some k ∨
      v < cluster.size ∧ clusterOf cluster v = none ∧ IsOnlyCluster g cluster v k := by
  by_cases hv : v < cluster.size
  · rw [clusterOf_round hv, afterRound_eq_some_iff, and_iff_right hv]
  · refine ⟨fun h => ?_, ?_⟩
    · exact absurd (size_round ▸ lt_size_of_clusterOf h) hv
    · rintro (h | h)
      · exact absurd (lt_size_of_clusterOf h) hv
      · exact absurd h.1 hv

/-! ## The loop -/

/-- Rounds lead from some clusters to the last ones, where nothing joins any more. -/
inductive GrowsTo (g : ConstraintGraph) : Array (Option Nat) → Array (Option Nat) → Prop
  | settled {cluster : Array (Option Nat)} (h : round g cluster = cluster) :
      GrowsTo g cluster cluster
  | round {cluster last : Array (Option Nat)} (h : round g cluster ≠ cluster)
      (rest : GrowsTo g (round g cluster) last) : GrowsTo g cluster last

/-- The vertices that are in no cluster. -/
def unassigned (cluster : Array (Option Nat)) : Finset Nat :=
  (Finset.range cluster.size).filter fun v => clusterOf cluster v = none

/-- A round in which something joins leaves fewer vertices over. -/
theorem card_unassigned_round_lt (h : round g cluster ≠ cluster) :
    (unassigned (round g cluster)).card < (unassigned cluster).card := by
  have hkeep : ∀ v, clusterOf (round g cluster) v = none → clusterOf cluster v = none := fun v hv => by
    rw [Option.eq_none_iff_forall_ne_some] at hv ⊢
    exact fun k hk => hv k (clusterOf_round_eq_some_iff.2 (Or.inl hk))
  obtain ⟨v, hv, hjoins⟩ : ∃ v < cluster.size,
      clusterOf (round g cluster) v ≠ clusterOf cluster v := by
    by_contra hall
    refine h (Array.ext size_round fun v hv hv' => ?_)
    by_contra hne
    refine hall ⟨v, hv', fun heq => hne ?_⟩
    simpa [clusterOf, hv'] using heq
  have hnone : clusterOf cluster v = none := by
    cases hk : clusterOf cluster v with
    | none => rfl
    | some k => exact absurd ((clusterOf_round_eq_some_iff.2 (Or.inl hk)).trans hk.symm) hjoins
  refine Finset.card_lt_card (Finset.ssubset_iff_subset_ne.2 ⟨fun x hx => ?_, fun heq => ?_⟩)
  · simp only [unassigned, Finset.mem_filter, Finset.mem_range, size_round] at hx ⊢
    exact ⟨hx.1, hkeep x hx.2⟩
  · have hmem : v ∈ unassigned cluster := Finset.mem_filter.2 ⟨Finset.mem_range.2 hv, hnone⟩
    rw [← heq] at hmem
    exact hjoins ((Finset.mem_filter.1 hmem).2.trans hnone.symm)

/-- As many rounds as vertices are left over reach the end of the loop. -/
theorem growsTo_grow {fuel : Nat} (h : (unassigned cluster).card ≤ fuel) :
    GrowsTo g cluster (grow g fuel cluster) := by
  induction fuel generalizing cluster with
  | zero =>
    by_cases hround : round g cluster = cluster
    · exact .settled hround
    · have hlt := card_unassigned_round_lt hround
      omega
  | succ fuel ih =>
    have hgrow : grow g (fuel + 1) cluster =
      if round g cluster = cluster then cluster else grow g fuel (round g cluster) := rfl
    rw [hgrow]
    split
    · exact .settled ‹_›
    · have hlt := card_unassigned_round_lt ‹_›
      exact .round ‹_› (ih (by omega))

/-- What holds at the start and is kept by a round holds at the end. -/
theorem GrowsTo.invariant {P : Array (Option Nat) → Prop} (h : GrowsTo g cluster last)
    (hround : ∀ cluster, P cluster → P (Attraction.round g cluster)) (hP : P cluster) : P last := by
  induction h with
  | settled => exact hP
  | round _ _ ih => exact ih (hround _ hP)

theorem GrowsTo.round_last (h : GrowsTo g cluster last) : Attraction.round g last = last := by
  induction h with
  | settled h => exact h
  | round _ _ ih => exact ih

/-- Rounds after the last one change nothing, so the loop can be counted out. -/
theorem grow_eq_iterate (g : ConstraintGraph) (fuel : Nat) (cluster : Array (Option Nat)) :
    grow g fuel cluster = (round g)^[fuel] cluster := by
  induction fuel generalizing cluster with
  | zero => rfl
  | succ fuel ih =>
    have hgrow : grow g (fuel + 1) cluster =
      if round g cluster = cluster then cluster else grow g fuel (round g cluster) := rfl
    rw [hgrow, Function.iterate_succ_apply, ← ih]
    split
    · rename_i h
      rw [h, ih, Function.iterate_fixed h]
    · rfl

/-! ## Seeds -/

variable {circuit : Circuit} {i j : Nat}

/-- Whether a constraint multiplies signals. -/
def isNonlinearAt (circuit : Circuit) (k : Nat) : Bool :=
  (circuit.constraints[k]?.getD default).isNonlinear

/-- The clusters at the start. -/
def start (circuit : Circuit) : Array (Option Nat) :=
  Array.ofFn fun v : Fin circuit.nConstraints =>
    if (seeds circuit).any (·.contains v) then some (Partition.placeOf (seeds circuit) v) else none

/-- The partition into clusters and single constraints. -/
def clustered (circuit : Circuit) (cluster : Array (Option Nat)) : Partition :=
  .ofFunction circuit.nConstraints fun v => (clusterOf cluster v).getD ((seeds circuit).length + v)

theorem partition_eq (circuit : Circuit) : partition circuit =
    clustered circuit (grow (.ofCircuit circuit) circuit.nConstraints (start circuit)) := rfl

theorem lt_of_isNonlinearAt (h : isNonlinearAt circuit v = true) : v < circuit.nConstraints := by
  by_contra hlt
  have hnone : circuit.constraints[v]? = none := Array.getElem?_eq_none (Nat.le_of_not_lt hlt)
  rw [isNonlinearAt, hnone] at h
  cases h

theorem mem_flatten_seeds : v ∈ (seeds circuit).flatten ↔ isNonlinearAt circuit v = true := by
  have hperm := ConstraintGraph.perm_flatten_components circuit (fun _ => true) (isNonlinearAt circuit)
  refine hperm.mem_iff.trans ?_
  rw [List.mem_filter, List.mem_range]
  exact ⟨fun h => h.2, fun h => ⟨lt_of_isNonlinearAt h, h⟩⟩

/-- The seeds tell apart the nonlinear constraints that no chain links. -/
theorem placeOf_seeds_eq_iff (hi : isNonlinearAt circuit i = true) (hj : isNonlinearAt circuit j = true) :
    Partition.placeOf (seeds circuit) i = Partition.placeOf (seeds circuit) j ↔
      circuit.Linked (isNonlinearAt circuit · = true) i j := by
  have hperm := ConstraintGraph.perm_flatten_components circuit (fun _ => true) (isNonlinearAt circuit)
  have hnodup : (seeds circuit).flatten.Nodup := hperm.nodup_iff.2 (List.nodup_range.filter _)
  rw [Partition.placeOf_eq_iff hnodup (mem_flatten_seeds.2 hi) (mem_flatten_seeds.2 hj)]
  have hpart : SamePart (seeds circuit) i j ↔
      i < circuit.nConstraints ∧ circuit.Linked (isNonlinearAt circuit · = true) i j :=
    ConstraintGraph.samePart_components_iff fun _ _ => rfl
  exact hpart.trans (and_iff_right (lt_of_isNonlinearAt hi))

theorem clusterOf_start_eq_some_iff : clusterOf (start circuit) v = some k ↔
    isNonlinearAt circuit v = true ∧ Partition.placeOf (seeds circuit) v = k := by
  have hany : (seeds circuit).any (·.contains v) = true ↔ isNonlinearAt circuit v = true := by
    rw [← mem_flatten_seeds, List.any_eq_true, List.mem_flatten]
    simp only [List.contains_iff_mem]
  by_cases hv : v < circuit.nConstraints
  · have hget : clusterOf (start circuit) v = if (seeds circuit).any (·.contains v) then
        some (Partition.placeOf (seeds circuit) v) else none := by
      rw [clusterOf, start, Array.getElem?_ofFn, dif_pos hv]
      rfl
    rw [hget, ← hany]
    split <;> simp_all
  · refine ⟨fun h => absurd (lt_size_of_clusterOf h) (by rwa [start, Array.size_ofFn]), fun h => ?_⟩
    exact absurd (lt_of_isNonlinearAt h.1) hv

/-! ## Growing -/

theorem mem_keys_edges_ofCircuit : u ∈ ((ConstraintGraph.ofCircuit circuit).edges v).keys ↔
    v ≠ u ∧ circuit.SharesSignal v u := by
  rw [ConstraintGraph.ofCircuit, ConstraintGraph.mem_keys_edges]
  simp

/-- Clusters that grew from the seeds: a nonlinear constraint is in the cluster of its seed, and within
its cluster every constraint is linked to such a one. -/
structure IsGrown (circuit : Circuit) (cluster : Array (Option Nat)) : Prop where
  size : cluster.size = circuit.nConstraints
  seed : ∀ v, isNonlinearAt circuit v = true →
    clusterOf cluster v = some (Partition.placeOf (seeds circuit) v)
  rooted : ∀ v k, clusterOf cluster v = some k → ∃ w, isNonlinearAt circuit w = true ∧
    Partition.placeOf (seeds circuit) w = k ∧ circuit.Linked (clusterOf cluster · = some k) v w

theorem isGrown_start (circuit : Circuit) : IsGrown circuit (start circuit) where
  size := Array.size_ofFn
  seed v hv := clusterOf_start_eq_some_iff.2 ⟨hv, rfl⟩
  rooted v k h := by
    obtain ⟨hv, hplace⟩ := clusterOf_start_eq_some_iff.1 h
    exact ⟨v, hv, hplace, .refl h⟩

theorem IsGrown.round (h : IsGrown circuit cluster) :
    IsGrown circuit (round (.ofCircuit circuit) cluster) where
  size := size_round.trans h.size
  seed v hv := clusterOf_round_eq_some_iff.2 (Or.inl (h.seed v hv))
  rooted v k hk := by
    have hold : ∀ u, clusterOf cluster u = some k →
        clusterOf (Attraction.round (.ofCircuit circuit) cluster) u = some k := fun u hu =>
      clusterOf_round_eq_some_iff.2 (Or.inl hu)
    rcases clusterOf_round_eq_some_iff.1 hk with hv | ⟨-, -, honly⟩
    · obtain ⟨w, hw, hplace, hlinked⟩ := h.rooted v k hv
      exact ⟨w, hw, hplace, hlinked.mono hold⟩
    · -- a constraint that joins is linked by the neighbour that it joins at
      obtain ⟨u, hu, huk⟩ := honly.adjacent
      obtain ⟨w, hw, hplace, hlinked⟩ := h.rooted u k huk
      exact ⟨w, hw, hplace, (Circuit.Linked.tail (.refl hk) (hold u huk)
        (mem_keys_edges_ofCircuit.1 hu).2).trans (hlinked.mono hold)⟩

namespace IsGrown

variable (h : IsGrown circuit cluster)
include h

theorem lt_length_seeds (hk : clusterOf cluster v = some k) : k < (seeds circuit).length := by
  obtain ⟨w, hw, rfl, -⟩ := h.rooted v k hk
  exact Partition.placeOf_lt (mem_flatten_seeds.2 hw)

/-- Constraints of one cluster are linked within it: their nonlinear constraints have one seed. -/
theorem linked (hi : clusterOf cluster i = some k) (hj : clusterOf cluster j = some k) :
    circuit.Linked (clusterOf cluster · = some k) i j := by
  obtain ⟨w, hw, hplace, hiw⟩ := h.rooted i k hi
  obtain ⟨w', hw', hplace', hjw⟩ := h.rooted j k hj
  have hseed := (placeOf_seeds_eq_iff hw hw').1 (hplace.trans hplace'.symm)
  -- the chain between the two stays in the seed, which is part of the cluster
  have hww : circuit.Linked (clusterOf cluster · = some k) w w' := by
    refine hseed.within.mono fun x hx => ?_
    rw [h.seed x hx.right, (placeOf_seeds_eq_iff hx.right hw).2 hx.symm, hplace]
  exact (hiw.trans hww).trans hjw.symm

/-- Constraints are in one part if they are in one cluster. -/
theorem samePart_clustered_iff : SamePart (clustered circuit cluster).parts i j ↔
    i < circuit.nConstraints ∧ j < circuit.nConstraints ∧
      (i = j ∨ ∃ k, clusterOf cluster i = some k ∧ clusterOf cluster j = some k) := by
  rw [clustered, Partition.samePart_ofFunction_iff]
  refine and_congr_right fun hi => and_congr_right fun hj => ?_
  cases hci : clusterOf cluster i with
  | none =>
    cases hcj : clusterOf cluster j with
    | none => simp
    | some l =>
      have hl := h.lt_length_seeds hcj
      have hne : i ≠ j := fun heq => by simp [heq, hcj] at hci
      simp only [Option.getD_none, Option.getD_some, hne, reduceCtorEq, false_and, exists_false,
        or_self, iff_false]
      omega
  | some k =>
    have hk := h.lt_length_seeds hci
    cases hcj : clusterOf cluster j with
    | none =>
      have hne : i ≠ j := fun heq => by simp [← heq, hci] at hcj
      simp only [Option.getD_none, Option.getD_some, hne, reduceCtorEq, and_false, exists_false,
        or_self, iff_false]
      omega
    | some l =>
      have himp : i = j → k = l := fun heq => Option.some.inj (hci.symm.trans (heq ▸ hcj))
      simp only [Option.getD_some, Option.some.injEq, exists_eq_left']
      exact ⟨fun heq => Or.inr heq.symm, fun heq => heq.elim himp Eq.symm⟩

end IsGrown

/-! ## Parts -/

/-- A part with a nonlinear constraint, some constraint of which shares a signal with the given one. -/
structure IsAttractor (circuit : Circuit) (parts : List (List Nat)) (part : List Nat) (v : Nat) :
    Prop where
  mem : part ∈ parts
  nonlinear : ∃ i ∈ part, isNonlinearAt circuit i = true
  adjacent : ∃ i ∈ part, circuit.SharesSignal v i

theorem isDivision_clustered : IsDivision circuit.nConstraints (clustered circuit cluster).parts :=
  Partition.isDivision_ofFunction _ _

namespace IsGrown

variable (h : IsGrown circuit cluster) {part : List Nat}
include h

theorem samePart_of_clusterOf (hi : clusterOf cluster i = some k) (hj : clusterOf cluster j = some k) :
    SamePart (clustered circuit cluster).parts i j :=
  h.samePart_clustered_iff.2 ⟨h.size ▸ lt_size_of_clusterOf hi, h.size ▸ lt_size_of_clusterOf hj,
    Or.inr ⟨k, hi, hj⟩⟩

theorem samePart_nonlinear_iff (hi : isNonlinearAt circuit i = true)
    (hj : isNonlinearAt circuit j = true) : SamePart (clustered circuit cluster).parts i j ↔
      circuit.Linked (isNonlinearAt circuit · = true) i j := by
  rw [h.samePart_clustered_iff, h.seed i hi, h.seed j hj, ← placeOf_seeds_eq_iff hi hj]
  constructor
  · rintro ⟨-, -, rfl | ⟨k, hik, hjk⟩⟩
    · rfl
    · exact Option.some.inj (hik.trans hjk.symm)
  · exact fun heq => ⟨lt_of_isNonlinearAt hi, lt_of_isNonlinearAt hj, Or.inr ⟨_, rfl, congrArg _ heq.symm⟩⟩

/-- Every part is connected. -/
theorem linked_of_mem_part (hpart : part ∈ (clustered circuit cluster).parts) (hi : i ∈ part)
    (hj : j ∈ part) : circuit.Linked (· ∈ part) i j := by
  obtain ⟨-, -, rfl | ⟨k, hik, hjk⟩⟩ := h.samePart_clustered_iff.1 ⟨part, hpart, hi, hj⟩
  · exact .refl hi
  · exact (h.linked hik hjk).mono fun x hx =>
      (isDivision_clustered.mem_part_iff hpart hi).2 (h.samePart_of_clusterOf hik hx)

/-- Constraints of a part without nonlinear ones are in no cluster. -/
theorem clusterOf_eq_none (hpart : part ∈ (clustered circuit cluster).parts)
    (hlinear : ∀ i ∈ part, isNonlinearAt circuit i = false) (hi : i ∈ part) :
    clusterOf cluster i = none := by
  rw [Option.eq_none_iff_forall_ne_some]
  intro k hk
  obtain ⟨w, hw, -, hlinked⟩ := h.rooted i k hk
  have hwpart := (isDivision_clustered.mem_part_iff hpart hi).2
    (h.samePart_of_clusterOf hk hlinked.right)
  exact Bool.false_ne_true ((hlinear w hwpart).symm.trans hw)

/-- A constraint in no cluster is a part of its own. -/
theorem part_eq_singleton (hpart : part ∈ (clustered circuit cluster).parts) (hi : i ∈ part)
    (hnone : clusterOf cluster i = none) : part = [i] := by
  refine List.perm_singleton.1 ((List.perm_ext_iff_of_nodup
    ((isDivision_clustered.sorted part hpart).imp Nat.ne_of_lt) (List.nodup_singleton i)).2
      fun j => ?_)
  rw [List.mem_singleton]
  refine ⟨fun hj => ?_, fun hj => hj ▸ hi⟩
  obtain ⟨-, -, heq | ⟨k, hk, -⟩⟩ := h.samePart_clustered_iff.1 ⟨part, hpart, hi, hj⟩
  · exact heq.symm
  · exact absurd (hnone.symm.trans hk) (by simp)

/-- Constraints beside a part that attracts are in a cluster. -/
theorem exists_clusterOf (hpart : part ∈ (clustered circuit cluster).parts) (hi : i ∈ part)
    (hw : w ∈ part) (hnonlinear : isNonlinearAt circuit w = true) :
    ∃ k, clusterOf cluster i = some k := by
  obtain ⟨-, -, rfl | ⟨k, hk, -⟩⟩ := h.samePart_clustered_iff.1 ⟨part, hpart, hi, hw⟩
  · exact ⟨_, h.seed i hnonlinear⟩
  · exact ⟨k, hk⟩

/-- What is in a cluster belongs to a part with a nonlinear constraint. -/
theorem exists_isAttractor (hk : clusterOf cluster i = some k) (hshare : circuit.SharesSignal v i) :
    ∃ part, i ∈ part ∧ IsAttractor circuit (clustered circuit cluster).parts part v := by
  obtain ⟨part, hpart, hi⟩ := isDivision_clustered.exists_part (h.size ▸ lt_size_of_clusterOf hk)
  obtain ⟨w, hw, -, hlinked⟩ := h.rooted i k hk
  exact ⟨part, hi, hpart, ⟨w, (isDivision_clustered.mem_part_iff hpart hi).2
    (h.samePart_of_clusterOf hk hlinked.right), hw⟩, i, hi, hshare⟩

/-- Once nothing joins, a constraint in no cluster has no part that attracts it, or several. -/
theorem attractors_of_settled (hsettled : Attraction.round (.ofCircuit circuit) cluster = cluster)
    (hnone : clusterOf cluster v = none) :
    (∀ part, ¬IsAttractor circuit (clustered circuit cluster).parts part v) ∨
      ∃ part part', part ≠ part' ∧
        IsAttractor circuit (clustered circuit cluster).parts part v ∧
        IsAttractor circuit (clustered circuit cluster).parts part' v := by
  by_cases hsome : ∃ part, IsAttractor circuit (clustered circuit cluster).parts part v
  · obtain ⟨part, hattractor⟩ := hsome
    obtain ⟨hpart, ⟨w, hw, hnonlinear⟩, i, hi, hshare⟩ := id hattractor
    obtain ⟨k, hik⟩ := h.exists_clusterOf hpart hi hw hnonlinear
    have hne : ∀ {u l}, clusterOf cluster u = some l → v ≠ u := fun hul heq => by
      rw [← heq, hnone] at hul
      cases hul
    have hnot : ¬IsOnlyCluster (.ofCircuit circuit) cluster v k := fun honly => by
      have hjoins := clusterOf_round_eq_some_iff.2 (Or.inr ⟨h.size ▸ hshare.lt_left, hnone, honly⟩)
      rw [hsettled, hnone] at hjoins
      cases hjoins
    obtain ⟨u, l, hvu, hul, hlk⟩ : ∃ u l, circuit.SharesSignal v u ∧
        clusterOf cluster u = some l ∧ l ≠ k := by
      by_contra hall
      refine hnot ⟨⟨i, mem_keys_edges_ofCircuit.2 ⟨hne hik, hshare⟩, hik⟩, fun u hu l hul => ?_⟩
      by_contra hlk
      exact hall ⟨u, l, (mem_keys_edges_ofCircuit.1 hu).2, hul, hlk⟩
    obtain ⟨part', hu, hattractor'⟩ := h.exists_isAttractor hul hvu
    refine Or.inr ⟨part, part', ?_, hattractor, hattractor'⟩
    rintro rfl
    obtain ⟨-, -, rfl | ⟨m, him, hum⟩⟩ := h.samePart_clustered_iff.1 ⟨part, hpart, hi, hu⟩
    · exact hlk (Option.some.inj (hul.symm.trans hik))
    · exact hlk ((Option.some.inj (hul.symm.trans hum)).trans (Option.some.inj (him.symm.trans hik)))
  · exact Or.inl fun part hattractor => hsome ⟨part, hattractor⟩

end IsGrown

/-! ## Rearranging -/

section Rearranging

variable {circuit' : Circuit} {π : Nat → Nat} {f : Signal → Signal} {cluster' : Array (Option Nat)}

theorem isNonlinearAt_rearranged (h : circuit.IsRearrangement circuit' π f)
    (hk : k < circuit.nConstraints) : isNonlinearAt circuit' (π k) = isNonlinearAt circuit k := by
  obtain ⟨d, hd, hk'⟩ := h.renamed k _ (Array.getElem?_eq_getElem hk)
  have hk : circuit.constraints[k]? = some circuit.constraints[k] := Array.getElem?_eq_getElem hk
  rw [isNonlinearAt, isNonlinearAt, hk, hk', Option.getD_some, Option.getD_some,
    Constraint.isNonlinear_of_signalMap hd]

/-- Two states of the loop whose clusters correspond under a renaming of the clusters. -/
structure Corresponds (circuit : Circuit) (π ρ : Nat → Nat) (cluster cluster' : Array (Option Nat)) :
    Prop where
  injOn : Set.InjOn ρ {k | ∃ v, clusterOf cluster v = some k}
  clusterOf : ∀ v < circuit.nConstraints, clusterOf cluster' (π v) = (clusterOf cluster v).map ρ

/-- Some renaming of the seeds lets the states at the start correspond. -/
theorem exists_corresponds_start (h : circuit.IsRearrangement circuit' π f) :
    ∃ ρ, Corresponds circuit π ρ (start circuit) (start circuit') := by
  have hlinked : ∀ {i j}, isNonlinearAt circuit i = true → isNonlinearAt circuit j = true →
      (Partition.placeOf (seeds circuit') (π i) = Partition.placeOf (seeds circuit') (π j) ↔
        Partition.placeOf (seeds circuit) i = Partition.placeOf (seeds circuit) j) :=
    fun {i j} hi hj => by
      have hin := lt_of_isNonlinearAt hi
      have hjn := lt_of_isNonlinearAt hj
      rw [placeOf_seeds_eq_iff hi hj, placeOf_seeds_eq_iff
        ((isNonlinearAt_rearranged h hin).trans hi) ((isNonlinearAt_rearranged h hjn).trans hj)]
      exact h.linked_iff (fun k hk => by rw [isNonlinearAt_rearranged h hk]) hin hjn
  -- a seed is sent to the seed of the image of any of its members
  have hchoice : ∀ k, ∃ l, ∀ v, isNonlinearAt circuit v = true →
      Partition.placeOf (seeds circuit) v = k → Partition.placeOf (seeds circuit') (π v) = l := by
    intro k
    by_cases hsome : ∃ v, isNonlinearAt circuit v = true ∧ Partition.placeOf (seeds circuit) v = k
    · obtain ⟨v, hv, rfl⟩ := hsome
      exact ⟨_, fun u hu heq => (hlinked hu hv).2 heq⟩
    · exact ⟨0, fun v hv heq => absurd ⟨v, hv, heq⟩ hsome⟩
  choose ρ hρ using hchoice
  refine ⟨ρ, ⟨?_, fun v hv => ?_⟩⟩
  · rintro _ ⟨u, huk⟩ _ ⟨v, hvk⟩ heq
    obtain ⟨hu, rfl⟩ := clusterOf_start_eq_some_iff.1 huk
    obtain ⟨hv, rfl⟩ := clusterOf_start_eq_some_iff.1 hvk
    rw [← hρ _ u hu rfl, ← hρ _ v hv rfl] at heq
    exact (hlinked hu hv).1 heq
  · ext l
    rw [clusterOf_start_eq_some_iff, isNonlinearAt_rearranged h hv, Option.map_eq_some_iff]
    simp only [clusterOf_start_eq_some_iff]
    constructor
    · rintro ⟨hnonlinear, rfl⟩
      exact ⟨_, ⟨hnonlinear, rfl⟩, (hρ _ v hnonlinear rfl).symm⟩
    · rintro ⟨_, ⟨hnonlinear, rfl⟩, rfl⟩
      exact ⟨hnonlinear, hρ _ v hnonlinear rfl⟩

variable {ρ : Nat → Nat}

/-- The one cluster beside a constraint corresponds to the one beside its image. -/
theorem Corresponds.isOnlyCluster_iff (hc : Corresponds circuit π ρ cluster cluster')
    (h : circuit.IsRearrangement circuit' π f) (hv : v < circuit.nConstraints) {l : Nat} :
    IsOnlyCluster (.ofCircuit circuit') cluster' (π v) l ↔
      ∃ k, IsOnlyCluster (.ofCircuit circuit) cluster v k ∧ ρ k = l := by
  have hkeys : ∀ u < circuit.nConstraints, π u ∈ ((ConstraintGraph.ofCircuit circuit').edges (π v)).keys ↔
      u ∈ ((ConstraintGraph.ofCircuit circuit).edges v).keys := fun u hu => by
    rw [mem_keys_edges_ofCircuit, mem_keys_edges_ofCircuit, h.sharesSignal_iff hv hu,
      h.bijOn.injOn.ne_iff hv hu]
  have hlt : ∀ {u}, u ∈ ((ConstraintGraph.ofCircuit circuit).edges v).keys →
      u < circuit.nConstraints := fun hu => (mem_keys_edges_ofCircuit.1 hu).2.lt_right
  have hpreimage : ∀ {u'}, u' ∈ ((ConstraintGraph.ofCircuit circuit').edges (π v)).keys →
      ∃ u, u ∈ ((ConstraintGraph.ofCircuit circuit).edges v).keys ∧ π u = u' := fun hu' => by
    obtain ⟨u, hu, rfl⟩ := h.bijOn.surjOn (mem_keys_edges_ofCircuit.1 hu').2.lt_right
    exact ⟨u, (hkeys u hu).1 hu', rfl⟩
  constructor
  · rintro ⟨⟨u', hu', hul⟩, hunique⟩
    obtain ⟨u, hu, rfl⟩ := hpreimage hu'
    rw [hc.clusterOf u (hlt hu), Option.map_eq_some_iff] at hul
    obtain ⟨k, huk, rfl⟩ := hul
    refine ⟨k, ⟨⟨u, hu, huk⟩, fun x hx m hxm => hc.injOn ⟨x, hxm⟩ ⟨u, huk⟩ ?_⟩, rfl⟩
    exact hunique (π x) ((hkeys x (hlt hx)).2 hx) _
      (by rw [hc.clusterOf x (hlt hx), hxm, Option.map_some])
  · rintro ⟨k, ⟨⟨u, hu, huk⟩, hunique⟩, rfl⟩
    refine ⟨⟨π u, (hkeys u (hlt hu)).2 hu, by rw [hc.clusterOf u (hlt hu), huk, Option.map_some]⟩,
      fun x' hx' m' hxm' => ?_⟩
    obtain ⟨x, hx, rfl⟩ := hpreimage hx'
    rw [hc.clusterOf x (hlt hx), Option.map_eq_some_iff] at hxm'
    obtain ⟨m, hxm, rfl⟩ := hxm'
    rw [hunique x hx m hxm]

/-- A round keeps clusters in correspondence. -/
theorem Corresponds.round (hc : Corresponds circuit π ρ cluster cluster')
    (h : circuit.IsRearrangement circuit' π f) (hsize : cluster.size = circuit.nConstraints)
    (hsize' : cluster'.size = circuit'.nConstraints) :
    Corresponds circuit π ρ (round (.ofCircuit circuit) cluster)
      (round (.ofCircuit circuit') cluster') where
  injOn := by
    have hold : ∀ k, (∃ v, Attraction.clusterOf (Attraction.round (.ofCircuit circuit) cluster) v =
        some k) → ∃ v, Attraction.clusterOf cluster v = some k := by
      rintro k ⟨v, hv⟩
      rcases clusterOf_round_eq_some_iff.1 hv with hv | ⟨-, -, ⟨u, -, hu⟩, -⟩
      · exact ⟨v, hv⟩
      · exact ⟨u, hu⟩
    exact hc.injOn.mono fun k hk => hold k hk
  clusterOf v hv := by
    ext l
    rw [clusterOf_round_eq_some_iff, hc.isOnlyCluster_iff h hv, hc.clusterOf v hv, hsize',
      Option.map_eq_some_iff, Option.map_eq_some_iff, Option.map_eq_none_iff]
    simp only [clusterOf_round_eq_some_iff, hsize, hv, true_and, or_and_right, exists_or]
    refine or_congr_right ⟨?_, ?_⟩
    · rintro ⟨-, hnone, k, honly, rfl⟩
      exact ⟨k, ⟨hnone, honly⟩, rfl⟩
    · rintro ⟨k, ⟨hnone, honly⟩, rfl⟩
      exact ⟨h.bijOn.mapsTo hv, hnone, k, honly, rfl⟩

theorem size_iterate_round (n : Nat) : ((round g)^[n] cluster).size = cluster.size := by
  induction n with
  | zero => rfl
  | succ n ih => rw [Function.iterate_succ_apply', size_round, ih]

/-- Any number of rounds keeps clusters in correspondence. -/
theorem Corresponds.iterate (hc : Corresponds circuit π ρ (start circuit) (start circuit'))
    (h : circuit.IsRearrangement circuit' π f) (n : Nat) :
    Corresponds circuit π ρ ((Attraction.round (.ofCircuit circuit))^[n] (start circuit))
      ((Attraction.round (.ofCircuit circuit'))^[n] (start circuit')) := by
  induction n with
  | zero => exact hc
  | succ n ih =>
    rw [Function.iterate_succ_apply', Function.iterate_succ_apply']
    exact ih.round h (size_iterate_round n |>.trans Array.size_ofFn)
      (size_iterate_round n |>.trans Array.size_ofFn)

end Rearranging

/-! ## The partition -/

/-- The loop ends. -/
theorem growsTo_start (circuit : Circuit) : GrowsTo (.ofCircuit circuit) (start circuit)
    (grow (.ofCircuit circuit) circuit.nConstraints (start circuit)) := by
  refine growsTo_grow ((Finset.card_filter_le _ _).trans ?_)
  rw [Finset.card_range, start, Array.size_ofFn]

theorem isGrown_grow (circuit : Circuit) : IsGrown circuit
    (grow (.ofCircuit circuit) circuit.nConstraints (start circuit)) :=
  (growsTo_start circuit).invariant (fun _ h => h.round) (isGrown_start circuit)

/-- Rearranging the constraints rearranges the parts. -/
theorem parts_rearranged {circuit' : Circuit} {π : Nat → Nat} {f : Signal → Signal}
    (h : circuit.IsRearrangement circuit' π f) : (partition circuit').parts.Perm
      ((partition circuit).parts.map fun part => ascending (part.map π)) := by
  obtain ⟨ρ, hstart⟩ := exists_corresponds_start h
  have hcorresponds := hstart.iterate h circuit.nConstraints
  have hcount : circuit'.nConstraints = circuit.nConstraints := (eq_of_bijOn_Iio h.bijOn).symm
  rw [← grow_eq_iterate, ← grow_eq_iterate] at hcorresponds
  have hgrown' := isGrown_grow circuit'
  rw [hcount] at hgrown'
  rw [partition_eq, partition_eq, hcount]
  refine isDivision_clustered.perm_map_of_samePart_iff (hcount ▸ isDivision_clustered) h.bijOn
    fun i hi j hj => ?_
  have hi' : π i < circuit'.nConstraints := h.bijOn.mapsTo hi
  have hj' : π j < circuit'.nConstraints := h.bijOn.mapsTo hj
  rw [hgrown'.samePart_clustered_iff, (isGrown_grow circuit).samePart_clustered_iff,
    hcorresponds.clusterOf i hi, hcorresponds.clusterOf j hj, and_iff_right hi, and_iff_right hj,
    and_iff_right hi', and_iff_right hj', h.bijOn.injOn.eq_iff hi hj]
  refine or_congr_right ⟨?_, ?_⟩
  · rintro ⟨l, hil, hjl⟩
    obtain ⟨k, hik, rfl⟩ := Option.map_eq_some_iff.1 hil
    obtain ⟨k', hjk', heq⟩ := Option.map_eq_some_iff.1 hjl
    obtain rfl := hcorresponds.injOn ⟨j, hjk'⟩ ⟨i, hik⟩ heq
    exact ⟨k', hik, hjk'⟩
  · rintro ⟨k, hik, hjk⟩
    exact ⟨ρ k, by rw [hik, Option.map_some], by rw [hjk, Option.map_some]⟩

/-- What attraction clusters. The loop ends, and the parts share out the constraints. Nonlinear constraints
are together if a chain of nonlinear constraints links them, and every part is connected. A part without
nonlinear constraints is a single constraint beside none of the parts that have some, or beside several of
them. The order of the constraints and the names of the signals make no difference. -/
theorem partition_exact (circuit : Circuit) :
    (∃ last, GrowsTo (.ofCircuit circuit) (start circuit) last ∧
        partition circuit = clustered circuit last) ∧
      IsDivision circuit.nConstraints (partition circuit).parts ∧ InOrder (partition circuit).parts ∧
      (∀ i j, isNonlinearAt circuit i = true → isNonlinearAt circuit j = true →
        (SamePart (partition circuit).parts i j ↔
          circuit.Linked (isNonlinearAt circuit · = true) i j)) ∧
      (∀ part ∈ (partition circuit).parts, ∀ i ∈ part, ∀ j ∈ part, circuit.Linked (· ∈ part) i j) ∧
      (∀ part ∈ (partition circuit).parts, (∀ i ∈ part, isNonlinearAt circuit i = false) →
        ∃ k, part = [k] ∧ ((∀ other, ¬IsAttractor circuit (partition circuit).parts other k) ∨
          ∃ other other', other ≠ other' ∧ IsAttractor circuit (partition circuit).parts other k ∧
            IsAttractor circuit (partition circuit).parts other' k)) ∧
      ∀ (circuit' : Circuit) (π : Nat → Nat) (f : Signal → Signal),
        circuit.IsRearrangement circuit' π f → (partition circuit').parts.Perm
          ((partition circuit).parts.map fun part => ascending (part.map π)) := by
  have hgrown := isGrown_grow circuit
  have hsettled := (growsTo_start circuit).round_last
  refine ⟨⟨_, growsTo_start circuit, rfl⟩, isDivision_clustered, Partition.inOrder_parts _,
    fun i j hi hj => hgrown.samePart_nonlinear_iff hi hj,
    fun part hpart i hi j hj => hgrown.linked_of_mem_part hpart hi hj,
    fun part hpart hlinear => ?_, fun circuit' π f h => parts_rearranged h⟩
  obtain ⟨k, hk⟩ := List.exists_mem_of_ne_nil part (isDivision_clustered.ne_nil part hpart)
  have hnone := hgrown.clusterOf_eq_none hpart hlinear hk
  exact ⟨k, hgrown.part_eq_singleton hpart hk hnone, hgrown.attractors_of_settled hsettled hnone⟩

namespace Sample

/-- The product of `x` and `y` is `z`. -/
def product (x y z : Signal) : Constraint := .r1cs (.ofInts ⟨101⟩ [(x, 1)] [(y, 1)] [(z, 1)])

/-- The signals `x` and `y` are equal. -/
def equality (x y : Signal) : Constraint := .r1cs (.ofInts ⟨101⟩ [] [] [(x, 1), (y, -1)])

/-- Two blocks of products, a bridge between them, a tail at the second one, and an equality apart. -/
def blocks : Circuit where
  field := ⟨101⟩
  dialect := .r1cs
  nSignals := 12
  constraints := #[product 1 2 3, product 3 2 4, product 5 6 7, equality 4 5, equality 7 8,
    equality 8 9, equality 10 11]
  inputs := .ofList []
  outputs := .ofList []
  nSignals_pos := by decide
  inputs_declarable := by decide
  outputs_declarable := by decide
  inputs_disjoint_outputs := by decide
  constraints_wellFormed := by decide

/-- The constraints of the blocks from last to first, and the signals, too. -/
def mirrored : Circuit where
  field := ⟨101⟩
  dialect := .r1cs
  nSignals := 12
  constraints := #[equality 2 1, equality 4 3, equality 5 4, equality 8 7, product 7 6 5,
    product 9 10 8, product 11 10 9]
  inputs := .ofList []
  outputs := .ofList []
  nSignals_pos := by decide
  inputs_declarable := by decide
  outputs_declarable := by decide
  inputs_disjoint_outputs := by decide
  constraints_wellFormed := by decide

theorem isRearrangement_mirrored : blocks.IsRearrangement mirrored (6 - ·) (12 - ·) where
  bijOn := by
    refine ⟨fun k (hk : k < 7) => ?_, fun k (hk : k < 7) l (hl : l < 7) (heq : 6 - k = 6 - l) => ?_,
      fun k (hk : k < 7) => ⟨6 - k, ?_, ?_⟩⟩
    · show 6 - k < 7
      omega
    · omega
    · show 6 - k < 7
      omega
    · show 6 - (6 - k) = k
      omega
  injOn := by
    have hlt : ∀ c ∈ blocks.constraints.toList, ∀ s ∈ c.signals, s < 12 := by decide
    have hinj : ∀ a b : Nat, a < 12 → b < 12 → 12 - a = 12 - b → a = b := by omega
    rintro s ⟨c, hc, hs⟩ t ⟨d, hd, ht⟩ heq
    exact hinj s t (hlt c hc s hs) (hlt d hd t ht) heq
  renamed := by
    have hall : ∀ k < 7, ∃ d, blocks.constraints[k]?.map (·.signalMap (12 - ·)) = some (.ok d) ∧
        mirrored.constraints[6 - k]? = some d := by
      intro k hk
      interval_cases k <;> exact ⟨_, rfl, by decide⟩
    intro k c hc
    obtain ⟨d, hd, hget⟩ := hall k (Array.getElem?_eq_some_iff.1 hc).1
    rw [hc, Option.map_some, Option.some.injEq] at hd
    exact ⟨d, hd, hget⟩

end Sample

open Sample in
/-- The products of a block are together, and the tail joins the second block in two rounds. The bridge has
both blocks beside it and stays out, as does the equality apart. -/
theorem partition_exact_blocks :
    (partition blocks).parts = [[0, 1], [2, 4, 5], [3], [6]] ∧
      blocks.Linked (isNonlinearAt blocks · = true) 0 1 ∧
      blocks.Linked (· ∈ [2, 4, 5]) 2 5 ∧
      (∃ other other', other ≠ other' ∧ IsAttractor blocks (partition blocks).parts other 3 ∧
        IsAttractor blocks (partition blocks).parts other' 3) ∧
      blocks.IsRearrangement mirrored (6 - ·) (12 - ·) ∧
      (partition mirrored).parts.Perm [[5, 6], [1, 2, 4], [3], [0]] := by
  have hparts : (partition blocks).parts = [[0, 1], [2, 4, 5], [3], [6]] := by decide +kernel
  obtain ⟨-, -, -, hnonlinear, hconnected, hsingle, hrearranged⟩ := partition_exact blocks
  rw [hparts] at hnonlinear hconnected hsingle hrearranged
  have hmirrored : [[0, 1], [2, 4, 5], [3], [6]].map (fun part => ascending (part.map (6 - ·))) =
      [[5, 6], [1, 2, 4], [3], [0]] := by cbv
  obtain ⟨k, hk, hattractors⟩ := hsingle [3] (by decide) (by decide +kernel)
  obtain rfl : 3 = k := by simpa using hk
  have hattractor : IsAttractor blocks [[0, 1], [2, 4, 5], [3], [6]] [0, 1] 3 :=
    ⟨by decide, ⟨0, by decide, by decide +kernel⟩, 1, by decide,
      ⟨_, _, rfl, rfl, 4, by decide +kernel, by decide +kernel⟩⟩
  refine ⟨hparts, (hnonlinear 0 1 (by decide +kernel) (by decide +kernel)).1
    ⟨[0, 1], by decide, by decide, by decide⟩, hconnected [2, 4, 5] (by decide) 2 (by decide) 5 (by decide),
    ?_, isRearrangement_mirrored, hmirrored ▸ hrearranged mirrored _ _ isRearrangement_mirrored⟩
  rw [hparts]
  exact hattractors.resolve_left fun hnone => hnone _ hattractor

end Attraction

end CircuitEquiv
