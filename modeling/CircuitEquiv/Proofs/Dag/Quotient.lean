-- SUMMARY: Turning a partition into a graph stops, and gives a well-formed one.
import CircuitEquiv.Dag.Quotient
import CircuitEquiv.Proofs.Dag.WellFormed

/-!
# Graphs of partitions

Merging parts keeps the constraints shared out. Each round has fewer parts than the one before, so the
last one leaves no adjacent parts of equal distances. Edges then follow a strict order of the distances
and cannot form a cycle.
-/

namespace CircuitEquiv

open Relation (TransGen)

/-! ## Pairs of a list -/

theorem mem_pairsOf_of_pairwise {α : Type} {r : α → α → Prop} {l : List α} (h : l.Pairwise r) {a b : α}
    (hab : (a, b) ∈ pairsOf l) : a ∈ l ∧ b ∈ l ∧ r a b := by
  induction l with
  | nil => cases hab
  | cons x rest ih =>
    obtain ⟨hx, hrest⟩ := List.pairwise_cons.1 h
    rcases List.mem_append.1 hab with hab | hab
    · obtain ⟨y, hy, heq⟩ := List.mem_map.1 hab
      cases heq
      exact ⟨List.mem_cons_self, List.mem_cons_of_mem _ hy, hx b hy⟩
    · obtain ⟨ha, hb, hr⟩ := ih hrest hab
      exact ⟨List.mem_cons_of_mem _ ha, List.mem_cons_of_mem _ hb, hr⟩

theorem mem_pairsOf_of_lt {l : List Nat} (h : l.Pairwise (· < ·)) {a b : Nat} (ha : a ∈ l)
    (hb : b ∈ l) (hab : a < b) : (a, b) ∈ pairsOf l := by
  induction l with
  | nil => cases ha
  | cons x rest ih =>
    obtain ⟨hx, hrest⟩ := List.pairwise_cons.1 h
    rw [pairsOf, List.mem_append]
    rcases List.mem_cons.1 ha with rfl | ha'
    · have hb := (List.mem_cons.1 hb).resolve_left hab.ne'
      exact Or.inl (List.mem_map_of_mem hb)
    · rcases List.mem_cons.1 hb with rfl | hb'
      · exact absurd (hx a ha') (Nat.lt_asymm hab)
      · exact Or.inr (ih hrest ha' hb')

theorem mem_pairsOf_range {n p q : Nat} : (p, q) ∈ pairsOf (List.range n) ↔ p < q ∧ q < n := by
  constructor
  · intro h
    obtain ⟨-, hq, hlt⟩ := mem_pairsOf_of_pairwise List.pairwise_lt_range h
    exact ⟨hlt, List.mem_range.1 hq⟩
  · rintro ⟨hlt, hq⟩
    exact mem_pairsOf_of_lt List.pairwise_lt_range (List.mem_range.2 (hlt.trans hq))
      (List.mem_range.2 hq) hlt

/-! ## Parts -/

/-- The parts share out the numbers below `n`. -/
structure IsDivision (n : Nat) (parts : List (List Nat)) : Prop where
  cover : parts.flatten.Perm (List.range n)
  ne_nil : ∀ part ∈ parts, part ≠ []
  sorted : ∀ part ∈ parts, part.Pairwise (· < ·)

namespace Partition

variable {p : Partition}

theorem mem_members {label i : Nat} : i ∈ p.members label ↔ p.labels[i]? = some label := by
  simp only [members, List.mem_map, List.mem_filter, Prod.exists, List.mem_zipIdx_iff_getElem?,
    decide_eq_true_eq]
  constructor
  · rintro ⟨_, _, ⟨h, rfl⟩, rfl⟩
    exact h
  · exact fun h => ⟨label, i, ⟨h, rfl⟩, rfl⟩

theorem pairwise_members (p : Partition) (label : Nat) : (p.members label).Pairwise (· < ·) := by
  have hindices : (p.labels.zipIdx.map Prod.snd).Pairwise (· < ·) := by
    rw [List.zipIdx_map_snd]
    exact List.pairwise_lt_range'
  exact hindices.sublist (List.filter_sublist.map _)

theorem isDivision_parts (p : Partition) : IsDivision p.size p.parts where
  cover := by
    have hnodup : p.parts.flatten.Nodup := by
      refine List.nodup_flatten.2 ⟨fun part hpart => ?_, ?_⟩
      · obtain ⟨label, -, rfl⟩ := List.mem_map.1 hpart
        exact (p.pairwise_members label).imp Nat.ne_of_lt
      · refine List.pairwise_map.2 ((nodup_eraseDups p.labels).imp fun hne i hi hi' => hne ?_)
        rw [mem_members] at hi hi'
        exact Option.some.inj (hi.symm.trans hi')
    refine (List.perm_ext_iff_of_nodup hnodup List.nodup_range).2 fun i => ?_
    simp only [parts, List.mem_flatten, List.mem_map, exists_exists_and_eq_and, mem_members,
      List.mem_range, size, List.mem_eraseDups]
    constructor
    · rintro ⟨label, -, h⟩
      exact (List.getElem?_eq_some_iff.1 h).1
    · exact fun h => ⟨p.labels[i], List.getElem_mem h, List.getElem?_eq_getElem h⟩
  ne_nil part hpart := by
    obtain ⟨label, hlabel, rfl⟩ := List.mem_map.1 hpart
    obtain ⟨i, hi⟩ := List.mem_iff_getElem?.1 (List.mem_eraseDups.1 hlabel)
    exact List.ne_nil_of_mem (mem_members.2 hi)
  sorted part hpart := by
    obtain ⟨label, -, rfl⟩ := List.mem_map.1 hpart
    exact p.pairwise_members label

end Partition

namespace Quotient

variable {circuit : Circuit} {parts : List (List Nat)} {n p r : Nat}

/-- Some signal occurs in both parts. -/
def Meet (circuit : Circuit) (parts : List (List Nat)) (p r : Nat) : Prop :=
  ∃ s, s ∈ partSignals circuit (parts[p]?.getD []) ∧ s ∈ partSignals circuit (parts[r]?.getD [])

theorem meet_comm : Meet circuit parts p r ↔ Meet circuit parts r p := exists_congr fun _ => and_comm

theorem mem_partSignals {part : List Nat} {s : Signal} : s ∈ partSignals circuit part ↔
    ∃ k ∈ part, s ∈ (circuit.constraints[k]?.getD default).signals := by
  rw [partSignals, SortedSet.mem_ofList, List.mem_flatMap]
  rfl

theorem signals_ofParts (p : Nat) : (ofParts circuit parts).signals[p]?.getD SortedSet.empty =
    partSignals circuit (parts[p]?.getD []) := by
  simp only [ofParts, List.getElem?_toArray, List.getElem?_map]
  cases parts[p]? <;> rfl

theorem mem_adjacent : (p, r) ∈ (ofParts circuit parts).adjacent ↔
    (p < r ∧ r < parts.length) ∧ Meet circuit parts p r := by
  have hsignals : ∀ p, ((parts.map (partSignals circuit)).toArray[p]?).getD SortedSet.empty =
      partSignals circuit (parts[p]?.getD []) := signals_ofParts
  simp only [ofParts, SortedSet.mem_ofList, List.mem_filter, mem_pairsOf_range, hsignals,
    Bool.not_eq_true', SortedSet.isEmpty_eq_false_iff, SortedSet.inter, SortedSet.mem_filter,
    decide_eq_true_eq, Meet]

/-- Parts are adjacent, one way or the other, if they are different and meet. -/
theorem adjacent_iff : ((p, r) ∈ (ofParts circuit parts).adjacent ∨
    (r, p) ∈ (ofParts circuit parts).adjacent) ↔
    p < parts.length ∧ r < parts.length ∧ p ≠ r ∧ Meet circuit parts p r := by
  rw [mem_adjacent, mem_adjacent, @meet_comm circuit parts r p]
  constructor
  · rintro (⟨⟨hlt, hr⟩, hmeet⟩ | ⟨⟨hlt, hp⟩, hmeet⟩)
    · exact ⟨hlt.trans hr, hr, hlt.ne, hmeet⟩
    · exact ⟨hp, hlt.trans hp, hlt.ne', hmeet⟩
  · rintro ⟨hp, hr, hne, hmeet⟩
    rcases Nat.lt_or_gt_of_ne hne with hlt | hgt
    · exact Or.inl ⟨⟨hlt, hr⟩, hmeet⟩
    · exact Or.inr ⟨⟨hgt, hp⟩, hmeet⟩

theorem mem_neighbours {adjacent : SortedSet (Nat × Nat)} :
    r ∈ neighbours adjacent p ↔ (p, r) ∈ adjacent ∨ (r, p) ∈ adjacent := by
  simp only [neighbours, List.mem_filterMap, Prod.exists, ← SortedSet.mem_def]
  constructor
  · rintro ⟨x, y, hxy, h⟩
    split_ifs at h with hx hy
    · cases h
      exact Or.inl (hx ▸ hxy)
    · cases h
      exact Or.inr (hy ▸ hxy)
  · rintro (h | h)
    · exact ⟨p, r, h, if_pos rfl⟩
    · by_cases hr : r = p
      · exact ⟨r, p, h, by rw [if_pos hr, hr]⟩
      · exact ⟨r, p, h, by rw [if_neg hr, if_pos rfl]⟩

theorem mem_equalNeighbours {q : Quotient} : r ∈ q.equalNeighbours p ↔
    ((p, r) ∈ q.adjacent ∨ (r, p) ∈ q.adjacent) ∧ q.distancesOf r = q.distancesOf p := by
  rw [equalNeighbours, List.mem_filter, mem_neighbours, decide_eq_true_eq]

section Components

variable (circuit : Circuit) (parts : List (List Nat))

theorem equalNeighbours_lt (u : Nat) (_hu : u ∈ List.range parts.length) (v : Nat)
    (hv : v ∈ (ofParts circuit parts).equalNeighbours u) : v ∈ List.range parts.length := by
  obtain ⟨-, hlt, -⟩ := adjacent_iff.1 (mem_equalNeighbours.1 hv).1
  exact List.mem_range.2 hlt

/-- The groups of parts that are merged share out the parts. -/
theorem perm_components : (Reach.components (ofParts circuit parts).equalNeighbours
    (List.range parts.length)).flatten.Perm (List.range parts.length) := by
  refine Reach.perm_flatten_components List.nodup_range (equalNeighbours_lt circuit parts)
    fun u _ v hv => ?_
  rw [mem_equalNeighbours] at hv ⊢
  exact ⟨hv.1.symm, hv.2.symm⟩

theorem length_mergedParts : (ofParts circuit parts).mergedParts.length =
    (Reach.components (ofParts circuit parts).equalNeighbours (List.range parts.length)).length :=
  List.length_map _

/-- There are no more groups than parts, and each is a single part if there are as many. -/
theorem length_components : (ofParts circuit parts).mergedParts.length ≤ parts.length ∧
    (parts.length ≤ (ofParts circuit parts).mergedParts.length →
      ∀ group ∈ Reach.components (ofParts circuit parts).equalNeighbours (List.range parts.length),
        group.length = 1) := by
  have hcount := Reach.length_le_length_flatten fun group
    (hgroup : group ∈ Reach.components (ofParts circuit parts).equalNeighbours
      (List.range parts.length)) => Reach.component_ne_nil hgroup
  rwa [(perm_components circuit parts).length_eq, List.length_range, ← length_mergedParts] at hcount

end Components

/-- The parts of a list one after the other. -/
theorem flatMap_range (parts : List (List Nat)) :
    ((List.range parts.length).flatMap fun p => parts[p]?.getD []) = parts.flatten := by
  have hmap : (List.range parts.length).map (fun p => parts[p]?.getD []) = parts := by
    refine List.ext_getElem (by simp) fun i hi hi' => ?_
    simp [hi']
  rw [List.flatMap_def, hmap]

/-- Merging parts keeps the numbers shared out. -/
theorem isDivision_mergedParts (h : IsDivision n parts) :
    IsDivision n (ofParts circuit parts).mergedParts := by
  have hgroups : ((Reach.components (ofParts circuit parts).equalNeighbours
      (List.range parts.length)).flatMap fun group =>
        group.flatMap fun p => parts[p]?.getD []).Perm (List.range n) := by
    have hparts := (perm_components circuit parts).flatMap_right fun p => parts[p]?.getD []
    rw [List.flatten_eq_flatMap, List.flatMap_assoc, flatMap_range] at hparts
    exact hparts.trans h.cover
  constructor
  · rw [mergedParts, ← List.flatMap_def]
    exact (List.Perm.flatMap_left _ fun _ _ => ascending_perm _).trans hgroups
  · intro part hpart
    obtain ⟨group, hgroup, rfl⟩ := List.mem_map.1 hpart
    obtain ⟨p, hp⟩ := List.exists_mem_of_ne_nil _ (Reach.component_ne_nil hgroup)
    have hlt := List.mem_range.1 ((perm_components circuit parts).mem_iff.1
      (List.mem_flatten.2 ⟨group, hgroup, hp⟩))
    obtain ⟨k, hk⟩ := List.exists_mem_of_ne_nil _ (h.ne_nil _ (List.getElem_mem hlt))
    have hk : k ∈ (ofParts circuit parts).parts[p]?.getD [] := by
      show k ∈ parts[p]?.getD []
      rwa [List.getElem?_eq_getElem hlt]
    exact List.ne_nil_of_mem (mem_ascending.2 (List.mem_flatMap.2 ⟨p, hp, hk⟩))
  · intro part hpart
    obtain ⟨group, hgroup, rfl⟩ := List.mem_map.1 hpart
    have hnodup := (List.nodup_flatMap.1 (hgroups.nodup_iff.2 List.nodup_range)).1 group hgroup
    exact pairwise_lt_ascending hnodup

/-- Adjacent parts differ in their distances. -/
def IsSettled (q : Quotient) : Prop := ∀ p r, (p, r) ∈ q.adjacent → q.distancesOf p ≠ q.distancesOf r

/-- A round that merges nothing has nothing to merge. -/
theorem isSettled_of_length_eq
    (h : (ofParts circuit parts).mergedParts.length = parts.length) :
    (ofParts circuit parts).IsSettled := by
  intro p r hpr heq
  have hlt := (mem_adjacent.1 hpr).1
  have hp : p ∈ List.range parts.length := List.mem_range.2 (hlt.1.trans hlt.2)
  obtain ⟨group, hgroup, hmem⟩ :=
    List.mem_flatten.1 ((perm_components circuit parts).mem_iff.2 hp)
  have hr := Reach.mem_component_of_mem_next (equalNeighbours_lt circuit parts) hgroup hmem
    (mem_equalNeighbours.2 ⟨Or.inl hpr, heq.symm⟩)
  obtain ⟨x, rfl⟩ := List.length_eq_one_iff.1
    ((length_components circuit parts).2 h.ge group hgroup)
  rw [List.mem_singleton.1 hmem, List.mem_singleton.1 hr] at hlt
  exact Nat.lt_irrefl _ hlt.1

/-- Where adjacent parts differ, every group of parts that are merged is a single part. -/
theorem length_eq_of_isSettled (h : (ofParts circuit parts).IsSettled) :
    (ofParts circuit parts).mergedParts.length = parts.length := by
  have hnone : ∀ p r, r ∉ (ofParts circuit parts).equalNeighbours p := fun p r hr => by
    obtain ⟨hpr | hrp, heq⟩ := mem_equalNeighbours.1 hr
    · exact h p r hpr heq.symm
    · exact h r p hrp heq
  have hsingle : ∀ group ∈ Reach.components (ofParts circuit parts).equalNeighbours
      (List.range parts.length), group.length = 1 := fun group hgroup => by
    obtain ⟨p, hp, -, rfl⟩ := Reach.exists_of_mem_componentsFrom hgroup
    rw [List.length_eq_one_iff]
    refine ⟨p, List.perm_singleton.1 ((List.perm_ext_iff_of_nodup (Reach.nodup_reachable _ _ _)
      (List.nodup_singleton p)).2 fun r => ?_)⟩
    rw [Reach.mem_reachable (equalNeighbours_lt circuit parts) (List.toFinset_card_le _) hp,
      List.mem_singleton, Relation.reflTransGen_iff_eq (hnone p)]
  have hcount := (perm_components circuit parts).length_eq
  rw [List.length_flatten, List.map_congr_left hsingle, List.map_const', List.sum_replicate_nat,
    Nat.mul_one, List.length_range] at hcount
  rw [length_mergedParts, hcount]

/-- A run of the rounds of merging: while some adjacent parts agree in their distances the parts are
merged, and the run is over when all differ. -/
inductive MergesTo (circuit : Circuit) : List (List Nat) → List (List Nat) → Prop
  | settled {parts : List (List Nat)} (h : (ofParts circuit parts).IsSettled) :
      MergesTo circuit parts parts
  | round {parts last : List (List Nat)} (h : ¬ (ofParts circuit parts).IsSettled)
      (rest : MergesTo circuit (ofParts circuit parts).mergedParts last) : MergesTo circuit parts last

/-- The rounds come to an end, and as many as there are parts are enough. -/
theorem exists_mergesTo (circuit : Circuit) {fuel : Nat} (hfuel : parts.length ≤ fuel) :
    ∃ last, MergesTo circuit parts last ∧ settle circuit fuel parts = ofParts circuit last := by
  induction fuel generalizing parts with
  | zero =>
    refine ⟨parts, .settled fun p r hpr => ?_, rfl⟩
    have hlt := (mem_adjacent.1 hpr).1.2
    omega
  | succ fuel ih =>
    simp only [settle]
    split
    · rename_i hlength
      exact ⟨parts, .settled (isSettled_of_length_eq hlength), rfl⟩
    · rename_i hlength
      have hle := (length_components circuit parts).1
      obtain ⟨last, hlast, heq⟩ := ih (by omega : (ofParts circuit parts).mergedParts.length ≤ fuel)
      exact ⟨last, .round (fun h => hlength (length_eq_of_isSettled h)) hlast, heq⟩

namespace MergesTo

variable {last : List (List Nat)}

theorem isSettled (h : MergesTo circuit parts last) : (ofParts circuit last).IsSettled := by
  induction h with
  | settled h => exact h
  | round _ _ ih => exact ih

/-- The numbers stay shared out. -/
theorem isDivision (h : MergesTo circuit parts last) (hparts : IsDivision n parts) :
    IsDivision n last := by
  induction h with
  | settled _ => exact hparts
  | round _ _ ih => exact ih (isDivision_mergedParts hparts)

end MergesTo

/-! ## Edges -/

theorem Distance.key_injective {x y : Distance} (h : Distance.key x = Distance.key y) : x = y := by
  cases x <;> cases y <;> simp_all [Distance.key]

/-- A part comes before another one if it is nearer to the inputs, or as near and farther from the
outputs. -/
def Precedes (q : Quotient) (p r : Nat) : Prop :=
  compare (q.orderKey p).1 (q.orderKey r).1 = .lt ∨
    (q.orderKey p).1 = (q.orderKey r).1 ∧ compare (q.orderKey r).2 (q.orderKey p).2 = .lt

theorem Precedes.trans {q : Quotient} {u : Nat} (hpr : q.Precedes p r) (hru : q.Precedes r u) :
    q.Precedes p u := by
  rcases hpr with hpr | ⟨hpr, hpr'⟩ <;> rcases hru with hru | ⟨hru, hru'⟩
  · exact Or.inl (Std.TransCmp.lt_trans hpr hru)
  · exact Or.inl (hru ▸ hpr)
  · exact Or.inl (hpr ▸ hru)
  · exact Or.inr ⟨hpr.trans hru, Std.TransCmp.lt_trans hru' hpr'⟩

theorem not_precedes_self (q : Quotient) (p : Nat) : ¬ q.Precedes p p := by
  simp [Precedes, Std.ReflCmp.compare_self]

/-- Between parts of different distances edges lead from the one that comes before. -/
theorem precedes_of_leadsTo {q : Quotient} (hne : q.distancesOf p ≠ q.distancesOf r) :
    if q.leadsTo p r then q.Precedes p r else q.Precedes r p := by
  have hkeys : (q.orderKey p).1 = (q.orderKey r).1 → (q.orderKey p).2 ≠ (q.orderKey r).2 :=
    fun h h' => hne (Prod.ext (Distance.key_injective h) (Distance.key_injective h'))
  unfold leadsTo
  split
  · rename_i hlt
    exact Or.inl hlt
  · rename_i hgt
    exact Or.inl (Std.OrientedCmp.lt_of_gt hgt)
  · rename_i heq
    have heq := Std.LawfulEqCmp.eq_of_compare heq
    cases hcmp : compare (q.orderKey p).2 (q.orderKey r).2 with
    | lt => exact Or.inr ⟨heq.symm, hcmp⟩
    | eq => exact absurd (Std.LawfulEqCmp.eq_of_compare hcmp) (hkeys heq)
    | gt => exact Or.inr ⟨heq, Std.OrientedCmp.lt_of_gt hcmp⟩

/-- The graph of the parts before any boundaries are worked out. -/
def bareDag (q : Quotient) (circuit : Circuit) : Dag where
  circuit
  nodes := ((q.parts.zip q.signals.toList).map fun (part, signals) =>
    (⟨part, signals, SortedSet.empty, SortedSet.empty⟩ : DagNode)).toArray
  live := SortedSet.ofList (List.range (q.parts.zip q.signals.toList).length)
  edges := q.adjacent.image fun (p, r) => if q.leadsTo p r then (p, r) else (r, p)

theorem toDag_eq (q : Quotient) (circuit : Circuit) : q.toDag circuit =
    (List.range (q.parts.zip q.signals.toList).length).foldl Dag.refreshBoundaries
      (q.bareDag circuit) := by
  simp only [toDag, bareDag, List.length_map]

section Bare

variable {q : Quotient}

theorem length_zip_ofParts :
    ((ofParts circuit parts).parts.zip (ofParts circuit parts).signals.toList).length =
      parts.length := by
  simp [ofParts]

theorem mem_live_bareDag : p ∈ ((ofParts circuit parts).bareDag circuit).live ↔ p < parts.length := by
  rw [bareDag, SortedSet.mem_ofList, length_zip_ofParts, List.mem_range]

theorem size_nodes_bareDag : ((ofParts circuit parts).bareDag circuit).nodes.size = parts.length := by
  simp [bareDag, ofParts]

theorem node_bareDag (hp : p < parts.length) : ((ofParts circuit parts).bareDag circuit).node p =
    ⟨parts[p], partSignals circuit parts[p], SortedSet.empty, SortedSet.empty⟩ := by
  simp [Dag.node, bareDag, ofParts, hp]

theorem share_bareDag_iff (hp : p < parts.length) (hr : r < parts.length) :
    ((ofParts circuit parts).bareDag circuit).Share p r ↔ Meet circuit parts p r := by
  rw [Dag.Share, node_bareDag hp, node_bareDag hr, Meet, List.getElem?_eq_getElem hp,
    List.getElem?_eq_getElem hr]
  rfl

theorem edge_bareDag_iff : (q.bareDag circuit).Edge p r ↔
    ((p, r) ∈ q.adjacent ∧ q.leadsTo p r = true) ∨ ((r, p) ∈ q.adjacent ∧ q.leadsTo r p = false) := by
  simp only [Dag.Edge, bareDag, SortedSet.image, SortedSet.mem_ofList, List.mem_map, Prod.exists]
  constructor
  · rintro ⟨x, y, hxy, h⟩
    split_ifs at h with hlead
    · cases h
      exact Or.inl ⟨hxy, hlead⟩
    · cases h
      exact Or.inr ⟨hxy, Bool.not_eq_true _ ▸ hlead⟩
  · rintro (⟨hpr, hlead⟩ | ⟨hrp, hlead⟩)
    · exact ⟨p, r, hpr, if_pos hlead⟩
    · exact ⟨r, p, hrp, if_neg (by rw [hlead]; exact Bool.false_ne_true)⟩

/-- Edges of a settled quotient follow the order of the parts. -/
theorem precedes_of_edge (hq : q.IsSettled) (h : (q.bareDag circuit).Edge p r) : q.Precedes p r := by
  rcases edge_bareDag_iff.1 h with ⟨hpr, hlead⟩ | ⟨hrp, hlead⟩
  · simpa [hlead] using precedes_of_leadsTo (hq p r hpr)
  · simpa [hlead] using precedes_of_leadsTo (hq r p hrp)

/-- Parts are joined by an edge exactly if they are adjacent. -/
theorem edge_or_edge_iff : (q.bareDag circuit).Edge p r ∨ (q.bareDag circuit).Edge r p ↔
    (p, r) ∈ q.adjacent ∨ (r, p) ∈ q.adjacent := by
  rw [edge_bareDag_iff, edge_bareDag_iff]
  cases q.leadsTo p r <;> cases q.leadsTo r p <;> simp [or_comm]

end Bare

/-- The parts of a settled quotient are a graph of clusters. -/
theorem isClustering_bareDag (h : IsDivision circuit.nConstraints parts)
    (hq : (ofParts circuit parts).IsSettled) :
    ((ofParts circuit parts).bareDag circuit).IsClustering where
  live_lt p hp := size_nodes_bareDag.symm ▸ mem_live_bareDag.1 hp
  constraints_ne_nil p hp := by
    rw [node_bareDag (mem_live_bareDag.1 hp)]
    exact h.ne_nil _ (List.getElem_mem _)
  constraints_sorted p hp := by
    rw [node_bareDag (mem_live_bareDag.1 hp)]
    exact h.sorted _ (List.getElem_mem _)
  cover := by
    have hlive : ((ofParts circuit parts).bareDag circuit).live.toList.Perm
        (List.range parts.length) :=
      (List.perm_ext_iff_of_nodup (SortedSet.nodup_toList _) List.nodup_range).2 fun p =>
        mem_live_bareDag.trans List.mem_range.symm
    refine (hlive.flatMap_right _).trans (.trans (.of_eq ?_) h.cover)
    rw [← flatMap_range]
    refine List.flatMap_congr fun p hp => ?_
    have hp := List.mem_range.1 hp
    rw [node_bareDag hp, List.getElem?_eq_getElem hp]
    rfl
  mem_signals p hp s := by
    rw [node_bareDag (mem_live_bareDag.1 hp)]
    exact mem_partSignals
  edge_live p r hpr := by
    obtain ⟨hp, hr, -⟩ := adjacent_iff.1 (edge_or_edge_iff.1 (Or.inl hpr))
    exact ⟨mem_live_bareDag.2 hp, mem_live_bareDag.2 hr⟩
  acyclic p hcycle := by
    have hprecedes : ∀ r, TransGen ((ofParts circuit parts).bareDag circuit).Edge p r →
        (ofParts circuit parts).Precedes p r := fun r hr => by
      induction hr with
      | single hpr => exact precedes_of_edge hq hpr
      | tail _ hru ih => exact ih.trans (precedes_of_edge hq hru)
    exact not_precedes_self _ p (hprecedes p hcycle)
  share_iff p hp r hr hne := by
    have hp := mem_live_bareDag.1 hp
    have hr := mem_live_bareDag.1 hr
    rw [edge_or_edge_iff, adjacent_iff, share_bareDag_iff hp hr]
    exact ⟨fun hmeet => ⟨hp, hr, hne, hmeet⟩, fun h => h.2.2.2⟩

end Quotient

theorem Dag.circuit_ofPartition {circuit : Circuit} {partition : Partition} :
    (Dag.ofPartition circuit partition).circuit = circuit := by
  rw [ofPartition, Quotient.toDag_eq]
  exact (refreshBoundaries_foldl _).1.circuit

/-- The graph of a partition of the constraints is well-formed. -/
theorem Dag.isWellFormed_ofPartition {circuit : Circuit} {partition : Partition}
    (hsize : partition.size = circuit.nConstraints) :
    (Dag.ofPartition circuit partition).IsWellFormed := by
  obtain ⟨last, hlast, heq⟩ := Quotient.exists_mergesTo circuit (Nat.le_refl partition.parts.length)
  have hcluster := Quotient.isClustering_bareDag
    (hlast.isDivision (hsize ▸ partition.isDivision_parts)) hlast.isSettled
  obtain ⟨hagrees, hboundaries⟩ := refreshBoundaries_foldl
    (d := (Quotient.ofParts circuit last).bareDag circuit) (List.range last.length)
  rw [ofPartition, heq, Quotient.toDag_eq, Quotient.length_zip_ofParts]
  refine ⟨hagrees.isClustering hcluster, fun p hp => ?_⟩
  rw [hagrees.live] at hp
  exact hboundaries p (hcluster.live_lt p hp)
    (Or.inl (List.mem_range.2 (Quotient.mem_live_bareDag.1 hp)))

end CircuitEquiv
