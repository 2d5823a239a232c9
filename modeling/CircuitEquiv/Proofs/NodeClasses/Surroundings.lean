-- SUMMARY: Structural classes of the full depth are the coarsest equitable partition below the local classes.
import CircuitEquiv.Proofs.NodeClasses.LocalClasses
import CircuitEquiv.Proofs.NodeClasses.Propagation

/-!
# Surroundings

Labels that propagation gives to the live nodes group them into the coarsest partition that is equitable:
nodes of one part have equally many successors, and equally many predecessors, in every part. From labels
that refine the local classes every group holds equivalent nodes only, so comparing its nodes splits
nothing, and the structural classes are the groups themselves.
-/

namespace CircuitEquiv.NodeClasses

open Interaction (Ends)
open NotingAttempt (Answers)

variable {d : Dag} {a b : NodeId} {p k : List NodeId} {parts coarser groups : List (List NodeId)}

/-! ## Equitable partitions -/

/-- Every part lies in one of the coarser parts. -/
def Refines (parts coarser : List (List NodeId)) : Prop := ∀ p ∈ parts, ∃ q ∈ coarser, p ⊆ q

/-- A partition of the live nodes below a coarser one: nodes of one part have equally many successors,
and equally many predecessors, in every part. -/
structure IsEquitable (d : Dag) (coarser parts : List (List NodeId)) : Prop where
  nodes : parts.flatten.Perm d.live.toList
  nonempty : ∀ p ∈ parts, p ≠ []
  refines : Refines parts coarser
  successors : ∀ p ∈ parts, ∀ a ∈ p, ∀ b ∈ p, ∀ k ∈ parts,
    (d.successors a).countP (· ∈ k) = (d.successors b).countP (· ∈ k)
  predecessors : ∀ p ∈ parts, ∀ a ∈ p, ∀ b ∈ p, ∀ k ∈ parts,
    (d.predecessors a).countP (· ∈ k) = (d.predecessors b).countP (· ∈ k)

/-- An equitable partition that all others below the same coarser one refine. -/
structure IsCoarsestEquitable (d : Dag) (coarser parts : List (List NodeId)) : Prop where
  isEquitable : IsEquitable d coarser parts
  coarsest : ∀ parts', IsEquitable d coarser parts' → Refines parts' parts

theorem eq_of_mem_parts (h : parts.flatten.Nodup) (hp : p ∈ parts) (hk : k ∈ parts) (ha : a ∈ p)
    (hak : a ∈ k) : p = k := by
  have : Std.Symm (@List.Disjoint NodeId) := ⟨fun _ _ h => List.Disjoint.symm h⟩
  have hdisjoint : parts.Pairwise List.Disjoint := (List.nodup_flatten.1 h).2
  exact by_contra fun hne => hdisjoint.forall hp hk hne ha hak

/-! ## Partitions by a value -/

/-- Parts that consist of the nodes with one value. -/
structure GroupsBy {κ : Type} (ids : List NodeId) (f : NodeId → κ) (parts : List (List NodeId)) :
    Prop where
  nodes : parts.flatten.Perm ids
  same : ∀ p ∈ parts, ∀ a ∈ p, ∀ b ∈ p, f a = f b
  together : ∀ a ∈ ids, ∀ b ∈ ids, f a = f b → ∃ p ∈ parts, a ∈ p ∧ b ∈ p

/-- Neighbours of nodes with one value have the same values. -/
structure IsEven {κ : Type} (d : Dag) (f : NodeId → κ) : Prop where
  successors : ∀ a ∈ d.live, ∀ b ∈ d.live, f a = f b →
    ((d.successors a).map f).Perm ((d.successors b).map f)
  predecessors : ∀ a ∈ d.live, ∀ b ∈ d.live, f a = f b →
    ((d.predecessors a).map f).Perm ((d.predecessors b).map f)

section Values

variable {κ : Type} {ids l l' : List NodeId} {f : NodeId → κ}

theorem GroupsBy.nodup (h : GroupsBy ids f parts) (hids : ids.Nodup) : parts.flatten.Nodup :=
  h.nodes.nodup_iff.2 hids

theorem GroupsBy.mem_ids (h : GroupsBy ids f parts) (hp : p ∈ parts) (ha : a ∈ p) : a ∈ ids :=
  h.nodes.mem_iff.1 (List.mem_flatten.2 ⟨p, hp, ha⟩)

theorem GroupsBy.mem_iff (h : GroupsBy ids f parts) (hids : ids.Nodup) (hp : p ∈ parts) (ha : a ∈ p)
    (hb : b ∈ ids) : b ∈ p ↔ f b = f a := by
  refine ⟨fun hbp => h.same p hp b hbp a ha, fun heq => ?_⟩
  obtain ⟨q, hq, hbq, haq⟩ := h.together b hb a (h.mem_ids hp ha) heq
  exact eq_of_mem_parts (h.nodup hids) hq hp haq ha ▸ hbq

/-- Lists with the same values have equally many members in every part. -/
theorem GroupsBy.countP_eq (h : GroupsBy ids f parts) (hids : ids.Nodup) (hk : k ∈ parts) (hne : k ≠ [])
    (hl : l ⊆ ids) (hl' : l' ⊆ ids) (hperm : (l.map f).Perm (l'.map f)) :
    l.countP (· ∈ k) = l'.countP (· ∈ k) := by
  classical
  obtain ⟨c, hc⟩ := List.exists_mem_of_ne_nil _ hne
  have hcount : ∀ l : List NodeId, l ⊆ ids → l.countP (· ∈ k) = (l.map f).countP (· = f c) := by
    intro l hl
    rw [List.countP_map]
    exact List.countP_congr fun x hx => by simp [h.mem_iff hids hk hc (hl hx)]
  rw [hcount l hl, hcount l' hl', hperm.countP_eq]

/-- The part of a node. -/
def partOf (parts : List (List NodeId)) (a : NodeId) : Option (List NodeId) := parts.find? (a ∈ ·)

theorem partOf_eq_some_iff (h : parts.flatten.Nodup) :
    partOf parts a = some p ↔ p ∈ parts ∧ a ∈ p := by
  have hfound : ∀ {q}, partOf parts a = some q → q ∈ parts ∧ a ∈ q := fun hq =>
    ⟨List.mem_of_find?_eq_some hq, by simpa using List.find?_some hq⟩
  refine ⟨hfound, fun ⟨hp, ha⟩ => ?_⟩
  cases hq : partOf parts a with
  | none => exact absurd (decide_eq_true ha) (List.find?_eq_none.1 hq p hp)
  | some q => rw [eq_of_mem_parts h (hfound hq).1 hp (hfound hq).2 ha]

theorem groupsBy_partOf (h : parts.flatten.Nodup) : GroupsBy parts.flatten (partOf parts) parts where
  nodes := .refl _
  same p hp a ha b hb := by
    rw [(partOf_eq_some_iff h).2 ⟨hp, ha⟩, (partOf_eq_some_iff h).2 ⟨hp, hb⟩]
  together a ha b hb heq := by
    obtain ⟨p, hp, hap⟩ := List.mem_flatten.1 ha
    rw [(partOf_eq_some_iff h).2 ⟨hp, hap⟩] at heq
    exact ⟨p, hp, hap, ((partOf_eq_some_iff h).1 heq.symm).2⟩

/-- Lists with equally many members in every part have the same parts. -/
theorem map_partOf_perm (h : parts.flatten.Nodup) (hl : l ⊆ parts.flatten) (hl' : l' ⊆ parts.flatten)
    (hcount : ∀ k ∈ parts, l.countP (· ∈ k) = l'.countP (· ∈ k)) :
    (l.map (partOf parts)).Perm (l'.map (partOf parts)) := by
  have hpart : ∀ l : List NodeId, ∀ k ∈ parts,
      (l.map (partOf parts)).count (some k) = l.countP (· ∈ k) := by
    intro l k hk
    rw [List.count, List.countP_map]
    exact List.countP_congr fun x _ => by simp [partOf_eq_some_iff h, hk]
  refine List.perm_iff_count.2 fun v => ?_
  by_cases hv : ∃ k ∈ parts, v = some k
  · obtain ⟨k, hk, rfl⟩ := hv
    rw [hpart l k hk, hpart l' k hk, hcount k hk]
  · -- no node has the value
    have hnone : ∀ l : List NodeId, l ⊆ parts.flatten → v ∉ l.map (partOf parts) := by
      intro l hl hmem
      obtain ⟨x, hx, rfl⟩ := List.mem_map.1 hmem
      obtain ⟨k, hk, hxk⟩ := List.mem_flatten.1 (hl hx)
      exact hv ⟨k, hk, (partOf_eq_some_iff h).2 ⟨hk, hxk⟩⟩
    rw [List.count_eq_zero.2 (hnone l hl), List.count_eq_zero.2 (hnone l' hl')]

end Values

/-- The edges join live nodes. -/
def HasLiveEdges (d : Dag) : Prop := ∀ a b, d.Edge a b → a ∈ d.live ∧ b ∈ d.live

theorem HasLiveEdges.successors_subset (h : HasLiveEdges d) (a : NodeId) :
    d.successors a ⊆ d.live.toList := fun _ hb => (h _ _ (Dag.mem_successors.1 hb)).2

theorem HasLiveEdges.predecessors_subset (h : HasLiveEdges d) (a : NodeId) :
    d.predecessors a ⊆ d.live.toList := fun _ hb => (h _ _ (Dag.mem_predecessors.1 hb)).1

theorem IsEquitable.isEven_partOf (h : IsEquitable d coarser parts) (hedges : HasLiveEdges d) :
    IsEven d (partOf parts) := by
  have hnodup : parts.flatten.Nodup := h.nodes.nodup_iff.2 d.live.nodup_toList
  have hsubset : ∀ {l : List NodeId}, l ⊆ d.live.toList → l ⊆ parts.flatten := fun hl _ hx =>
    h.nodes.mem_iff.2 (hl hx)
  have hshare : ∀ a ∈ d.live, ∀ b ∈ d.live, partOf parts a = partOf parts b →
      ∃ p ∈ parts, a ∈ p ∧ b ∈ p := fun a ha b hb =>
    (groupsBy_partOf hnodup).together a (h.nodes.mem_iff.2 ha) b (h.nodes.mem_iff.2 hb)
  constructor
  · intro a ha b hb heq
    obtain ⟨p, hp, hap, hbp⟩ := hshare a ha b hb heq
    exact map_partOf_perm hnodup (hsubset (hedges.successors_subset a))
      (hsubset (hedges.successors_subset b)) (h.successors p hp a hap b hbp)
  · intro a ha b hb heq
    obtain ⟨p, hp, hap, hbp⟩ := hshare a ha b hb heq
    exact map_partOf_perm hnodup (hsubset (hedges.predecessors_subset a))
      (hsubset (hedges.predecessors_subset b)) (h.predecessors p hp a hap b hbp)

/-! ## Labels of nodes -/

/-- The coarsest even value that refines what is given. -/
structure Surrounds (d : Dag) (initial : NodeId → Nat) (f : NodeId → ClassLabel) : Prop where
  refines : ∀ a ∈ d.live, ∀ b ∈ d.live, f a = f b → initial a = initial b
  isEven : IsEven d f
  coarsest : ∀ {κ : Type} (g : NodeId → κ), IsEven d g →
    (∀ a ∈ d.live, ∀ b ∈ d.live, g a = g b → initial a = initial b) →
    ∀ a ∈ d.live, ∀ b ∈ d.live, g a = g b → f a = f b

/-- The places of nodes among the live ones. -/
def placesOf (d : Dag) (ids : List NodeId) : List Nat := ids.map fun id => d.live.toList.idxOf id

/-- For every place, the places of the neighbours of its node. -/
def placesBeside (d : Dag) (neighbours : NodeId → List NodeId) : Array (List Nat) :=
  (d.live.toList.map fun id => placesOf d (neighbours id)).toArray

/-- The labels of places. -/
def placeLabels (d : Dag) (initial : NodeId → Nat) : Array ClassLabel :=
  Propagation.stableLabels (d.live.toList.map initial) (placesBeside d d.successors)
    (placesBeside d d.predecessors)

/-- The label of a node. -/
def nodeLabel (d : Dag) (initial : NodeId → Nat) (id : NodeId) : ClassLabel :=
  Propagation.label (placeLabels d initial) (d.live.toList.idxOf id)

theorem surroundings_eq (d : Dag) (initial : NodeId → Nat) :
    surroundings d initial = (Propagation.seedLists (placeLabels d initial).toList).map fun group =>
      group.filterMap fun i => d.live.toList[i]? := rfl

theorem filterMap_getElem?_range (l : List NodeId) :
    (List.range l.length).filterMap (fun i => l[i]?) = l := by
  have hmap : (List.range l.length).map (fun i => l[i]?) = l.map some :=
    List.ext_getElem (by simp) fun i h _ => by
      rw [List.length_map, List.length_range] at h
      simp [h]
  have hsome := congrArg (List.filterMap id) hmap
  rw [List.filterMap_map, List.filterMap_map] at hsome
  exact hsome.trans (List.filterMap_some)

section Labels

variable {initial : NodeId → Nat} {neighbours : NodeId → List NodeId}

theorem idxOf_lt (ha : a ∈ d.live) : d.live.toList.idxOf a < d.live.toList.length :=
  List.idxOf_lt_length_iff.2 (SortedSet.mem_def.1 ha)

theorem getElem?_idxOf (ha : a ∈ d.live) : d.live.toList[d.live.toList.idxOf a]? = some a :=
  List.getElem?_idxOf (SortedSet.mem_def.1 ha)

theorem exists_node {i : Nat} (hi : i < d.live.toList.length) :
    ∃ a ∈ d.live, d.live.toList.idxOf a = i :=
  ⟨_, SortedSet.mem_def.2 (List.getElem_mem hi), d.live.nodup_toList.idxOf_getElem i hi⟩

theorem getD_placesBeside (ha : a ∈ d.live) :
    (placesBeside d neighbours)[d.live.toList.idxOf a]?.getD [] = placesOf d (neighbours a) := by
  simp [placesBeside, getElem?_idxOf ha]

theorem isWithin_placesBeside (h : ∀ a, neighbours a ⊆ d.live.toList) :
    Propagation.IsWithin (d.live.toList.map initial).length (placesBeside d neighbours) := by
  intro v w hw
  rw [List.length_map]
  by_cases hv : v < d.live.toList.length
  · obtain ⟨a, ha, rfl⟩ := exists_node hv
    rw [getD_placesBeside ha] at hw
    obtain ⟨b, hb, rfl⟩ := List.mem_map.1 hw
    exact idxOf_lt (SortedSet.mem_def.2 (h a hb))
  · have hnone : (placesBeside d neighbours)[v]? = none := by
      rw [Array.getElem?_eq_none_iff]
      simpa [placesBeside] using hv
    rw [hnone] at hw
    cases hw

/-- Propagation over the places. -/
theorem stabilizes_placeLabels (hedges : HasLiveEdges d) (initial : NodeId → Nat) :
    Propagation.Stabilizes (placesBeside d d.successors) (placesBeside d d.predecessors)
      (d.live.toList.map initial).length (fun i => (d.live.toList.map initial)[i]?)
      (placeLabels d initial) :=
  Propagation.stabilizes_stableLabels _ (isWithin_placesBeside hedges.successors_subset)
    (isWithin_placesBeside hedges.predecessors_subset)

/-- A value of nodes as one of places. -/
def placeValue {κ : Type} (d : Dag) (g : NodeId → κ) (i : Nat) : Option κ := d.live.toList[i]?.map g

theorem placeValue_idxOf {κ : Type} (g : NodeId → κ) (ha : a ∈ d.live) :
    placeValue d g (d.live.toList.idxOf a) = some (g a) := by
  rw [placeValue, getElem?_idxOf ha, Option.map_some]

theorem map_placeValue {κ : Type} (g : NodeId → κ) {l : List NodeId} (hl : l ⊆ d.live.toList) :
    (placesOf d l).map (placeValue d g) = (l.map g).map some := by
  rw [placesOf, List.map_map, List.map_map]
  exact List.map_congr_left fun x hx => placeValue_idxOf g (SortedSet.mem_def.2 (hl hx))

theorem isStable_placeValue {κ : Type} {g : NodeId → κ} (hedges : HasLiveEdges d) (hg : IsEven d g) :
    Propagation.IsStable (placesBeside d d.successors) (placesBeside d d.predecessors)
      d.live.toList.length (placeValue d g) := by
  intro v hv w hw heq
  obtain ⟨a, ha, rfl⟩ := exists_node hv
  obtain ⟨b, hb, rfl⟩ := exists_node hw
  rw [placeValue_idxOf g ha, placeValue_idxOf g hb, Option.some_inj] at heq
  simp only [getD_placesBeside ha, getD_placesBeside hb, map_placeValue g (hedges.successors_subset _),
    map_placeValue g (hedges.predecessors_subset _)]
  exact ⟨(hg.successors a ha b hb heq).map some, (hg.predecessors a ha b hb heq).map some⟩

/-- Propagation labels nodes by the coarsest even value. -/
theorem surrounds_nodeLabel (hedges : HasLiveEdges d) (initial : NodeId → Nat) :
    Surrounds d initial (nodeLabel d initial) := by
  have h := stabilizes_placeLabels hedges initial
  rw [List.length_map] at h
  have hmap : ∀ l, (placesOf d l).map (Propagation.label (placeLabels d initial)) =
      l.map (nodeLabel d initial) := fun l => by
    unfold nodeLabel
    simp only [placesOf, List.map_map, Function.comp_def]
  have hstable : ∀ a ∈ d.live, ∀ b ∈ d.live, nodeLabel d initial a = nodeLabel d initial b →
      ((d.successors a).map (nodeLabel d initial)).Perm ((d.successors b).map (nodeLabel d initial)) ∧
        ((d.predecessors a).map (nodeLabel d initial)).Perm
          ((d.predecessors b).map (nodeLabel d initial)) := by
    intro a ha b hb heq
    have hperm := h.stable _ (idxOf_lt ha) _ (idxOf_lt hb) heq
    simp only [getD_placesBeside ha, getD_placesBeside hb, hmap] at hperm
    exact hperm
  have hinitial : ∀ a ∈ d.live, (d.live.toList.map initial)[d.live.toList.idxOf a]? = some (initial a) :=
    fun a ha => by rw [List.getElem?_map, getElem?_idxOf ha, Option.map_some]
  refine ⟨fun a ha b hb heq => ?_, ⟨fun a ha b hb heq => (hstable a ha b hb heq).1,
    fun a ha b hb heq => (hstable a ha b hb heq).2⟩, fun g hg hrefines a ha b hb heq => ?_⟩
  · have hsame := h.refines _ (idxOf_lt ha) _ (idxOf_lt hb) heq
    rwa [hinitial a ha, hinitial b hb, Option.some_inj] at hsame
  · refine h.coarsest (placeValue d g) (isStable_placeValue hedges hg) (fun v hv w hw heq => ?_)
      _ (idxOf_lt ha) _ (idxOf_lt hb) ?_
    · obtain ⟨a, ha, rfl⟩ := exists_node hv
      obtain ⟨b, hb, rfl⟩ := exists_node hw
      rw [placeValue_idxOf g ha, placeValue_idxOf g hb, Option.some_inj] at heq
      rw [hinitial a ha, hinitial b hb, hrefines a ha b hb heq]
    · rw [placeValue_idxOf g ha, placeValue_idxOf g hb, heq]

theorem groupsBy_surroundings (hedges : HasLiveEdges d) (initial : NodeId → Nat) :
    GroupsBy d.live.toList (nodeLabel d initial) (surroundings d initial) := by
  have hsize : (placeLabels d initial).toList.length = d.live.toList.length := by
    rw [Array.length_toList, (stabilizes_placeLabels hedges initial).size, List.length_map]
  have hmem : ∀ {group a}, group ∈ Propagation.seedLists (placeLabels d initial).toList →
      (a ∈ group.filterMap (fun i => d.live.toList[i]?) ↔
        a ∈ d.live ∧ d.live.toList.idxOf a ∈ group) := by
    intro group a hgroup
    rw [List.mem_filterMap]
    constructor
    · rintro ⟨i, hi, heq⟩
      obtain ⟨hlt, rfl⟩ := List.getElem?_eq_some_iff.1 heq
      rw [d.live.nodup_toList.idxOf_getElem i hlt]
      exact ⟨SortedSet.mem_def.2 (List.getElem_mem hlt), hi⟩
    · exact fun ⟨ha, hi⟩ => ⟨_, hi, getElem?_idxOf ha⟩
  have hvalue : ∀ {group}, group ∈ Propagation.seedLists (placeLabels d initial).toList →
      ∃ x, ∀ a ∈ d.live, d.live.toList.idxOf a ∈ group ↔ nodeLabel d initial a = x := by
    intro group hgroup
    obtain ⟨x, hx⟩ := Propagation.exists_seedList_value hgroup
    refine ⟨x, fun a ha => ?_⟩
    have hlt := (idxOf_lt ha).trans_eq hsize.symm
    rw [hx, nodeLabel, Propagation.label, List.getElem?_eq_getElem hlt, Option.some_inj,
      ← Array.getElem?_toList, List.getElem?_eq_getElem hlt, Option.getD_some]
  rw [surroundings_eq]
  refine ⟨?_, ?_, ?_⟩
  · rw [← List.filterMap_flatten]
    refine ((Propagation.flatten_seedLists_perm _).filterMap _).trans ?_
    rw [hsize, filterMap_getElem?_range]
  · rintro p hp a ha b hb
    obtain ⟨group, hgroup, rfl⟩ := List.mem_map.1 hp
    obtain ⟨x, hx⟩ := hvalue hgroup
    obtain ⟨ha, hia⟩ := (hmem hgroup).1 ha
    obtain ⟨hb, hib⟩ := (hmem hgroup).1 hb
    rw [(hx a ha).1 hia, (hx b hb).1 hib]
  · intro a ha b hb heq
    replace ha := SortedSet.mem_def.2 ha
    replace hb := SortedSet.mem_def.2 hb
    obtain ⟨group, hgroup, hia⟩ := Propagation.exists_seedList ((idxOf_lt ha).trans_eq hsize.symm)
    obtain ⟨x, hx⟩ := hvalue hgroup
    refine ⟨_, List.mem_map_of_mem hgroup, (hmem hgroup).2 ⟨ha, hia⟩, (hmem hgroup).2 ⟨hb, ?_⟩⟩
    exact (hx b hb).2 (heq.symm.trans ((hx a ha).1 hia))

end Labels

/-! ## Structural classes -/

/-- Parts by the coarsest even value below the classes of a coarser partition are the coarsest equitable
ones. -/
theorem Surrounds.isCoarsestEquitable {initial : NodeId → Nat} {f : NodeId → ClassLabel}
    (h : Surrounds d initial f) (hedges : HasLiveEdges d) (hparts : GroupsBy d.live.toList f parts)
    (hnonempty : ∀ p ∈ parts, p ≠ []) (hcoarser : GroupsBy d.live.toList initial coarser) :
    IsCoarsestEquitable d coarser parts where
  isEquitable := by
    have hnodup := d.live.nodup_toList
    have hlive : ∀ {p a}, p ∈ parts → a ∈ p → a ∈ d.live := fun hp ha =>
      SortedSet.mem_def.2 (hparts.mem_ids hp ha)
    refine ⟨hparts.nodes, hnonempty, fun p hp => ?_, fun p hp a ha b hb k hk => ?_,
      fun p hp a ha b hb k hk => ?_⟩
    · obtain ⟨a, ha⟩ := List.exists_mem_of_ne_nil _ (hnonempty p hp)
      obtain ⟨q, hq, haq⟩ := List.mem_flatten.1 (hcoarser.nodes.mem_iff.2 (hparts.mem_ids hp ha))
      refine ⟨q, hq, fun b hb => (hcoarser.mem_iff hnodup hq haq (hparts.mem_ids hp hb)).2 ?_⟩
      exact h.refines b (hlive hp hb) a (hlive hp ha) (hparts.same p hp b hb a ha)
    · exact hparts.countP_eq hnodup hk (hnonempty k hk) (hedges.successors_subset a)
        (hedges.successors_subset b)
        (h.isEven.successors a (hlive hp ha) b (hlive hp hb) (hparts.same p hp a ha b hb))
    · exact hparts.countP_eq hnodup hk (hnonempty k hk) (hedges.predecessors_subset a)
        (hedges.predecessors_subset b)
        (h.isEven.predecessors a (hlive hp ha) b (hlive hp hb) (hparts.same p hp a ha b hb))
  coarsest parts' hparts' p' hp' := by
    have hlive : ∀ {p a}, p ∈ parts' → a ∈ p → a ∈ d.live := fun hp ha =>
      SortedSet.mem_def.2 (hparts'.nodes.mem_iff.1 (List.mem_flatten.2 ⟨_, hp, ha⟩))
    have hnodup' : parts'.flatten.Nodup := hparts'.nodes.nodup_iff.2 d.live.nodup_toList
    have hbelow : ∀ a ∈ d.live, ∀ b ∈ d.live, partOf parts' a = partOf parts' b →
        initial a = initial b := by
      intro a ha b hb heq
      obtain ⟨p, hp, hap, hbp⟩ := (groupsBy_partOf hnodup').together a (hparts'.nodes.mem_iff.2 ha) b
        (hparts'.nodes.mem_iff.2 hb) heq
      obtain ⟨q, hq, hsub⟩ := hparts'.refines p hp
      exact hcoarser.same q hq a (hsub hap) b (hsub hbp)
    obtain ⟨a, ha⟩ := List.exists_mem_of_ne_nil _ (hparts'.nonempty p' hp')
    obtain ⟨p, hp, hap⟩ := List.mem_flatten.1 (hparts.nodes.mem_iff.2 (hlive hp' ha))
    refine ⟨p, hp, fun b hb => (hparts.mem_iff d.live.nodup_toList hp hap (hlive hp' hb)).2 ?_⟩
    refine h.coarsest (partOf parts') (hparts'.isEven_partOf hedges) hbelow b (hlive hp' hb) a
      (hlive hp' ha) ?_
    rw [(partOf_eq_some_iff hnodup').2 ⟨hp', hb⟩, (partOf_eq_some_iff hnodup').2 ⟨hp', ha⟩]

/-- Splitting groups of related nodes leaves them as they are. -/
theorem GroupsBy.of_splits {κ : Type} {ids : List NodeId} {f : NodeId → κ} {R : NodeId → NodeId → Prop}
    {classes : List NodeClass} (h : GroupsBy ids f groups) (hsplits : Splits R groups [] classes)
    (hrelated : ∀ a ∈ ids, ∀ b ∈ ids, f a = f b → R a b) :
    GroupsBy ids f (classes.map (·.members)) where
  nodes := hsplits.nodes.trans h.nodes
  same p hp a ha b hb := by
    obtain ⟨c, hc, rfl⟩ := List.mem_map.1 hp
    obtain ⟨group, hgroup, hmem⟩ := hsplits.grouped c hc
    exact h.same group hgroup a (hmem a ha) b (hmem b hb)
  together a ha b hb heq := by
    obtain ⟨group, hgroup, hag, hbg⟩ := h.together a ha b hb heq
    obtain ⟨c, hc, hac, hbc⟩ :=
      hsplits.complete rfl group hgroup a hag b hbg (hrelated a ha b hb heq)
    exact ⟨_, List.mem_map_of_mem hc, hac, hbc⟩

/-- The place of the class of a node. -/
def classIndex (classes : List NodeClass) (id : NodeId) : Nat :=
  (SortedMap.ofList (classes.zipIdx.flatMap fun (c, i) => c.members.map (·, i))).getD id 0

theorem classIndex_eq {classes : List NodeClass} (h : (classes.flatMap (·.members)).Nodup) {i : Nat}
    {c : NodeClass} (hc : classes[i]? = some c) (ha : a ∈ c.members) : classIndex classes a = i := by
  have hkeys : (classes.zipIdx.flatMap fun (c, i) => c.members.map (·, i)).map (·.1) =
      classes.flatMap (·.members) := by
    have hfst := congrArg (List.flatMap NodeClass.members) (List.zipIdx_map_fst 0 classes)
    rw [List.flatMap_map] at hfst
    rw [List.map_flatMap, ← hfst]
    simp only [List.map_map, Function.comp_def, List.map_id']
  have hmem : (a, i) ∈ classes.zipIdx.flatMap fun (c, i) => c.members.map (·, i) :=
    List.mem_flatMap.2 ⟨(c, i), List.mem_zipIdx_iff_getElem?.2 hc, List.mem_map_of_mem ha⟩
  rw [classIndex, SortedMap.getD, (SortedMap.get?_ofList_of_nodup (hkeys ▸ h)).2 hmem, Option.getD_some]

theorem groupsBy_classIndex {classes : List NodeClass} {ids : List NodeId}
    (h : (classes.flatMap (·.members)).Perm ids) (hids : ids.Nodup) :
    GroupsBy ids (classIndex classes) (classes.map (·.members)) := by
  have hnodup := h.nodup_iff.2 hids
  have hindex : ∀ a ∈ ids, ∃ (i : Nat) (c : NodeClass), classes[i]? = some c ∧ a ∈ c.members := by
    intro a ha
    obtain ⟨c, hc, hac⟩ := List.mem_flatMap.1 (h.mem_iff.2 ha)
    obtain ⟨i, hi⟩ := List.getElem?_of_mem hc
    exact ⟨i, c, hi, hac⟩
  refine ⟨h, fun p hp a ha b hb => ?_, fun a ha b hb heq => ?_⟩
  · obtain ⟨c, hc, rfl⟩ := List.mem_map.1 hp
    obtain ⟨i, hi⟩ := List.getElem?_of_mem hc
    rw [classIndex_eq hnodup hi ha, classIndex_eq hnodup hi hb]
  · obtain ⟨i, c, hi, hac⟩ := hindex a ha
    obtain ⟨j, c', hj, hbc⟩ := hindex b hb
    rw [classIndex_eq hnodup hi hac, classIndex_eq hnodup hj hbc] at heq
    subst heq
    obtain rfl := Option.some.inj (hi.symm.trans hj)
    exact ⟨_, List.mem_map_of_mem (List.mem_of_getElem? hi), hac, hbc⟩

theorem structuralGroups_total {options : ClassOptions} (hdepth : options.depth = .total)
    (ranked : List (NodeId × Nat)) (classes : List NodeClass) :
    structuralGroups d options ranked classes = surroundings d (classIndex classes) := by
  rw [structuralGroups, hdepth]
  rfl

variable {solve : Solver} {options : ClassOptions} {ts : List Nat}

/-- Where no comparison is late, the structural classes of the full depth are the coarsest equitable
partition below the local classes. -/
theorem isCoarsestEquitable_of_splits (hdepth : options.depth = .total) (hedges : HasLiveEdges d)
    {ranked : List (NodeId × Nat)} (hranked : (groupByRank ranked).flatten.Perm d.live.toList)
    {classes structural : List NodeClass}
    (hlocal : Splits d.AreEquivalent (groupByRank ranked) [] classes)
    (hstructural : Splits d.AreEquivalent (structuralGroups d options ranked classes) [] structural) :
    IsCoarsestEquitable d (classes.map (·.members)) (structural.map (·.members)) := by
  rw [structuralGroups_total hdepth] at hstructural
  have hclasses := groupsBy_classIndex (hlocal.nodes.trans hranked) d.live.nodup_toList
  have hsurrounds := surrounds_nodeLabel hedges (classIndex classes)
  have hparts := (groupsBy_surroundings hedges (classIndex classes)).of_splits hstructural
    fun a ha b hb heq => by
      -- nodes with one label are in one local class
      have hindex := hsurrounds.refines a (SortedSet.mem_def.2 ha) b (SortedSet.mem_def.2 hb) heq
      obtain ⟨p, hp, hap, hbp⟩ := hclasses.together a ha b hb hindex
      obtain ⟨c, hc, rfl⟩ := List.mem_map.1 hp
      exact hlocal.related c hc a hap b hbp
  refine hsurrounds.isCoarsestEquitable hedges hparts (fun p hp => ?_) hclasses
  obtain ⟨c, -, rfl⟩ := List.mem_map.1 hp
  exact List.cons_ne_nil _ _

/-- The structural classes of the full depth describe surroundings exactly. With a correct solver,
whatever the policy and however the traces of refinements are digested, they are the coarsest equitable
partition of the live nodes below the local classes, unless a comparison was late, which takes a clock
that overruns the budget. The run fails only where a formula cannot be written. -/
theorem structuralClasses_exact {τ : Type} [DecidableEq τ] (digest : List TraceEntry → τ)
    (circuit : Circuit) (hproper : circuit.IsProper) (partition : Partition)
    (hsize : partition.size = circuit.nConstraints) (pairs : List (NodeId × NodeId))
    (hsolve : solve.Correct) (hdepth : options.depth = .total) (hmerge : options.maximalMerge = false) :
    let d := (Dag.ofPartition circuit partition).tryMerges pairs
    FitMemory d options.equivalence → ∀ (ts : List Nat) (r : Except StructureError NodeClasses),
      Ends (ofDagBy solve d options digest).run ts r →
      (WritesNothing options → ∃ classes, r = .ok classes) ∧
      ∀ classes, r = .ok classes →
        (classes.late ≠ [] → Deadline.Overruns options.equivalence.timeout ts) ∧
        (classes.late = [] → IsCoarsestEquitable d (classes.localClasses.map (·.members))
          (classes.structuralClasses.map (·.members))) := by
  intro d hfit ts r hends
  obtain ⟨hwellFormed, hretires⟩ := (Dag.isWellFormed_ofPartition hsize).tryMerges pairs
  have hcircuit : d.circuit = circuit := hretires.circuit.trans Dag.circuit_ofPartition
  have hparts : d.HasProperParts := hwellFormed.hasProperParts (hcircuit.symm ▸ hproper)
  have hedges : HasLiveEdges d := hwellFormed.edge_live
  obtain ⟨ranked, hranked, hgroups, hlive⟩ := exists_liveRanks digest options.minimumSize hparts
  have hanswers := answers_classify_of hparts hmerge
    (fun groups => answers_splitByComparison_live hsolve hparts hfit) hlive
  have hdeep : options.depth ≠ .off ∧ options.depth ≠ .naive := by rw [hdepth]; decide
  rcases ends_ofDagBy_of hdeep.1 hdeep.2 hranked hanswers hends with
    ⟨classes, rfl, hlate, late, late', hsum, hlocal, hstructural⟩ | ⟨⟨e, rfl⟩, hwrites⟩
  · refine ⟨fun _ => ⟨classes, rfl⟩, fun found hfound => ?_⟩
    obtain rfl := Except.ok.inj hfound
    refine ⟨hlate, fun hnil => ?_⟩
    obtain ⟨rfl, rfl⟩ := List.append_eq_nil_iff.1 (hsum.symm.trans hnil)
    exact isCoarsestEquitable_of_splits hdepth hedges hgroups.nodes hlocal hstructural
  · exact ⟨fun h => absurd h hwrites, fun _ h => nomatch h⟩

namespace Sample

/-- Options that ask for everything. -/
def fully : ClassOptions := { depth := .total }

/-- The first of the two single squarings leads to the other, which leads nowhere. -/
theorem not_share_of_isEquitable {coarser parts : List (List NodeId)}
    (h : IsEquitable relayNodes coarser parts) : ¬ ∃ p ∈ parts, 3 ∈ p ∧ 4 ∈ p := by
  rintro ⟨p, hp, h3, h4⟩
  have hcount := h.successors p hp 3 h3 4 h4 p hp
  have hsuccessors : relayNodes.successors 3 = [4] ∧ relayNodes.successors 4 = [] := by decide +kernel
  rw [hsuccessors.1, hsuccessors.2, List.countP_singleton, if_pos (decide_eq_true h4)] at hcount
  cases hcount

end Sample

open Sample in
/-- The two single squarings are equivalent, but their surroundings differ. -/
theorem structuralClasses_exact_relay :
    relay.IsProper ∧ (⟨[0, 1, 2, 3, 4]⟩ : Partition).size = relay.nConstraints ∧
    Solver.exhaustive.Correct ∧ fully.depth = .total ∧ fully.maximalMerge = false ∧
    FitMemory relayNodes fully.equivalence ∧ WritesNothing fully ∧ relayNodes.AreEquivalent 3 4 ∧
    ∃ ts classes, Ends (ofDagBy Solver.exhaustive relayNodes fully fun _ => ()).run ts (.ok classes) ∧
      classes.late = [] ∧
      IsCoarsestEquitable relayNodes (classes.localClasses.map (·.members))
        (classes.structuralClasses.map (·.members)) ∧
      ¬ ∃ p ∈ classes.structuralClasses.map (·.members), 3 ∈ p ∧ 4 ∈ p := by
  have hfit : FitMemory relayNodes fully.equivalence :=
    fun _ _ _ _ _ _ _ _ hpolicy => nomatch hpolicy
  have hwrites : WritesNothing fully := ⟨rfl, fun _ h => nomatch h⟩
  refine ⟨isProper_relay, rfl, Solver.exhaustive_correct, rfl, rfl, hfit, hwrites,
    areEquivalent_squares, ?_⟩
  obtain ⟨ts, hends⟩ := Interaction.ends_run
    (ofDagBy Solver.exhaustive relayNodes fully fun _ => ()).run (.ofFiles [])
  obtain ⟨hok, hclasses⟩ := structuralClasses_exact (fun _ => ()) relay isProper_relay
    ⟨[0, 1, 2, 3, 4]⟩ rfl [(0, 1)] Solver.exhaustive_correct (by decide) (by decide) hfit ts _ hends
  obtain ⟨classes, hr⟩ := hok hwrites
  rw [hr] at hends
  obtain ⟨hlate, hexact⟩ := hclasses classes hr
  have hnil : classes.late = [] := by
    by_contra hne
    exact Deadline.not_overruns_none (hlate hne)
  exact ⟨ts, classes, hends, hnil, hexact hnil, not_share_of_isEquitable (hexact hnil).isEquitable⟩

end CircuitEquiv.NodeClasses
