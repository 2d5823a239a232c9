-- SUMMARY: The weights and degrees of a level as sums over its tables, and the coarser level of its pieces.
import CircuitEquiv.Clustering.Modularity
import CircuitEquiv.Proofs.Clustering.Graph
import CircuitEquiv.Proofs.Data.Failure
import Mathlib.Algebra.BigOperators.Fin

/-!
# Levels

A level is a weighted graph. Its tables are read through the weight of a pair of vertices and the degree of
a vertex, and what is collected in tables over them are sums: the links of a vertex to a community are the
sum of its weights to the members. The level of the constraints of a circuit is symmetric, and no vertex is
its own neighbour. The vertices of a coarser level are connected groups of vertices of the finer one; edges
between groups and degrees of groups are those of their members, added up. The pieces of communities make
such a level.
-/

namespace CircuitEquiv

open Finset (range)
open Relation (ReflTransGen)

/-! ## Sums over tables -/

theorem total_eq_sum (l : List Nat) : total l = l.sum := rfl

namespace SortedMap

/-- Adding the weights of a list of entries up in the places that a function gives them. -/
theorem getD_foldl_upsert_add (place : Nat → Nat) (l : List (Nat × Nat)) (m : SortedMap Nat Nat)
    (c : Nat) :
    (l.foldl (fun m (u, w) => m.upsert (place u) fun old => old.getD 0 + w) m).getD c 0 =
      m.getD c 0 + ((l.filter fun e => place e.1 = c).map (·.2)).sum := by
  induction l generalizing m with
  | nil => simp
  | cons e rest ih =>
    obtain ⟨u, w⟩ := e
    have hfirst : (m.upsert (place u) fun old => old.getD 0 + w).getD c 0 =
        m.getD c 0 + if place u = c then w else 0 := by
      rw [getD, get?_upsert, getD]
      by_cases hc : place u = c
      · subst hc
        simp
      · simp [hc, Ne.symm hc]
    rw [List.foldl_cons, ih, hfirst, List.filter_cons]
    by_cases hc : place u = c <;> simp [hc, Nat.add_assoc]

theorem mem_keys_foldl_upsert_add (place : Nat → Nat) (l : List (Nat × Nat)) (m : SortedMap Nat Nat)
    (c : Nat) :
    c ∈ (l.foldl (fun m (u, w) => m.upsert (place u) fun old => old.getD 0 + w) m).keys ↔
      c ∈ m.keys ∨ ∃ e ∈ l, place e.1 = c := by
  induction l generalizing m with
  | nil => simp
  | cons e rest ih =>
    rw [List.foldl_cons, ih, List.exists_mem_cons_iff, ← or_assoc]
    refine or_congr_left ?_
    rw [mem_keys_iff, get?_upsert, mem_keys_iff]
    by_cases hc : c = place e.1
    · simp [hc]
    · simp [hc, Ne.symm hc]

theorem getD_eq_zero_of_not_mem {m : SortedMap Nat Nat} {k : Nat} (h : k ∉ m.keys) : m.getD k 0 = 0 := by
  rw [getD, get?_eq_none_iff.2 h]
  rfl

/-- The values of some of the keys, added up. -/
theorem sum_entries_filter {m : SortedMap Nat Nat} {n : Nat} (hn : ∀ k ∈ m.keys, k < n) (P : Nat → Prop)
    [DecidablePred P] :
    ((m.entries.filter fun e => P e.1).map (·.2)).sum = ∑ k ∈ range n with P k, m.getD k 0 := by
  have hvalues : (m.entries.filter fun e => P e.1).map (·.2) =
      ((m.entries.filter fun e => P e.1).map (·.1)).map fun k => m.getD k 0 := by
    rw [List.map_map]
    refine List.map_congr_left fun e he => ?_
    exact (getD_of_mem (m := m) (List.mem_of_mem_filter he)).symm
  have hnodup : ((m.entries.filter fun e => P e.1).map (·.1)).Nodup :=
    m.nodup_keys.sublist (List.filter_sublist.map _)
  have hmem : ∀ k, k ∈ ((m.entries.filter fun e => P e.1).map (·.1)).toFinset ↔ k ∈ m.keys ∧ P k :=
    fun k => by
      rw [List.mem_toFinset, keys, List.mem_map, List.mem_map]
      constructor
      · rintro ⟨e, he, rfl⟩
        obtain ⟨he, hp⟩ := List.mem_filter.1 he
        exact ⟨⟨e, he, rfl⟩, of_decide_eq_true hp⟩
      · rintro ⟨⟨e, he, rfl⟩, hp⟩
        exact ⟨e, List.mem_filter.2 ⟨he, decide_eq_true hp⟩, rfl⟩
  rw [hvalues, ← List.sum_toFinset _ hnodup]
  refine Finset.sum_subset (fun k hk => ?_) fun k hk hk' => getD_eq_zero_of_not_mem fun hkeys => ?_
  · obtain ⟨hkeys, hp⟩ := (hmem k).1 hk
    exact Finset.mem_filter.2 ⟨Finset.mem_range.2 (hn k hkeys), hp⟩
  · exact hk' ((hmem k).2 ⟨hkeys, (Finset.mem_filter.1 hk).2⟩)

end SortedMap

namespace Modularity

/-! ## Weights -/

/-- The weight of the edge between two vertices in a table of neighbours; zero where there is none. -/
def weightIn (table : Array (SortedMap Nat Nat)) (v u : Nat) : Nat :=
  (table[v]?.getD SortedMap.empty).getD u 0

/-- Edges lead to vertices and have the same positive weight at both ends, and no vertex is its own
neighbour. -/
structure IsSymmetric (table : Array (SortedMap Nat Nat)) : Prop where
  lt_size : ∀ v u : Nat, u ∈ (table[v]?.getD SortedMap.empty).keys → u < table.size
  pos : ∀ v u : Nat, u ∈ (table[v]?.getD SortedMap.empty).keys → 0 < weightIn table v u
  symm : ∀ v u, weightIn table v u = weightIn table u v
  irrefl : ∀ v, weightIn table v v = 0

section Graphs

open ConstraintGraph (addWeight mem_keys_addWeight size_addWeight)

variable {table : Array (SortedMap Nat Nat)} {a b : Nat}

theorem weightIn_addWeight (ha : a < table.size) (v u : Nat) :
    weightIn (addWeight table a b) v u = weightIn table v u + if v = a ∧ u = b then 1 else 0 := by
  rw [weightIn, weightIn, addWeight, Array.getElem?_modify]
  by_cases hv : a = v
  · subst hv
    rw [if_pos rfl, Array.getElem?_eq_getElem ha, Option.map_some, Option.getD_some, Option.getD_some,
      SortedMap.getD, SortedMap.get?_upsert, SortedMap.getD]
    by_cases hu : u = b
    · subst hu
      simp
    · simp [hu]
  · simp [hv, Ne.symm hv]

/-- One more edge between two different vertices. -/
theorem IsSymmetric.addWeight (h : IsSymmetric table) (ha : a < table.size) (hb : b < table.size)
    (hab : a ≠ b) : IsSymmetric (addWeight (addWeight table a b) b a) := by
  have hb' : b < (ConstraintGraph.addWeight table a b).size := by rwa [size_addWeight]
  constructor
  · intro v u hu
    rw [size_addWeight, size_addWeight]
    rcases mem_keys_addWeight.1 hu with hu | ⟨-, rfl, -⟩
    · rcases mem_keys_addWeight.1 hu with hu | ⟨-, rfl, -⟩
      · exact h.lt_size v u hu
      · exact hb
    · exact ha
  · intro v u hu
    rw [weightIn_addWeight hb', weightIn_addWeight ha]
    rcases mem_keys_addWeight.1 hu with hu | ⟨rfl, rfl, -⟩
    · rcases mem_keys_addWeight.1 hu with hu | ⟨rfl, rfl, -⟩
      · have := h.pos v u hu
        omega
      · simp
    · simp
  · intro v u
    rw [weightIn_addWeight hb', weightIn_addWeight ha, weightIn_addWeight hb', weightIn_addWeight ha,
      h.symm]
    simp only [and_comm (a := v = a), and_comm (a := v = b), Nat.add_assoc]
    omega
  · intro v
    rw [weightIn_addWeight hb', weightIn_addWeight ha, h.irrefl]
    grind

theorem isSymmetric_restricted (circuit : Circuit) (keep : Nat → Bool) :
    IsSymmetric (ConstraintGraph.restricted circuit keep).neighbours := by
  have hpair : ∀ a b, (a, b) ∈ circuit.occurrences.toList.flatMap
      (fun users => pairsOf (users.filter keep)) →
      a < circuit.nConstraints ∧ b < circuit.nConstraints ∧ a ≠ b := fun a b h => by
    obtain ⟨users, husers, hab⟩ := List.mem_flatMap.1 h
    obtain ⟨ha, hb, hlt⟩ := mem_pairsOf_of_pairwise
      ((Circuit.pairwise_of_mem_occurrences husers).filter keep) hab
    have hshare : circuit.SharesSignal a b := Circuit.exists_mem_occurrences_iff.1
      ⟨users, husers, List.mem_of_mem_filter ha, List.mem_of_mem_filter hb⟩
    exact ⟨hshare.lt_left, hshare.lt_right, hlt.ne⟩
  have hempty : ∀ v : Nat, ((Array.replicate circuit.nConstraints
      (SortedMap.empty : SortedMap Nat Nat))[v]?.getD SortedMap.empty) = SortedMap.empty := fun v => by
    rw [Array.getElem?_replicate]
    split <;> rfl
  refine (foldl_invariant (Q := fun table => IsSymmetric table ∧ table.size = circuit.nConstraints)
    (fun table e he ⟨hsymm, hsize⟩ => ?_) ⟨?_, Array.size_replicate⟩).1
  · obtain ⟨ha, hb, hab⟩ := hpair e.1 e.2 he
    refine ⟨hsymm.addWeight (hsize ▸ ha) (hsize ▸ hb) hab, ?_⟩
    rw [size_addWeight, size_addWeight, hsize]
  · constructor
    · intro v u hu
      rw [hempty] at hu
      cases hu
    · intro v u hu
      rw [hempty] at hu
      cases hu
    · intro v u
      rw [weightIn, hempty, weightIn, hempty]
      rfl
    · intro v
      rw [weightIn, hempty]
      rfl

end Graphs

/-- The community of a vertex. -/
def labelIn (community : Array Nat) (v : Nat) : Nat := community[v]?.getD 0

namespace Level

variable {level : Level} {u v : Nat}

/-- The weight of the edge between two vertices; zero where there is none. -/
def weight (level : Level) (v u : Nat) : Nat := weightIn level.neighbours v u

/-- The edges of the level are those of an undirected graph, and every vertex has a degree. -/
structure IsProper (level : Level) : Prop where
  edges : IsSymmetric level.neighbours
  degrees_size : level.degrees.size = level.size

theorem isProper_ofGraph {g : ConstraintGraph} (h : IsSymmetric g.neighbours) : (ofGraph g).IsProper :=
  ⟨h, Array.size_ofFn⟩

theorem degree_ofGraph (g : ConstraintGraph) (v : Nat) : (ofGraph g).degree v = g.degree v := by
  rw [degree, ofGraph, Array.getElem?_ofFn]
  split
  · rfl
  · rename_i hv
    rw [ConstraintGraph.degree, ConstraintGraph.edges, Array.getElem?_eq_none (Nat.not_lt.1 hv)]
    rfl

/-- The degree of a vertex of the graph covers each of its edges. -/
theorem weight_le_degree_ofGraph (g : ConstraintGraph) (v u : Nat) :
    (ofGraph g).weight v u ≤ (ofGraph g).degree v := by
  rw [degree_ofGraph, ConstraintGraph.degree, total_eq_sum]
  by_cases hu : u ∈ (g.edges v).keys
  · obtain ⟨⟨u, w⟩, he, rfl⟩ := List.mem_map.1 hu
    have hw : (ofGraph g).weight v u = w := SortedMap.getD_of_mem he
    exact hw.trans_le (List.le_sum_of_mem (List.mem_map_of_mem (f := (·.2)) he))
  · exact (SortedMap.getD_eq_zero_of_not_mem hu).trans_le (Nat.zero_le _)

theorem weight_of_not_lt (hv : ¬v < level.size) (u : Nat) : level.weight v u = 0 := by
  rw [weight, weightIn, Array.getElem?_eq_none (Nat.not_lt.1 hv)]
  rfl

namespace IsProper

variable (h : level.IsProper)
include h

theorem mem_keys_edges_iff : u ∈ (level.edges v).keys ↔ 0 < level.weight v u := by
  refine ⟨h.edges.pos v u, fun hpos => ?_⟩
  by_contra hu
  exact hpos.ne' (SortedMap.getD_eq_zero_of_not_mem hu)

theorem weight_comm (v u : Nat) : level.weight v u = level.weight u v := h.edges.symm v u

theorem weight_self (v : Nat) : level.weight v v = 0 := h.edges.irrefl v

omit h in
theorem lt_of_weight_pos (hw : 0 < level.weight v u) : v < level.size := by
  by_contra hv
  exact hw.ne' (weight_of_not_lt hv u)

theorem right_lt_of_weight_pos (hw : 0 < level.weight v u) : u < level.size :=
  lt_of_weight_pos (h.weight_comm v u ▸ hw)

theorem ne_of_weight_pos (hw : 0 < level.weight v u) : u ≠ v := by
  rintro rfl
  exact hw.ne' (h.weight_self u)

theorem degree_of_not_lt (hv : ¬v < level.size) : level.degree v = 0 := by
  rw [degree, Array.getElem?_eq_none (by rw [h.degrees_size]; omega)]
  rfl

theorem twoM_eq_sum : level.twoM = ∑ v ∈ range level.size, level.degree v := by
  rw [twoM, total_eq_sum, ← Fin.sum_univ_getElem, ← h.degrees_size, ← Array.length_toList,
    Finset.sum_range]
  refine Finset.sum_congr rfl fun v _ => ?_
  rw [degree, ← Array.getElem?_toList, List.getElem?_eq_getElem v.isLt]
  rfl

/-- The links of a vertex to a community are the weights to its members. -/
theorem getD_links (community : Array Nat) (v c : Nat) : (level.links community v).getD c 0 =
    ∑ u ∈ range level.size with labelIn community u = c, level.weight v u := by
  refine (SortedMap.getD_foldl_upsert_add (labelIn community) _ _ c).trans ((Nat.zero_add _).trans ?_)
  exact SortedMap.sum_entries_filter (h.edges.lt_size v) fun u => labelIn community u = c

theorem mem_keys_links {community : Array Nat} {c : Nat} : c ∈ (level.links community v).keys ↔
    ∃ u, 0 < level.weight v u ∧ labelIn community u = c := by
  refine (SortedMap.mem_keys_foldl_upsert_add (labelIn community) _ _ c).trans ?_
  simp only [← h.mem_keys_edges_iff, SortedMap.keys, SortedMap.empty, List.mem_map, List.map_nil,
    List.not_mem_nil, false_or]
  constructor
  · rintro ⟨e, he, hc⟩
    exact ⟨e.1, ⟨e, he, rfl⟩, hc⟩
  · rintro ⟨_, ⟨e, he, rfl⟩, hc⟩
    exact ⟨e, he, hc⟩

end IsProper

end Level

/-! ## Pieces -/

section Pieces

variable {level : Level} {community : Array Nat} {u v : Nat}

/-- A path of edges leads from one vertex to the other and keeps to vertices of one label. -/
def Level.Within (level : Level) (label : Nat → Nat) : Nat → Nat → Prop :=
  ReflTransGen fun a b => 0 < level.weight a b ∧ label b = label a

theorem Level.Within.label_eq {label : Nat → Nat} (h : level.Within label v u) : label u = label v := by
  induction h with
  | refl => rfl
  | tail _ hstep ih => exact hstep.2.trans ih

theorem Level.Within.lt (h : level.IsProper) {label : Nat → Nat} (hv : v < level.size)
    (hwithin : level.Within label v u) : u < level.size := by
  cases hwithin with
  | refl => exact hv
  | tail _ hstep => exact h.right_lt_of_weight_pos hstep.1

theorem Level.Within.mono {label label' : Nat → Nat}
    (hlabel : ∀ a b, 0 < level.weight a b → label b = label a → label' b = label' a)
    (hwithin : level.Within label v u) : level.Within label' v u :=
  ReflTransGen.mono (fun a b hstep => ⟨hstep.1, hlabel a b hstep.1 hstep.2⟩) v u hwithin

theorem Level.Within.congr (h : level.IsProper) {label label' : Nat → Nat}
    (heq : ∀ v < level.size, label' v = label v) (hwithin : level.Within label v u) :
    level.Within label' v u :=
  hwithin.mono fun a b hw hlabel => by
    rw [heq a (Level.IsProper.lt_of_weight_pos hw), heq b (h.right_lt_of_weight_pos hw), hlabel]

/-- The neighbours that are in the community of a vertex. -/
def fellows (level : Level) (community : Array Nat) (v : Nat) : List Nat :=
  (level.edges v).keys.filter fun u => community[u]? = community[v]?

theorem mem_fellows_iff (h : level.IsProper) (hsize : community.size = level.size) :
    u ∈ fellows level community v ↔
      0 < level.weight v u ∧ labelIn community u = labelIn community v := by
  rw [fellows, List.mem_filter, h.mem_keys_edges_iff, decide_eq_true_eq]
  refine and_congr_right fun hw => ?_
  have hv := Level.IsProper.lt_of_weight_pos hw
  have hu := h.right_lt_of_weight_pos hw
  rw [← hsize] at hv hu
  rw [labelIn, labelIn, Array.getElem?_eq_getElem hv, Array.getElem?_eq_getElem hu]
  exact Option.some_inj

variable (h : level.IsProper) (hsize : community.size = level.size)
include h hsize

theorem mem_range_of_mem_fellows (v : Nat) (_hv : v ∈ List.range level.size) (u : Nat)
    (hu : u ∈ fellows level community v) : u ∈ List.range level.size :=
  List.mem_range.2 (h.right_lt_of_weight_pos ((mem_fellows_iff h hsize).1 hu).1)

theorem mem_fellows_symm (v : Nat) (_hv : v ∈ List.range level.size) (u : Nat)
    (hu : u ∈ fellows level community v) : v ∈ fellows level community u := by
  obtain ⟨hw, hlabel⟩ := (mem_fellows_iff h hsize).1 hu
  rw [h.weight_comm] at hw
  exact (mem_fellows_iff h hsize).2 ⟨hw, hlabel.symm⟩

/-- The pieces share out the vertices. -/
theorem perm_flatten_pieces : (pieces level community).flatten.Perm (List.range level.size) :=
  Reach.perm_flatten_components List.nodup_range (mem_range_of_mem_fellows h hsize)
    (mem_fellows_symm h hsize)

/-- Two vertices are in one piece if a path within their community joins them. -/
theorem samePart_pieces_iff : SamePart (pieces level community) v u ↔
    v < level.size ∧ level.Within (labelIn community) v u := by
  have hfellows : (fun a b => b ∈ fellows level community a) =
      fun a b => 0 < level.weight a b ∧ labelIn community b = labelIn community a :=
    funext fun a => funext fun b => propext (mem_fellows_iff h hsize)
  have hparts : SamePart (pieces level community) v u ↔
      v ∈ List.range level.size ∧ ReflTransGen (fun a b => b ∈ fellows level community a) v u :=
    Reach.samePart_components_iff (mem_range_of_mem_fellows h hsize) (mem_fellows_symm h hsize)
  rw [hparts, hfellows, List.mem_range]
  rfl

theorem mem_flatten_pieces (hv : v < level.size) : v ∈ (pieces level community).flatten :=
  (perm_flatten_pieces h hsize).mem_iff.2 (List.mem_range.2 hv)

/-- There are at most as many pieces as vertices; if there are as many, no edge joins two vertices of one
community. -/
theorem length_pieces : (pieces level community).length ≤ level.size ∧
    ((pieces level community).length = level.size →
      ∀ v u, 0 < level.weight v u → labelIn community v ≠ labelIn community u) := by
  have hlength := (perm_flatten_pieces h hsize).length_eq
  rw [List.length_range] at hlength
  obtain ⟨hle, hsingle⟩ := Reach.length_le_length_flatten (l := pieces level community) fun c hc =>
    Reach.component_ne_nil hc
  refine ⟨hlength ▸ hle, fun heq v u hw hlabel => h.ne_of_weight_pos hw ?_⟩
  have hv := Level.IsProper.lt_of_weight_pos hw
  obtain ⟨piece, hpiece, hmem, hmem'⟩ :=
    (samePart_pieces_iff h hsize).2 ⟨hv, .single ⟨hw, hlabel.symm⟩⟩
  obtain ⟨x, rfl⟩ := List.length_eq_one_iff.1 (hsingle (by omega) piece hpiece)
  rw [List.mem_singleton.1 hmem, List.mem_singleton.1 hmem']

end Pieces

/-! ## Groups -/

/-- Sums over groups add up to the sum over their members. -/
theorem sum_groups {place : Nat → Nat} {n m : Nat} (hplace : ∀ v < n, place v < m) (P : Nat → Prop)
    [DecidablePred P] (f : Nat → Nat) :
    ∑ p ∈ range m with P p, ∑ v ∈ range n with place v = p, f v =
      ∑ v ∈ range n with P (place v), f v := by
  have hmaps : ∀ v ∈ (range n).filter fun v => P (place v), place v ∈ (range m).filter P :=
    fun v hv => by
      obtain ⟨hv, hp⟩ := Finset.mem_filter.1 hv
      exact Finset.mem_filter.2 ⟨Finset.mem_range.2 (hplace v (Finset.mem_range.1 hv)), hp⟩
  rw [← Finset.sum_fiberwise_of_maps_to hmaps]
  refine Finset.sum_congr rfl fun p hp => Finset.sum_congr ?_ fun _ _ => rfl
  rw [Finset.filter_filter]
  refine Finset.filter_congr fun v _ => ⟨fun heq => ⟨heq ▸ (Finset.mem_filter.1 hp).2, heq⟩, And.right⟩

namespace Level

variable {level : Level} {place place' : Nat → Nat} {v u p q : Nat}

/-- The vertices that have a place. -/
def group (level : Level) (place : Nat → Nat) (p : Nat) : Finset Nat :=
  (range level.size).filter (place · = p)

/-- The weight of the edges that lead from some vertices to others. -/
def cut (level : Level) (s t : Finset Nat) : Nat := ∑ v ∈ s, ∑ u ∈ t, level.weight v u

/-- The sum of the degrees of vertices. -/
def volume (level : Level) (s : Finset Nat) : Nat := ∑ v ∈ s, level.degree v

theorem mem_group : v ∈ level.group place p ↔ v < level.size ∧ place v = p := by
  rw [group, Finset.mem_filter, Finset.mem_range]

theorem group_congr (h : ∀ v < level.size, place' v = place v) (p : Nat) :
    level.group place' p = level.group place p :=
  Finset.filter_congr fun v hv => by rw [h v (Finset.mem_range.1 hv)]

theorem cut_pos_iff {s t : Finset Nat} : 0 < level.cut s t ↔ ∃ v ∈ s, ∃ u ∈ t, 0 < level.weight v u := by
  simp only [cut, Finset.sum_pos_iff]

theorem cut_comm (h : level.IsProper) (s t : Finset Nat) : level.cut s t = level.cut t s := by
  rw [cut, cut, Finset.sum_comm]
  exact Finset.sum_congr rfl fun u _ => Finset.sum_congr rfl fun v _ => h.weight_comm v u

theorem cut_group_pos_iff (h : level.IsProper) : 0 < level.cut (level.group place p) (level.group place q) ↔
    ∃ v u, 0 < level.weight v u ∧ place v = p ∧ place u = q := by
  simp only [cut_pos_iff, mem_group]
  constructor
  · rintro ⟨v, ⟨-, hv⟩, u, ⟨-, hu⟩, hw⟩
    exact ⟨v, u, hw, hv, hu⟩
  · rintro ⟨v, u, hw, hv, hu⟩
    exact ⟨v, ⟨IsProper.lt_of_weight_pos hw, hv⟩, u, ⟨h.right_lt_of_weight_pos hw, hu⟩, hw⟩

/-- The vertices of the coarse level are groups of vertices of the fine one, each of them connected. -/
structure Coarsens (fine coarse : Level) (place : Nat → Nat) : Prop where
  place_lt : ∀ v < fine.size, place v < coarse.size
  exists_place : ∀ p < coarse.size, ∃ v < fine.size, place v = p
  weight : ∀ p q, p ≠ q → coarse.weight p q = fine.cut (fine.group place p) (fine.group place q)
  degree : ∀ p, coarse.degree p = fine.volume (fine.group place p)
  joined : ∀ v < fine.size, ∀ u < fine.size, place v = place u → fine.Within place v u

namespace Coarsens

variable {fine coarse top : Level} {label : Nat → Nat}

/-- Only the places of the vertices count. -/
theorem congr (h : Coarsens fine coarse place) (hfine : fine.IsProper)
    (heq : ∀ v < fine.size, place' v = place v) : Coarsens fine coarse place' := by
  constructor
  · intro v hv
    rw [heq v hv]
    exact h.place_lt v hv
  · intro p hp
    obtain ⟨v, hv, hplace⟩ := h.exists_place p hp
    exact ⟨v, hv, (heq v hv).trans hplace⟩
  · intro p q hpq
    rw [h.weight p q hpq, group_congr heq, group_congr heq]
  · intro p
    rw [h.degree, group_congr heq]
  · intro v hv u hu hplace
    rw [heq v hv, heq u hu] at hplace
    exact (h.joined v hv u hu hplace).congr hfine heq

/-- Every level coarsens itself. -/
theorem refl (hfine : fine.IsProper) : Coarsens fine fine id := by
  have hgroup : ∀ p, fine.group id p = if p < fine.size then {p} else ∅ := fun p => by
    ext v
    rw [mem_group]
    by_cases hp : p < fine.size
    · rw [if_pos hp, Finset.mem_singleton]
      exact ⟨And.right, fun hv => ⟨hv ▸ hp, hv⟩⟩
    · rw [if_neg hp]
      refine ⟨fun hv => absurd (hv.2 ▸ hv.1) hp, fun hv => absurd hv (Finset.notMem_empty v)⟩
  constructor
  · exact fun v hv => hv
  · exact fun p hp => ⟨p, hp, rfl⟩
  · intro p q hpq
    rw [hgroup, hgroup]
    by_cases hp : p < fine.size
    · by_cases hq : q < fine.size
      · simp [cut, hp, hq]
      · simp [cut, hq, hfine.weight_comm p q, weight_of_not_lt hq p]
    · simp [cut, hp, weight_of_not_lt hp q]
  · intro p
    rw [hgroup]
    by_cases hp : p < fine.size
    · simp [volume, hp]
    · simp [volume, hp, hfine.degree_of_not_lt hp]
  · rintro v - u - (rfl : v = u)
    exact .refl

variable (h : Coarsens fine coarse place)
include h

/-- Paths in the coarse level come from paths in the fine one. -/
theorem within_fine (hfine : fine.IsProper) (hcoarse : coarse.IsProper) (hv : v < fine.size)
    (hu : u < fine.size) (hwithin : coarse.Within label (place v) (place u)) :
    fine.Within (label ∘ place) v u := by
  have hjoined : ∀ {a b}, a < fine.size → b < fine.size → place a = place b →
      fine.Within (label ∘ place) a b := fun ha hb hplace =>
    (h.joined _ ha _ hb hplace).mono fun _ _ _ => congrArg label
  -- a step of the path is an edge between some members of two groups, and groups are joined inside
  generalize hq : place u = q at hwithin
  induction hwithin generalizing u with
  | refl => exact hjoined hv hu hq.symm
  | @tail b c _ hstep ih =>
    obtain ⟨hw, hlabel⟩ := hstep
    rw [h.weight b c (hcoarse.ne_of_weight_pos hw).symm, cut_group_pos_iff hfine] at hw
    obtain ⟨x, y, hxy, rfl, rfl⟩ := hw
    exact ((ih (IsProper.lt_of_weight_pos hxy) rfl).tail ⟨hxy, hlabel⟩).trans
      (hjoined (hfine.right_lt_of_weight_pos hxy) hu hq.symm)

/-- Paths in the fine level lead to paths in the coarse one. -/
theorem within_coarse (hfine : fine.IsProper) (hwithin : fine.Within (label ∘ place) v u) :
    coarse.Within label (place v) (place u) := by
  induction hwithin with
  | refl => exact .refl
  | @tail a b _ hstep ih =>
    by_cases hplace : place a = place b
    · exact hplace ▸ ih
    · refine ih.tail ⟨?_, hstep.2⟩
      rw [h.weight _ _ hplace, cut_group_pos_iff hfine]
      exact ⟨a, b, hstep.1, rfl, rfl⟩

/-- The edges from a group to other groups are those to the vertices in them. -/
theorem sum_weight (P : Nat → Prop) [DecidablePred P] (hp : ¬P p) :
    ∑ q ∈ range coarse.size with P q, coarse.weight p q =
      fine.cut (fine.group place p) ((range fine.size).filter fun v => P (place v)) := by
  have hne : ∀ q ∈ (range coarse.size).filter P, p ≠ q := fun q hq heq =>
    hp (heq ▸ (Finset.mem_filter.1 hq).2)
  rw [Finset.sum_congr rfl fun q hq => h.weight p q (hne q hq)]
  refine Eq.trans (Finset.sum_comm (f := fun q v => ∑ u ∈ fine.group place q, fine.weight v u)) ?_
  exact Finset.sum_congr rfl fun v _ => sum_groups h.place_lt P (fine.weight v)

/-- The degrees in a group of groups are those of the vertices in them. -/
theorem sum_degree (P : Nat → Prop) [DecidablePred P] :
    ∑ p ∈ range coarse.size with P p, coarse.degree p =
      fine.volume ((range fine.size).filter fun v => P (place v)) := by
  rw [Finset.sum_congr rfl fun p _ => h.degree p]
  exact sum_groups h.place_lt P _

theorem twoM_eq (hfine : fine.IsProper) (hcoarse : coarse.IsProper) : coarse.twoM = fine.twoM := by
  have hsum := h.sum_degree fun _ => True
  rw [Finset.filter_true, Finset.filter_true] at hsum
  rw [hcoarse.twoM_eq_sum, hfine.twoM_eq_sum, hsum, volume]

/-- Groups of groups are groups. -/
theorem trans (hfine : fine.IsProper) (hcoarse : coarse.IsProper) (h' : Coarsens coarse top place') :
    Coarsens fine top (place' ∘ place) where
  place_lt v hv := h'.place_lt _ (h.place_lt v hv)
  exists_place p hp := by
    obtain ⟨a, ha, rfl⟩ := h'.exists_place p hp
    obtain ⟨v, hv, rfl⟩ := h.exists_place a ha
    exact ⟨v, hv, rfl⟩
  weight p q hpq := by
    rw [h'.weight p q hpq, cut, group, group, Finset.sum_congr rfl fun a ha =>
      h.sum_weight (place' · = q) fun heq => hpq ((Finset.mem_filter.1 ha).2.symm.trans heq)]
    exact sum_groups h.place_lt (place' · = p) _
  degree p := (h'.degree p).trans (h.sum_degree (place' · = p))
  joined v hv u hu hplace := h.within_fine hfine hcoarse hv hu
    (h'.joined _ (h.place_lt v hv) _ (h.place_lt u hu) hplace)

end Coarsens

end Level

/-! ## Aggregation -/

/-- The piece that a vertex is in. -/
def placesOf (level : Level) (community : Array Nat) : Array Nat :=
  Array.ofFn fun v : Fin level.size => Partition.placeOf (pieces level community) v

/-- The level whose vertices are the pieces of the communities. -/
def aggregated (level : Level) (community : Array Nat) : Level :=
  aggregate level (pieces level community) (placesOf level community)

section Aggregation

open Level (weight_of_not_lt)

variable {level : Level} {community : Array Nat} {u v p q : Nat}

theorem size_aggregated : (aggregated level community).size = (pieces level community).length := by
  rw [aggregated, aggregate, Level.size, List.size_toArray, List.length_map, List.length_zipIdx]

theorem labelIn_placesOf (hv : v < level.size) :
    labelIn (placesOf level community) v = Partition.placeOf (pieces level community) v := by
  rw [labelIn, placesOf, Array.getElem?_ofFn, dif_pos hv]
  rfl

theorem edges_aggregated {piece : List Nat} (hpiece : (pieces level community)[p]? = some piece) :
    (aggregated level community).edges p =
      ((piece.flatMap fun v => (level.edges v).entries).filter fun e =>
        labelIn (placesOf level community) e.1 ≠ p).foldl
          (fun m (u, w) => m.upsert (labelIn (placesOf level community) u) fun old => old.getD 0 + w)
          SortedMap.empty := by
  rw [aggregated, aggregate, Level.edges, List.getElem?_toArray, List.getElem?_map, List.getElem?_zipIdx,
    hpiece, Nat.zero_add, List.foldl_filter]
  refine congrArg (fun step => List.foldl step SortedMap.empty _) ?_
  funext m e
  by_cases he : labelIn (placesOf level community) e.1 = p
  · rw [if_neg (by simpa using he)]
    exact if_pos he
  · rw [if_pos (by simpa using he)]
    exact if_neg he

variable (h : level.IsProper) (hsize : community.size = level.size)
include h hsize

theorem nodup_flatten_pieces : (pieces level community).flatten.Nodup :=
  (perm_flatten_pieces h hsize).nodup_iff.2 List.nodup_range

theorem mem_piece_iff {piece : List Nat} (hpiece : (pieces level community)[p]? = some piece) :
    v ∈ piece ↔ v < level.size ∧ labelIn (placesOf level community) v = p := by
  constructor
  · intro hv
    have hlt : v < level.size := List.mem_range.1 ((perm_flatten_pieces h hsize).mem_iff.1
      (List.mem_flatten.2 ⟨piece, List.mem_of_getElem? hpiece, hv⟩))
    refine ⟨hlt, ?_⟩
    rw [labelIn_placesOf hlt, Partition.placeOf_eq_of_mem (nodup_flatten_pieces h hsize) hpiece hv]
  · rintro ⟨hlt, rfl⟩
    rw [labelIn_placesOf hlt] at hpiece
    obtain ⟨piece', hpiece', hv⟩ := Partition.exists_getElem?_placeOf (mem_flatten_pieces h hsize hlt)
    rw [hpiece, Option.some.injEq] at hpiece'
    exact hpiece' ▸ hv

theorem labelIn_placesOf_lt (hv : v < level.size) :
    labelIn (placesOf level community) v < (pieces level community).length := by
  rw [labelIn_placesOf hv]
  exact Partition.placeOf_lt (mem_flatten_pieces h hsize hv)

/-- Vertices are in one piece if a path within their community joins them. -/
theorem labelIn_placesOf_eq_iff (hv : v < level.size) (hu : u < level.size) :
    labelIn (placesOf level community) v = labelIn (placesOf level community) u ↔
      level.Within (labelIn community) v u := by
  rw [labelIn_placesOf hv, labelIn_placesOf hu, Partition.placeOf_eq_iff (nodup_flatten_pieces h hsize)
    (mem_flatten_pieces h hsize hv) (mem_flatten_pieces h hsize hu), samePart_pieces_iff h hsize,
    and_iff_right hv]

/-- A sum over the vertices of a piece. -/
theorem sum_piece {piece : List Nat} (hpiece : (pieces level community)[p]? = some piece) (f : Nat → Nat) :
    (piece.map f).sum = ∑ v ∈ range level.size with labelIn (placesOf level community) v = p, f v := by
  have hnodup : piece.Nodup :=
    (List.nodup_flatten.1 (nodup_flatten_pieces h hsize)).1 piece (List.mem_of_getElem? hpiece)
  rw [← List.sum_toFinset _ hnodup]
  refine Finset.sum_congr ?_ fun _ _ => rfl
  ext v
  rw [List.mem_toFinset, mem_piece_iff h hsize hpiece, Finset.mem_filter, Finset.mem_range]

theorem group_placesOf_of_not_lt (hp : ¬p < (pieces level community).length) :
    level.group (labelIn (placesOf level community)) p = ∅ := by
  refine Finset.filter_eq_empty_iff.2 fun v hv heq => hp ?_
  exact heq ▸ labelIn_placesOf_lt h hsize (Finset.mem_range.1 hv)

/-- The weights of the edges between two pieces, added up; edges in a piece are left out. -/
theorem weight_aggregated (p q : Nat) : (aggregated level community).weight p q =
    if p = q then 0 else level.cut (level.group (labelIn (placesOf level community)) p)
      (level.group (labelIn (placesOf level community)) q) := by
  by_cases hp : p < (pieces level community).length
  swap
  · have hweight : (aggregated level community).weight p q = 0 := weight_of_not_lt (size_aggregated ▸ hp) q
    rw [hweight, Level.cut, group_placesOf_of_not_lt h hsize hp, Finset.sum_empty, ite_self]
  have hpiece := List.getElem?_eq_getElem hp
  have hedges : (aggregated level community).weight p q =
      ((aggregated level community).edges p).getD q 0 := rfl
  rw [hedges, edges_aggregated hpiece, SortedMap.getD_foldl_upsert_add, List.filter_filter]
  refine (Nat.zero_add _).trans ?_
  by_cases hpq : p = q
  · subst hpq
    have hnone : ∀ e : Nat × Nat, (decide (labelIn (placesOf level community) e.1 = p) &&
        decide (labelIn (placesOf level community) e.1 ≠ p)) = false := fun e => by
      by_cases he : labelIn (placesOf level community) e.1 = p <;> simp [he]
    simp only [hnone, if_pos]
    rw [List.filter_false]
    rfl
  · have hq : ∀ e : Nat × Nat, (decide (labelIn (placesOf level community) e.1 = q) &&
        decide (labelIn (placesOf level community) e.1 ≠ p)) =
          decide (labelIn (placesOf level community) e.1 = q) := fun e => by
      by_cases he : labelIn (placesOf level community) e.1 = q
      · simp [he, Ne.symm hpq]
      · simp [he]
    simp only [hq]
    rw [if_neg hpq, List.filter_flatMap, List.map_flatMap, List.flatMap_def, List.sum_flatten, List.map_map,
      sum_piece h hsize hpiece]
    exact Finset.sum_congr rfl fun v _ => SortedMap.sum_entries_filter (h.edges.lt_size v)
      (labelIn (placesOf level community) · = q)

theorem isProper_aggregated : (aggregated level community).IsProper := by
  have hkeys : ∀ p q, q ∈ ((aggregated level community).edges p).keys →
      q < (pieces level community).length ∧ 0 < (aggregated level community).weight p q := by
    intro p q hq
    have hp : p < (pieces level community).length := by
      by_contra hp
      have hsize' : ¬p < (aggregated level community).size := size_aggregated ▸ hp
      rw [Level.edges, Array.getElem?_eq_none (Nat.not_lt.1 hsize')] at hq
      cases hq
    have hpiece := List.getElem?_eq_getElem hp
    rw [edges_aggregated hpiece, SortedMap.mem_keys_foldl_upsert_add] at hq
    obtain ⟨e, he, rfl⟩ := hq.resolve_left List.not_mem_nil
    obtain ⟨he, hne⟩ := List.mem_filter.1 he
    obtain ⟨v, hv, he⟩ := List.mem_flatMap.1 he
    have hw : 0 < level.weight v e.1 := h.mem_keys_edges_iff.1 (List.mem_map_of_mem he)
    refine ⟨labelIn_placesOf_lt h hsize (h.right_lt_of_weight_pos hw), ?_⟩
    rw [weight_aggregated h hsize, if_neg (Ne.symm (of_decide_eq_true hne)), Level.cut_group_pos_iff h]
    exact ⟨v, e.1, hw, ((mem_piece_iff h hsize hpiece).1 hv).2, rfl⟩
  refine ⟨⟨fun p q hq => ?_, fun p q hq => (hkeys p q hq).2, fun p q => ?_, fun p => ?_⟩, ?_⟩
  · exact (hkeys p q hq).1.trans_eq size_aggregated.symm
  · show (aggregated level community).weight p q = (aggregated level community).weight q p
    rw [weight_aggregated h hsize, weight_aggregated h hsize, Level.cut_comm h]
    exact if_congr eq_comm rfl rfl
  · show (aggregated level community).weight p p = 0
    rw [weight_aggregated h hsize, if_pos rfl]
  · rw [size_aggregated, aggregated, aggregate, List.size_toArray, List.length_map]

/-- The pieces of communities are a coarser level. -/
theorem coarsens_aggregated :
    level.Coarsens (aggregated level community) (labelIn (placesOf level community)) where
  place_lt v hv := size_aggregated ▸ labelIn_placesOf_lt h hsize hv
  exists_place p hp := by
    rw [size_aggregated] at hp
    have hpiece := List.getElem?_eq_getElem hp
    obtain ⟨v, hv⟩ := List.exists_mem_of_ne_nil _ (Reach.component_ne_nil (List.mem_of_getElem? hpiece))
    obtain ⟨hlt, hplace⟩ := (mem_piece_iff h hsize hpiece).1 hv
    exact ⟨v, hlt, hplace⟩
  weight p q hpq := by rw [weight_aggregated h hsize, if_neg hpq]
  degree p := by
    rw [aggregated, aggregate, Level.degree, List.getElem?_toArray, List.getElem?_map]
    by_cases hp : p < (pieces level community).length
    · rw [List.getElem?_eq_getElem hp]
      exact (total_eq_sum _).trans (sum_piece h hsize (List.getElem?_eq_getElem hp) level.degree)
    · rw [List.getElem?_eq_none (Nat.not_lt.1 hp), group_placesOf_of_not_lt h hsize hp]
      rfl
  joined v hv u hu hplace := by
    refine ((labelIn_placesOf_eq_iff h hsize hv hu).1 hplace).mono fun a b hw hlabel => ?_
    have ha := Level.IsProper.lt_of_weight_pos hw
    have hb := h.right_lt_of_weight_pos hw
    exact ((labelIn_placesOf_eq_iff h hsize ha hb).2 (.single ⟨hw, hlabel⟩)).symm

end Aggregation
end Modularity

end CircuitEquiv
