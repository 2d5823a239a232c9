-- SUMMARY: A merge that closes no cycle keeps a graph of clusters well-formed and never revives a node.
import CircuitEquiv.Proofs.Dag.WellFormed

/-!
# What a merge preserves

Putting two nodes into a new one moves their edges to it. A cycle through the new node would be a detour
from one of the two nodes to the other, and every other cycle was there before; the search for a detour
is exact. Where no cycle closes, a third node has its edges to the two on one side, the side on which it
has its edge to the new one, so all other nodes have the right boundaries already.
-/

namespace CircuitEquiv.Dag

open Relation (TransGen ReflTransGen)

/-! ## Cycles after a contraction -/

section Contraction

variable {α : Type} {r r' : α → α → Prop} {a b c : α}
  (hkept : ∀ x y, x ≠ c → y ≠ c → r' x y → r x y)
  (hout : ∀ y, r' c y → y ≠ a ∧ y ≠ b ∧ (r a y ∨ r b y))
include hkept hout

/-- What the new vertex leads to was behind one of the old ones. -/
theorem exists_path_of_contraction {y : α} (h : TransGen r' c y) (hy : y ≠ c) :
    ∃ s, s ≠ a ∧ s ≠ b ∧ (r a s ∨ r b s) ∧ ReflTransGen r s y := by
  induction h with
  | single h =>
    obtain ⟨ha, hb, h⟩ := hout _ h
    exact ⟨_, ha, hb, h, .refl⟩
  | @tail w y _ hwy ih =>
    by_cases hw : w = c
    · obtain ⟨ha, hb, h⟩ := hout y (hw ▸ hwy)
      exact ⟨y, ha, hb, h, .refl⟩
    · obtain ⟨s, ha, hb, hs, hsw⟩ := ih hw
      exact ⟨s, ha, hb, hs, hsw.tail (hkept w y hw hy hwy)⟩

/-- Without a detour between two vertices of an acyclic graph, putting them into one closes no cycle. -/
theorem acyclic_of_contraction (hin : ∀ x, r' x c → r x a ∨ r x b) (hloop : ¬ r' c c)
    (hacyclic : ∀ x, ¬ TransGen r x x)
    (hab : ∀ s, s ≠ b → r a s → ¬ ReflTransGen r s b)
    (hba : ∀ s, s ≠ a → r b s → ¬ ReflTransGen r s a) (x : α) : ¬ TransGen r' x x := by
  -- nothing leads from the new vertex back to it
  have hnew : ¬ TransGen r' c c := by
    intro h
    cases h with
    | single h => exact hloop h
    | @tail w _ hw hwc =>
      have hwc' : w ≠ c := fun heq => hloop (heq ▸ hwc)
      obtain ⟨s, ha, hb, hs, hsw⟩ := exists_path_of_contraction hkept hout hw hwc'
      rcases hs with hs | hs <;> rcases hin w hwc with hback | hback
      · exact hacyclic a (.head' hs (hsw.tail hback))
      · exact hab s hb hs (hsw.tail hback)
      · exact hba s ha hs (hsw.tail hback)
      · exact hacyclic b (.head' hs (hsw.tail hback))
  have hold : ∀ y, x ≠ c → TransGen r' x y → y ≠ c →
      TransGen r x y ∨ TransGen r' x c ∧ TransGen r' c y := by
    intro y hx h
    induction h with
    | single h => exact fun hy => Or.inl (.single (hkept x _ hx hy h))
    | @tail w y hxw hwy ih =>
      intro hy
      by_cases hw : w = c
      · exact Or.inr ⟨hw ▸ hxw, hw ▸ .single hwy⟩
      · rcases ih hw with h | ⟨hxc, hcw⟩
        · exact Or.inl (h.tail (hkept w y hw hy hwy))
        · exact Or.inr ⟨hxc, hcw.tail hwy⟩
  intro h
  by_cases hx : x = c
  · exact hnew (hx ▸ h)
  · rcases hold x hx h hx with h | ⟨hxc, hcx⟩
    · exact hacyclic x h
    · exact hnew (hcx.trans hxc)

end Contraction

/-! ## The search for a detour -/

namespace IsClustering

variable {d : Dag} (h : d.IsClustering) {a b : NodeId}
include h

/-- The search from a live node finds what edges lead to. -/
theorem reaches_iff (ha : a ∈ d.live) : d.reaches a b = true ↔ ReflTransGen d.Edge a b := by
  have hclosed : ∀ u ∈ d.live.toList.toFinset, ∀ v ∈ d.successors u, v ∈ d.live.toList.toFinset :=
    fun u _ v hv => List.mem_toFinset.2 (h.edge_live u v (mem_successors.1 hv)).2
  have hcard : d.live.toList.toFinset.card ≤ d.size + 1 :=
    (List.toFinset_card_le _).trans (Nat.le_succ _)
  have hedge : (fun u v => v ∈ d.successors u) = d.Edge := by
    funext u v
    exact propext mem_successors
  rw [reaches, List.contains_iff_mem,
    Reach.mem_reachable_iff hclosed hcard (List.mem_toFinset.2 ha), hedge]

theorem hasDetour_iff :
    d.hasDetour a b = true ↔ ∃ s, s ≠ b ∧ d.Edge a s ∧ ReflTransGen d.Edge s b := by
  simp only [hasDetour, List.any_filter, List.any_eq_true, mem_successors, Bool.and_eq_true,
    decide_eq_true_eq]
  constructor
  · rintro ⟨s, has, hsb, hs⟩
    exact ⟨s, hsb, has, (h.reaches_iff (h.edge_live a s has).2).1 hs⟩
  · rintro ⟨s, hsb, has, hs⟩
    exact ⟨s, has, hsb, (h.reaches_iff (h.edge_live a s has).2).2 hs⟩

/-- A merge is refused exactly if a path leads from one node to the other through a third. -/
theorem wouldCreateCycle_iff : d.wouldCreateCycle a b = true ↔
    (∃ s, s ≠ b ∧ d.Edge a s ∧ ReflTransGen d.Edge s b) ∨
      ∃ s, s ≠ a ∧ d.Edge b s ∧ ReflTransGen d.Edge s a := by
  rw [wouldCreateCycle, Bool.or_eq_true, h.hasDetour_iff, h.hasDetour_iff]

end IsClustering

/-! ## Two nodes put into one -/

/-- The nodes other than `a` and `b` from which an edge leads to one of them. -/
def joinedPredecessors (d : Dag) (a b : NodeId) : List NodeId :=
  (d.predecessors a ++ d.predecessors b).filter fun x => x ≠ a ∧ x ≠ b

/-- The nodes other than `a` and `b` to which an edge leads from one of them. -/
def joinedSuccessors (d : Dag) (a b : NodeId) : List NodeId :=
  (d.successors a ++ d.successors b).filter fun x => x ≠ a ∧ x ≠ b

/-- The node that two nodes are put into, without boundaries. -/
def joined (d : Dag) (a b : NodeId) : DagNode where
  constraints := ascending ((d.node a).constraints ++ (d.node b).constraints)
  signals := (d.node a).signals.union (d.node b).signals
  inputs := SortedSet.empty
  outputs := SortedSet.empty

/-- Two nodes put into one before any boundaries are worked out. -/
def contract (d : Dag) (a b : NodeId) : Dag where
  circuit := d.circuit
  nodes := d.nodes.push (d.joined a b)
  live := ((d.live.erase a).erase b).insert d.nodes.size
  edges := (d.edges.filter fun (x, y) => x ≠ a ∧ x ≠ b ∧ y ≠ a ∧ y ≠ b).insertAll
    ((d.joinedPredecessors a b).map (·, d.nodes.size) ++
      (d.joinedSuccessors a b).map (d.nodes.size, ·))

theorem mergeNodes_eq (d : Dag) (a b : NodeId) : d.mergeNodes a b = (d.nodes.size,
    (d.nodes.size :: d.joinedPredecessors a b ++ d.joinedSuccessors a b).foldl refreshBoundaries
      (d.contract a b)) := rfl

/-- Working out boundaries afterwards changes nothing else. -/
theorem agreesUpToBoundaries_mergeNodes (d : Dag) (a b : NodeId) :
    (d.contract a b).AgreesUpToBoundaries (d.mergeNodes a b).2 := (refreshBoundaries_foldl _).1

variable {d : Dag} {a b x y : NodeId}

theorem mem_joinedPredecessors :
    x ∈ d.joinedPredecessors a b ↔ x ≠ a ∧ x ≠ b ∧ (d.Edge x a ∨ d.Edge x b) := by
  simp only [joinedPredecessors, List.mem_filter, List.mem_append, mem_predecessors,
    decide_eq_true_eq]
  tauto

theorem mem_joinedSuccessors :
    x ∈ d.joinedSuccessors a b ↔ x ≠ a ∧ x ≠ b ∧ (d.Edge a x ∨ d.Edge b x) := by
  simp only [joinedSuccessors, List.mem_filter, List.mem_append, mem_successors, decide_eq_true_eq]
  tauto

theorem mem_live_contract :
    x ∈ (d.contract a b).live ↔ x = d.nodes.size ∨ x ∈ d.live ∧ x ≠ a ∧ x ≠ b := by
  simp [contract, SortedSet.erase, and_assoc]

theorem edge_contract_iff : (d.contract a b).Edge x y ↔
    (x ≠ a ∧ x ≠ b ∧ y ≠ a ∧ y ≠ b ∧ d.Edge x y) ∨
    (y = d.nodes.size ∧ x ≠ a ∧ x ≠ b ∧ (d.Edge x a ∨ d.Edge x b)) ∨
    (x = d.nodes.size ∧ y ≠ a ∧ y ≠ b ∧ (d.Edge a y ∨ d.Edge b y)) := by
  simp only [Edge, contract, SortedSet.mem_insertAll, SortedSet.mem_filter, List.mem_append,
    List.mem_map, mem_joinedPredecessors, mem_joinedSuccessors, Prod.mk.injEq, decide_eq_true_eq]
  constructor
  · rintro ((⟨p, hp, rfl, rfl⟩ | ⟨s, hs, rfl, rfl⟩) | ⟨hxy, hx⟩)
    · exact Or.inr (Or.inl ⟨rfl, hp⟩)
    · exact Or.inr (Or.inr ⟨rfl, hs⟩)
    · exact Or.inl ⟨hx.1, hx.2.1, hx.2.2.1, hx.2.2.2, hxy⟩
  · rintro (⟨hxa, hxb, hya, hyb, hxy⟩ | ⟨rfl, hx⟩ | ⟨rfl, hy⟩)
    · exact Or.inr ⟨hxy, hxa, hxb, hya, hyb⟩
    · exact Or.inl (Or.inl ⟨x, hx, rfl, rfl⟩)
    · exact Or.inl (Or.inr ⟨y, hy, rfl, rfl⟩)

theorem node_contract_new : (d.contract a b).node d.nodes.size = d.joined a b := by
  simp [node, contract]

theorem node_contract_of_lt (hx : x < d.nodes.size) : (d.contract a b).node x = d.node x := by
  simp [node, contract, Array.getElem?_push, Nat.ne_of_lt hx]

namespace IsClustering

variable (h : d.IsClustering) (ha : a ∈ d.live) (hb : b ∈ d.live) (hne : a ≠ b)
include h

/-- No edge leads to or from a number that no node has. -/
theorem not_edge_new : ¬ d.Edge x d.nodes.size ∧ ¬ d.Edge d.nodes.size x :=
  ⟨fun hx => Nat.lt_irrefl _ (h.live_lt _ (h.edge_live _ _ hx).2),
    fun hx => Nat.lt_irrefl _ (h.live_lt _ (h.edge_live _ _ hx).1)⟩

omit h in
include ha hb hne in
/-- The other live nodes with the two that are merged. -/
theorem live_perm : d.live.toList.Perm
    (a :: b :: d.live.toList.filter fun x => x ≠ a ∧ x ≠ b) := by
  refine (List.perm_ext_iff_of_nodup d.live.nodup_toList ?_).2 fun x => ?_
  · simp [hne, d.live.nodup_toList.filter]
  · simp only [List.mem_cons, List.mem_filter, decide_eq_true_eq]
    constructor
    · tauto
    · rintro (rfl | rfl | hx)
      · exact ha
      · exact hb
      · exact hx.1

omit h in
/-- Edges between old nodes are those that met neither of the two nodes. -/
theorem edge_contract_of_ne (hx : x ≠ d.nodes.size) (hy : y ≠ d.nodes.size) :
    (d.contract a b).Edge x y ↔ (x ≠ a ∧ x ≠ b ∧ y ≠ a ∧ y ≠ b) ∧ d.Edge x y := by
  rw [edge_contract_iff]
  tauto

/-- The new node leads to what one of the two nodes led to. -/
theorem edge_contract_from_new : (d.contract a b).Edge d.nodes.size y ↔
    y ≠ a ∧ y ≠ b ∧ (d.Edge a y ∨ d.Edge b y) := by
  rw [edge_contract_iff]
  constructor
  · rintro (⟨-, -, -, -, hy⟩ | ⟨rfl, -, -, hy⟩ | ⟨-, hy⟩)
    · exact absurd hy h.not_edge_new.2
    · exact absurd hy (not_or.2 ⟨h.not_edge_new.2, h.not_edge_new.2⟩)
    · exact hy
  · exact fun hy => Or.inr (Or.inr ⟨rfl, hy⟩)

/-- What led to one of the two nodes leads to the new one. -/
theorem edge_contract_to_new : (d.contract a b).Edge x d.nodes.size ↔
    x ≠ a ∧ x ≠ b ∧ (d.Edge x a ∨ d.Edge x b) := by
  rw [edge_contract_iff]
  constructor
  · rintro (⟨-, -, -, -, hx⟩ | ⟨-, hx⟩ | ⟨rfl, -, -, hx⟩)
    · exact absurd hx h.not_edge_new.1
    · exact hx
    · exact absurd hx (not_or.2 ⟨h.not_edge_new.1, h.not_edge_new.1⟩)
  · exact fun hx => Or.inr (Or.inl ⟨rfl, hx⟩)

theorem not_edge_contract_new : ¬ (d.contract a b).Edge d.nodes.size d.nodes.size := by
  rw [h.edge_contract_to_new]
  exact fun hx => hx.2.2.elim h.not_edge_new.2 h.not_edge_new.2

/-- The live nodes after a contraction. -/
theorem live_contract_perm : (d.contract a b).live.toList.Perm
    (d.nodes.size :: d.live.toList.filter fun x => x ≠ a ∧ x ≠ b) := by
  refine (List.perm_ext_iff_of_nodup (SortedSet.nodup_toList _) ?_).2 fun x => ?_
  · have hnew : d.nodes.size ∉ d.live := fun hx => Nat.lt_irrefl _ (h.live_lt _ hx)
    exact List.nodup_cons.2 ⟨fun hx => hnew (List.mem_of_mem_filter hx), d.live.nodup_toList.filter _⟩
  · rw [← SortedSet.mem_def, mem_live_contract, List.mem_cons, List.mem_filter, decide_eq_true_eq]
    rfl

include ha hb hne

/-- The constraints stay shared out. -/
theorem cover_contract : ((d.contract a b).live.toList.flatMap fun x =>
    ((d.contract a b).node x).constraints).Perm (List.range d.circuit.nConstraints) := by
  have hothers : ((d.live.toList.filter fun x => x ≠ a ∧ x ≠ b).flatMap fun x =>
      ((d.contract a b).node x).constraints) =
        (d.live.toList.filter fun x => x ≠ a ∧ x ≠ b).flatMap fun x => (d.node x).constraints := by
    refine List.flatMap_congr fun x hx => ?_
    rw [node_contract_of_lt (h.live_lt x (List.mem_of_mem_filter hx))]
  refine ((h.live_contract_perm).flatMap_right _).trans (.trans ?_ h.cover)
  refine .trans ?_ ((live_perm ha hb hne).flatMap_right _).symm
  rw [List.flatMap_cons, node_contract_new, hothers, List.flatMap_cons, List.flatMap_cons,
    ← List.append_assoc]
  exact (ascending_perm _).append_right _

theorem nodup_joined : ((d.node a).constraints ++ (d.node b).constraints).Nodup := by
  have := ((live_perm ha hb hne).flatMap_right fun x => (d.node x).constraints).nodup_iff.1
    h.nodup_constraints
  rw [List.flatMap_cons, List.flatMap_cons, ← List.append_assoc] at this
  exact this.of_append_left

omit hne in
/-- The new node shares a signal with another one exactly if an edge joins them. -/
theorem share_contract_iff (hx : x ∈ d.live) (hxa : x ≠ a) (hxb : x ≠ b) :
    (d.contract a b).Share d.nodes.size x ↔
      (d.contract a b).Edge d.nodes.size x ∨ (d.contract a b).Edge x d.nodes.size := by
  have hshare : (d.contract a b).Share d.nodes.size x ↔ d.Share a x ∨ d.Share b x := by
    simp only [Share, node_contract_new, node_contract_of_lt (h.live_lt x hx), joined,
      SortedSet.mem_union, or_and_right, exists_or]
    exact or_comm
  rw [hshare, h.share_iff a ha x hx hxa.symm, h.share_iff b hb x hx hxb.symm,
    h.edge_contract_from_new, h.edge_contract_to_new]
  tauto

/-- Where no cycle would close, two nodes put into one leave a graph of clusters. -/
theorem isClustering_contract (hcycle : ¬ d.wouldCreateCycle a b = true) :
    (d.contract a b).IsClustering where
  live_lt x hx := by
    show x < (d.nodes.push (d.joined a b)).size
    rw [Array.size_push]
    rcases mem_live_contract.1 hx with rfl | ⟨hx, -⟩
    · exact Nat.lt_succ_self _
    · exact Nat.lt_succ_of_lt (h.live_lt x hx)
  constraints_ne_nil x hx := by
    rcases mem_live_contract.1 hx with rfl | ⟨hx, -⟩
    · rw [node_contract_new]
      obtain ⟨k, hk⟩ := List.exists_mem_of_ne_nil _ (h.constraints_ne_nil a ha)
      exact List.ne_nil_of_mem (mem_ascending.2 (List.mem_append_left _ hk))
    · rw [node_contract_of_lt (h.live_lt x hx)]
      exact h.constraints_ne_nil x hx
  constraints_sorted x hx := by
    rcases mem_live_contract.1 hx with rfl | ⟨hx, -⟩
    · rw [node_contract_new]
      exact pairwise_lt_ascending (h.nodup_joined ha hb hne)
    · rw [node_contract_of_lt (h.live_lt x hx)]
      exact h.constraints_sorted x hx
  cover := h.cover_contract ha hb hne
  mem_signals x hx s := by
    rcases mem_live_contract.1 hx with rfl | ⟨hx, -⟩
    · rw [node_contract_new]
      simp only [joined, SortedSet.mem_union, h.mem_signals a ha, h.mem_signals b hb, mem_ascending,
        List.mem_append, or_and_right, exists_or]
      exact or_comm
    · rw [node_contract_of_lt (h.live_lt x hx)]
      exact h.mem_signals x hx s
  edge_live x y hxy := by
    rw [mem_live_contract, mem_live_contract]
    rcases edge_contract_iff.1 hxy with ⟨hxa, hxb, hya, hyb, hxy⟩ | ⟨rfl, hxa, hxb, hx⟩ |
      ⟨rfl, hya, hyb, hy⟩
    · have := h.edge_live x y hxy
      exact ⟨Or.inr ⟨this.1, hxa, hxb⟩, Or.inr ⟨this.2, hya, hyb⟩⟩
    · have : x ∈ d.live := hx.elim (fun hx => (h.edge_live _ _ hx).1) fun hx => (h.edge_live _ _ hx).1
      exact ⟨Or.inr ⟨this, hxa, hxb⟩, Or.inl rfl⟩
    · have : y ∈ d.live := hy.elim (fun hy => (h.edge_live _ _ hy).2) fun hy => (h.edge_live _ _ hy).2
      exact ⟨Or.inl rfl, Or.inr ⟨this, hya, hyb⟩⟩
  acyclic := by
    rw [h.wouldCreateCycle_iff, not_or] at hcycle
    exact acyclic_of_contraction (fun x y hx hy hxy => ((edge_contract_of_ne hx hy).1 hxy).2)
      (fun y hy => h.edge_contract_from_new.1 hy) (fun x hx => (h.edge_contract_to_new.1 hx).2.2)
      h.not_edge_contract_new h.acyclic (fun s hs has hsb => hcycle.1 ⟨s, hs, has, hsb⟩)
      (fun s hs hbs hsa => hcycle.2 ⟨s, hs, hbs, hsa⟩)
  share_iff x hx y hy hxy := by
    rcases mem_live_contract.1 hx with rfl | ⟨hx, hxa, hxb⟩ <;>
      rcases mem_live_contract.1 hy with rfl | ⟨hy, hya, hyb⟩
    · exact absurd rfl hxy
    · exact h.share_contract_iff ha hb hy hya hyb
    · rw [share_comm, or_comm]
      exact h.share_contract_iff ha hb hx hxa hxb
    · have hx' := h.live_lt x hx
      have hy' := h.live_lt y hy
      rw [edge_contract_of_ne hx'.ne hy'.ne, edge_contract_of_ne hy'.ne hx'.ne, Share,
        node_contract_of_lt hx', node_contract_of_lt hy']
      exact (h.share_iff x hx y hy hxy).trans
        ⟨Or.imp (fun hxy => ⟨⟨hxa, hxb, hya, hyb⟩, hxy⟩) fun hyx => ⟨⟨hya, hyb, hxa, hxb⟩, hyx⟩,
          Or.imp And.right And.right⟩

end IsClustering

/-! ## Boundaries of other nodes -/

theorem wouldCreateCycle_comm : d.wouldCreateCycle a b = d.wouldCreateCycle b a := Bool.or_comm _ _

namespace IsClustering

variable (h : d.IsClustering)
include h

/-- Where no cycle would close, no third node is between the two. -/
theorem not_between (hcycle : ¬ d.wouldCreateCycle a b = true) (hax : d.Edge a x) : ¬ d.Edge x b := by
  intro hxb
  apply hcycle
  apply h.wouldCreateCycle_iff.2
  refine Or.inl ⟨x, ?_, hax, .single hxb⟩
  rintro rfl
  exact h.acyclic x (.single hxb)

/-- A third node to which one of the two leads comes after each of them that it shares a signal with. -/
theorem edge_from_of_share (ha : a ∈ d.live) (hx : x ∈ d.live) (hne : x ≠ a)
    (hcycle : ¬ d.wouldCreateCycle a b = true) (hside : d.Edge a x ∨ d.Edge b x)
    (hshare : d.Share a x) : d.Edge a x := by
  rcases (h.share_iff a ha x hx hne.symm).1 hshare with hax | hxa
  · exact hax
  · rcases hside with hax | hbx
    · exact hax
    · rw [wouldCreateCycle_comm] at hcycle
      exact absurd hxa (h.not_between hcycle hbx)

/-- A third node that leads to one of the two comes before each of them that it shares a signal with. -/
theorem edge_to_of_share (ha : a ∈ d.live) (hx : x ∈ d.live) (hne : x ≠ a)
    (hcycle : ¬ d.wouldCreateCycle a b = true) (hside : d.Edge x a ∨ d.Edge x b)
    (hshare : d.Share a x) : d.Edge x a := by
  rcases (h.share_iff a ha x hx hne.symm).1 hshare with hax | hxa
  · rcases hside with hxa | hxb
    · exact hxa
    · exact absurd hxb (h.not_between hcycle hax)
  · exact hxa

end IsClustering

/-- On one side of a node, a signal is held by a neighbour after two nodes are put into one exactly if it
was before. -/
theorem exists_holder_contract_iff {near near' : NodeId → Prop} {s : Signal}
    (hnew : near' d.nodes.size ↔ near a ∨ near b)
    (hold : ∀ p, p ≠ d.nodes.size → (near' p ↔ p ≠ a ∧ p ≠ b ∧ near p))
    (hlt : ∀ p, near p → p < d.nodes.size)
    (ha : near a ∨ near b → s ∈ (d.node a).signals → near a)
    (hb : near a ∨ near b → s ∈ (d.node b).signals → near b) :
    (∃ p, near' p ∧ s ∈ ((d.contract a b).node p).signals) ↔ ∃ p, near p ∧ s ∈ (d.node p).signals := by
  constructor
  · rintro ⟨p, hp, hs⟩
    by_cases hp' : p = d.nodes.size
    · rw [hp'] at hp hs
      rw [node_contract_new, joined, SortedSet.mem_union] at hs
      rcases hs with hs | hs
      · exact ⟨b, hb (hnew.1 hp) hs, hs⟩
      · exact ⟨a, ha (hnew.1 hp) hs, hs⟩
    · have hnear := ((hold p hp').1 hp).2.2
      rw [node_contract_of_lt (hlt p hnear)] at hs
      exact ⟨p, hnear, hs⟩
  · rintro ⟨p, hp, hs⟩
    by_cases hpa : p = a
    · rw [hpa] at hp hs
      refine ⟨d.nodes.size, hnew.2 (Or.inl hp), ?_⟩
      rw [node_contract_new, joined, SortedSet.mem_union]
      exact Or.inr hs
    by_cases hpb : p = b
    · rw [hpb] at hp hs
      refine ⟨d.nodes.size, hnew.2 (Or.inr hp), ?_⟩
      rw [node_contract_new, joined, SortedSet.mem_union]
      exact Or.inl hs
    refine ⟨p, (hold p (hlt p hp).ne).2 ⟨hpa, hpb, hp⟩, ?_⟩
    rwa [node_contract_of_lt (hlt p hp)]

/-- Where no cycle would close, the boundaries of every other node are those it should have after the two
are put into one. -/
theorem IsClustering.hasBoundaries_contract (h : d.IsClustering) (ha : a ∈ d.live)
    (hb : b ∈ d.live) (hcycle : ¬ d.wouldCreateCycle a b = true) (hx : x ∈ d.live) (hxa : x ≠ a)
    (hxb : x ≠ b) (hboundaries : d.HasBoundaries x) : (d.contract a b).HasBoundaries x := by
  have hlt := h.live_lt x hx
  have hcycle' : ¬ d.wouldCreateCycle b a = true := by rwa [wouldCreateCycle_comm]
  constructor
  · intro s
    rw [node_contract_of_lt hlt, hboundaries.mem_inputs]
    refine and_congr_right fun hs => or_congr_right ?_
    symm
    apply exists_holder_contract_iff
    · simp only [h.edge_contract_from_new, hxa, hxb, ne_eq, not_false_eq_true, true_and]
    · intro p hp
      rw [edge_contract_of_ne hp hlt.ne]
      tauto
    · intro p hp
      exact h.live_lt p (h.edge_live p x hp).1
    · intro hside hsa
      exact h.edge_from_of_share ha hx hxa hcycle hside ⟨s, hsa, hs⟩
    · intro hside hsb
      exact h.edge_from_of_share hb hx hxb hcycle' hside.symm ⟨s, hsb, hs⟩
  · intro s
    rw [node_contract_of_lt hlt, hboundaries.mem_outputs]
    refine and_congr_right fun hs => or_congr_right ?_
    symm
    apply exists_holder_contract_iff
    · simp only [h.edge_contract_to_new, hxa, hxb, ne_eq, not_false_eq_true, true_and]
    · intro q hq
      rw [edge_contract_of_ne hlt.ne hq]
      tauto
    · intro q hq
      exact h.live_lt q (h.edge_live x q hq).2
    · intro hside hsa
      exact h.edge_to_of_share ha hx hxa hcycle hside ⟨s, hsa, hs⟩
    · intro hside hsb
      exact h.edge_to_of_share hb hx hxb hcycle' hside.symm ⟨s, hsb, hs⟩

/-! ## Merging -/

/-- What a merge gives. -/
theorem merge_eq_ok_iff {id : NodeId} {e : Dag} : d.merge a b = .ok (id, e) ↔
    a ∈ d.live ∧ b ∈ d.live ∧ (a = b ∧ id = a ∧ e = d ∨
      a ≠ b ∧ ¬ d.wouldCreateCycle a b = true ∧ d.mergeNodes a b = (id, e)) := by
  unfold merge
  split
  · rename_i hdead
    rw [Bool.not_eq_true', ← Bool.not_eq_true, isLive_iff] at hdead
    exact ⟨nofun, fun hok => absurd hok.1 hdead⟩
  · rename_i ha
    rw [Bool.not_eq_true', Bool.not_eq_false, isLive_iff] at ha
    split
    · rename_i hdead
      rw [Bool.not_eq_true', ← Bool.not_eq_true, isLive_iff] at hdead
      exact ⟨nofun, fun hok => absurd hok.2.1 hdead⟩
    · rename_i hb
      rw [Bool.not_eq_true', Bool.not_eq_false, isLive_iff] at hb
      split_ifs with heq hcycle
      · constructor
        · rintro ⟨⟩
          exact ⟨ha, hb, Or.inl ⟨heq, rfl, rfl⟩⟩
        · rintro ⟨-, -, ⟨-, rfl, rfl⟩ | ⟨hne, -⟩⟩
          · rfl
          · exact absurd heq hne
      · simp [heq, hcycle]
      · simp [ha, hb, heq, hcycle]

/-- What a merge of two different nodes gives. -/
theorem merge_eq_ok_iff_of_ne {id : NodeId} {e : Dag} (hne : a ≠ b) : d.merge a b = .ok (id, e) ↔
    a ∈ d.live ∧ b ∈ d.live ∧ ¬ d.wouldCreateCycle a b = true ∧ id = d.nodes.size ∧
      e = (d.mergeNodes a b).2 := by
  have hpair : d.mergeNodes a b = (id, e) ↔ id = d.nodes.size ∧ e = (d.mergeNodes a b).2 := by
    rw [Prod.ext_iff]
    exact and_congr eq_comm eq_comm
  simp only [merge_eq_ok_iff, hpair, hne, false_and, false_or, ne_eq, not_false_eq_true, true_and]

/-- The new node is live after a merge, and what was live besides the two. -/
theorem mem_live_mergeNodes : x ∈ (d.mergeNodes a b).2.live ↔
    x = d.nodes.size ∨ x ∈ d.live ∧ x ≠ a ∧ x ≠ b := by
  rw [(agreesUpToBoundaries_mergeNodes d a b).live, mem_live_contract]

/-- Putting two nodes into one where no cycle would close keeps a graph well-formed. -/
theorem IsWellFormed.mergeNodes (h : d.IsWellFormed) (ha : a ∈ d.live) (hb : b ∈ d.live)
    (hne : a ≠ b) (hcycle : ¬ d.wouldCreateCycle a b = true) : (d.mergeNodes a b).2.IsWellFormed := by
  rw [mergeNodes_eq]
  obtain ⟨hagrees, hboundaries⟩ := refreshBoundaries_foldl (d := d.contract a b)
    (d.nodes.size :: d.joinedPredecessors a b ++ d.joinedSuccessors a b)
  have hcluster := h.isClustering_contract ha hb hne hcycle
  refine ⟨hagrees.isClustering hcluster, fun x hx => ?_⟩
  rw [hagrees.live] at hx
  apply hboundaries x (hcluster.live_lt x hx)
  rcases mem_live_contract.1 hx with rfl | ⟨hx, hxa, hxb⟩
  · exact Or.inl List.mem_cons_self
  · exact Or.inr (h.hasBoundaries_contract ha hb hcycle hx hxa hxb (h.boundaries x hx))

/-- The later graph of the same circuit has no node live again that was retired. -/
structure Retires (d e : Dag) : Prop where
  circuit : e.circuit = d.circuit
  size_le : d.nodes.size ≤ e.nodes.size
  live_of_lt : ∀ x < d.nodes.size, x ∈ e.live → x ∈ d.live

namespace Retires

theorem refl (d : Dag) : d.Retires d := ⟨rfl, Nat.le_refl _, fun _ _ hx => hx⟩

theorem trans {e f : Dag} (hde : d.Retires e) (hef : e.Retires f) : d.Retires f where
  circuit := hef.circuit.trans hde.circuit
  size_le := hde.size_le.trans hef.size_le
  live_of_lt x hx hxf := hde.live_of_lt x hx (hef.live_of_lt x (Nat.lt_of_lt_of_le hx hde.size_le) hxf)

end Retires

theorem retires_mergeNodes (d : Dag) (a b : NodeId) : d.Retires (d.mergeNodes a b).2 := by
  have hagrees := agreesUpToBoundaries_mergeNodes d a b
  refine ⟨hagrees.circuit, ?_, fun x hx hlive => ?_⟩
  · rw [hagrees.size_nodes]
    exact Nat.le_of_lt (Array.size_push _ ▸ Nat.lt_succ_self _)
  · exact ((mem_live_mergeNodes.1 hlive).resolve_left hx.ne).1

/-- The graph after a merge; one that is refused changes nothing. -/
def tryMerge (d : Dag) (pair : NodeId × NodeId) : Dag :=
  match d.merge pair.1 pair.2 with
  | .ok (_, e) => e
  | .error _ => d

/-- The graph after merges one after the other. -/
def tryMerges (d : Dag) (pairs : List (NodeId × NodeId)) : Dag := pairs.foldl tryMerge d

/-- A merge that is tried changes nothing, or puts two different live nodes into one and closes no cycle. -/
theorem tryMerge_cases (d : Dag) (pair : NodeId × NodeId) : d.tryMerge pair = d ∨
    pair.1 ∈ d.live ∧ pair.2 ∈ d.live ∧ pair.1 ≠ pair.2 ∧
      ¬ d.wouldCreateCycle pair.1 pair.2 = true ∧
      d.tryMerge pair = (d.mergeNodes pair.1 pair.2).2 := by
  unfold tryMerge
  split
  · rename_i id e heq
    rcases merge_eq_ok_iff.1 heq with ⟨ha, hb, ⟨-, -, rfl⟩ | ⟨hne, hcycle, hmerge⟩⟩
    · exact Or.inl rfl
    · exact Or.inr ⟨ha, hb, hne, hcycle, (congrArg Prod.snd hmerge).symm⟩
  · exact Or.inl rfl

/-- A merge keeps a graph well-formed and revives no node. -/
theorem IsWellFormed.tryMerge (h : d.IsWellFormed) (pair : NodeId × NodeId) :
    (d.tryMerge pair).IsWellFormed ∧ d.Retires (d.tryMerge pair) := by
  rcases d.tryMerge_cases pair with heq | ⟨ha, hb, hne, hcycle, heq⟩
  · rw [heq]
    exact ⟨h, .refl d⟩
  · rw [heq]
    exact ⟨h.mergeNodes ha hb hne hcycle, retires_mergeNodes d pair.1 pair.2⟩

/-- Merges keep a graph well-formed and revive no node. -/
theorem IsWellFormed.tryMerges (h : d.IsWellFormed) (pairs : List (NodeId × NodeId)) :
    (d.tryMerges pairs).IsWellFormed ∧ d.Retires (d.tryMerges pairs) := by
  induction pairs generalizing d with
  | nil => exact ⟨h, .refl d⟩
  | cons pair rest ih =>
    obtain ⟨hstep, hretires⟩ := h.tryMerge pair
    obtain ⟨hrun, hrest⟩ := ih hstep
    exact ⟨hrun, hretires.trans hrest⟩

end CircuitEquiv.Dag
