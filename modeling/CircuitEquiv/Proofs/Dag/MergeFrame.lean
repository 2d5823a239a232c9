-- SUMMARY: A merge leaves all earlier nodes as they were, so that sub-circuits cached before it stay right.
import CircuitEquiv.Proofs.Dag.CycleTest

/-!
# What a merge leaves alone

A merge works out the boundaries of the neighbours of the two nodes again and finds what was there, as
they have the right boundaries already. Hence no node that was there before a merge is another one after
it, and a sub-circuit that is kept from one request to the next is the one that would be cut out afresh.
-/

namespace CircuitEquiv.Dag

variable {d e : Dag} {a b id x : NodeId}

/-! ## Boundaries that are right already -/

/-- The inputs and outputs of a node follow from the rest of the graph. -/
theorem AgreesUpToBoundaries.node_eq (hde : d.AgreesUpToBoundaries e) (hd : d.HasBoundaries x)
    (he : e.HasBoundaries x) : e.node x = d.node x := by
  have hinputs : (e.node x).inputs = (d.node x).inputs := by
    apply SortedSet.ext
    intro s
    simp only [he.mem_inputs, hd.mem_inputs, hde.circuit, hde.edge_iff, hde.signals]
  have houtputs : (e.node x).outputs = (d.node x).outputs := by
    apply SortedSet.ext
    intro s
    simp only [he.mem_outputs, hd.mem_outputs, hde.circuit, hde.edge_iff, hde.signals]
  calc e.node x
    _ = ⟨(e.node x).constraints, (e.node x).signals, (e.node x).inputs, (e.node x).outputs⟩ := rfl
    _ = ⟨(d.node x).constraints, (d.node x).signals, (d.node x).inputs, (d.node x).outputs⟩ := by
      rw [hde.constraints, hde.signals, hinputs, houtputs]
    _ = d.node x := rfl

/-- Working out boundaries leaves alone the nodes that are not asked for. -/
theorem node_refreshBoundaries_foldl_of_not_mem {ids : List NodeId} (hx : x ∉ ids) :
    (ids.foldl refreshBoundaries d).node x = d.node x := by
  induction ids generalizing d with
  | nil => rfl
  | cons a rest ih =>
    rw [List.mem_cons, not_or] at hx
    exact (ih hx.2).trans (node_refreshBoundaries_of_ne hx.1)

/-! ## Nodes after a merge -/

namespace IsWellFormed

variable (h : d.IsWellFormed)
include h

/-- A merge leaves every node as it was, live or retired. -/
theorem node_mergeNodes (ha : a ∈ d.live) (hb : b ∈ d.live)
    (hcycle : ¬ d.wouldCreateCycle a b = true) (hx : x < d.nodes.size) :
    (d.mergeNodes a b).2.node x = d.node x := by
  rw [mergeNodes_eq]
  by_cases hmem : x ∈ d.nodes.size :: d.joinedPredecessors a b ++ d.joinedSuccessors a b
  · -- a neighbour of the two nodes, whose boundaries are worked out again
    have hneighbour : x ≠ a ∧ x ≠ b ∧ x ∈ d.live := by
      simp only [List.cons_append, List.mem_cons, List.mem_append, hx.ne, false_or,
        mem_joinedPredecessors, mem_joinedSuccessors] at hmem
      rcases hmem with ⟨hxa, hxb, hedge | hedge⟩ | ⟨hxa, hxb, hedge | hedge⟩
      · exact ⟨hxa, hxb, (h.edge_live _ _ hedge).1⟩
      · exact ⟨hxa, hxb, (h.edge_live _ _ hedge).1⟩
      · exact ⟨hxa, hxb, (h.edge_live _ _ hedge).2⟩
      · exact ⟨hxa, hxb, (h.edge_live _ _ hedge).2⟩
    obtain ⟨hxa, hxb, hlive⟩ := hneighbour
    obtain ⟨hagrees, hrefreshed⟩ := refreshBoundaries_foldl (d := d.contract a b)
      (d.nodes.size :: d.joinedPredecessors a b ++ d.joinedSuccessors a b)
    have hlt : x < (d.contract a b).nodes.size := by
      show x < (d.nodes.push (d.joined a b)).size
      rw [Array.size_push]
      exact Nat.lt_succ_of_lt hx
    have hboundaries := h.hasBoundaries_contract ha hb hcycle hlive hxa hxb
      (h.boundaries x hlive)
    exact (hagrees.node_eq hboundaries (hrefreshed x hlt (Or.inl hmem))).trans
      (node_contract_of_lt hx)
  · exact (node_refreshBoundaries_foldl_of_not_mem hmem).trans (node_contract_of_lt hx)

/-- A merge that is tried leaves every node as it was. -/
theorem node_tryMerge (pair : NodeId × NodeId) (hx : x < d.nodes.size) :
    (d.tryMerge pair).node x = d.node x := by
  rcases d.tryMerge_cases pair with heq | ⟨ha, hb, -, hcycle, heq⟩
  · rw [heq]
  · rw [heq]
    exact h.node_mergeNodes ha hb hcycle hx

/-- A node is cut out after a merge as it was before. -/
theorem subCircuit_tryMerge (pair : NodeId × NodeId) (hx : x < d.nodes.size) :
    (d.tryMerge pair).subCircuit x = d.subCircuit x := by
  rw [subCircuit, subCircuit, h.node_tryMerge pair hx, (h.tryMerge pair).2.circuit]

end IsWellFormed

/-- The edges of the node that two nodes are put into. -/
theorem IsClustering.edge_mergeNodes_new (h : d.IsClustering) :
    ((d.mergeNodes a b).2.Edge x d.nodes.size ↔ x ≠ a ∧ x ≠ b ∧ (d.Edge x a ∨ d.Edge x b)) ∧
      ((d.mergeNodes a b).2.Edge d.nodes.size x ↔ x ≠ a ∧ x ≠ b ∧ (d.Edge a x ∨ d.Edge b x)) := by
  have hagrees := agreesUpToBoundaries_mergeNodes d a b
  rw [hagrees.edge_iff, hagrees.edge_iff]
  exact ⟨h.edge_contract_to_new, h.edge_contract_from_new⟩

/-! ## Sub-circuits kept from one request to the next -/

/-- A graph with the sub-circuits that were asked for. -/
structure Cached where
  dag : Dag
  subCircuits : SortedMap NodeId SubCircuit

/-- What can be asked of a graph with kept sub-circuits. -/
inductive Request where
  | subCircuit (id : NodeId)
  | merge (pair : NodeId × NodeId)

namespace Cached

/-- The sub-circuit of a node: the kept one, or one that is cut out and kept. -/
def subCircuit (c : Cached) (id : NodeId) : Except CircuitError SubCircuit × Cached :=
  match c.subCircuits.get? id with
  | some sub => (.ok sub, c)
  | none =>
    match c.dag.subCircuit id with
    | .ok sub => (.ok sub, { c with subCircuits := c.subCircuits.insert id sub })
    | .error fault => (.error fault, c)

/-- Serves a request. Nothing is asked about a number that no node has. -/
def serve (c : Cached) : Request → Cached
  | .subCircuit id => if id < c.dag.nodes.size then (c.subCircuit id).2 else c
  | .merge pair => { c with dag := c.dag.tryMerge pair }

/-- Every kept sub-circuit is the one that would be cut out. -/
def IsFresh (c : Cached) : Prop := ∀ id sub, c.subCircuits.get? id = some sub →
  id < c.dag.nodes.size ∧ c.dag.subCircuit id = .ok sub

variable {c : Cached}

/-- Answers from the cache are those that would be worked out. -/
theorem IsFresh.subCircuit_fst (h : c.IsFresh) (id : NodeId) :
    (c.subCircuit id).1 = c.dag.subCircuit id := by
  unfold subCircuit
  split
  · rename_i sub hsub
    exact (h id sub hsub).2.symm
  · split
    · rename_i sub hsub
      exact hsub.symm
    · rename_i fault hfault
      exact hfault.symm

theorem IsFresh.subCircuit_snd (h : c.IsFresh) (hid : id < c.dag.nodes.size) :
    (c.subCircuit id).2.dag = c.dag ∧ (c.subCircuit id).2.IsFresh := by
  unfold subCircuit
  split
  · exact ⟨rfl, h⟩
  · split
    · rename_i sub hsub
      refine ⟨rfl, fun x sub' hget => ?_⟩
      rw [SortedMap.get?_insert] at hget
      split at hget
      · rename_i hx
        rw [hx, ← Option.some.inj hget]
        exact ⟨hid, hsub⟩
      · exact h x sub' hget
    · exact ⟨rfl, h⟩

/-- Serving a request keeps the graph well-formed and the kept sub-circuits right. -/
theorem IsFresh.serve (hdag : c.dag.IsWellFormed) (h : c.IsFresh) (request : Request) :
    (c.serve request).dag.IsWellFormed ∧ (c.serve request).IsFresh := by
  cases request with
  | subCircuit id =>
    unfold Cached.serve
    simp only
    split
    · rename_i hid
      obtain ⟨hsame, hfresh⟩ := h.subCircuit_snd hid
      exact ⟨hsame ▸ hdag, hfresh⟩
    · exact ⟨hdag, h⟩
  | merge pair =>
    obtain ⟨hdag', hretires⟩ := hdag.tryMerge pair
    refine ⟨hdag', fun id sub hget => ?_⟩
    obtain ⟨hid, hsub⟩ := h id sub hget
    exact ⟨Nat.lt_of_lt_of_le hid hretires.size_le, (hdag.subCircuit_tryMerge pair hid).trans hsub⟩

/-- However many requests are served, the kept sub-circuits stay right. -/
theorem IsFresh.foldl_serve (hdag : c.dag.IsWellFormed) (h : c.IsFresh) (requests : List Request) :
    (requests.foldl Cached.serve c).IsFresh := by
  induction requests generalizing c with
  | nil => exact h
  | cons request rest ih =>
    obtain ⟨hdag', hfresh⟩ := h.serve hdag request
    exact ih hdag' hfresh

end Cached

/-- In the graph of a partition, after any merges, a merge of two different nodes that succeeds leaves
every other live node live and every node as it was, its boundaries and its sub-circuit included. What led
to one of the two nodes, or was led to, is what leads to the new one, or is led to. So from then on,
whatever sub-circuits are asked for and kept between further merges, every answer is the sub-circuit that
would be cut out afresh. -/
theorem merge_keeps_nodes (circuit : Circuit) (partition : Partition)
    (hsize : partition.size = circuit.nConstraints) (pairs : List (NodeId × NodeId)) :
    let d := (ofPartition circuit partition).tryMerges pairs
    (∀ a b id e, a ≠ b → d.merge a b = .ok (id, e) →
      (∀ x ∈ d.live, x ≠ a → x ≠ b → x ∈ e.live) ∧
      (∀ x < d.nodes.size, e.node x = d.node x ∧ e.subCircuit x = d.subCircuit x) ∧
      (∀ x, x ∈ e.predecessors id ↔
        x ≠ a ∧ x ≠ b ∧ (x ∈ d.predecessors a ∨ x ∈ d.predecessors b)) ∧
      ∀ x, x ∈ e.successors id ↔ x ≠ a ∧ x ≠ b ∧ (x ∈ d.successors a ∨ x ∈ d.successors b)) ∧
    ∀ (requests : List Request) (id : NodeId), let c := requests.foldl Cached.serve ⟨d, .empty⟩
      (c.subCircuit id).1 = c.dag.subCircuit id := by
  intro d
  have h : d.IsWellFormed := ((isWellFormed_ofPartition hsize).tryMerges pairs).1
  refine ⟨fun a b id e hne hmerge => ?_, fun requests id => ?_⟩
  · obtain ⟨ha, hb, hcycle, rfl, rfl⟩ := (merge_eq_ok_iff_of_ne hne).1 hmerge
    refine ⟨fun x hx hxa hxb => ?_, fun x hx => ?_, fun x => ?_, fun x => ?_⟩
    · exact mem_live_mergeNodes.2 (Or.inr ⟨hx, hxa, hxb⟩)
    · have hnode := h.node_mergeNodes ha hb hcycle hx
      refine ⟨hnode, ?_⟩
      rw [subCircuit, subCircuit, hnode, (retires_mergeNodes d a b).circuit]
    · simp only [mem_predecessors]
      exact h.edge_mergeNodes_new.1
    · simp only [mem_successors]
      exact h.edge_mergeNodes_new.2
  · apply Cached.IsFresh.subCircuit_fst
    exact Cached.IsFresh.foldl_serve h (fun id sub hget => by cases hget) requests

open Sample in
/-- The third node of the diamond is next to both nodes that are merged, and a sub-circuit of it that was
kept before the merge is still right. -/
theorem merge_keeps_nodes_diamond : singletons.size = diamond.nConstraints ∧
    let d := (ofPartition diamond singletons).tryMerges []
    let e := (d.mergeNodes 0 1).2
    (0 : NodeId) ≠ 1 ∧ d.merge 0 1 = .ok (d.nodes.size, e) ∧ 2 ∈ d.successors 0 ∧ 2 ∈ d.successors 1 ∧
      2 ∈ e.live ∧ e.node 2 = d.node 2 ∧ e.subCircuit 2 = d.subCircuit 2 ∧
      2 ∈ e.successors d.nodes.size ∧
      let c := [.subCircuit 2, .merge (0, 1)].foldl Cached.serve ⟨d, .empty⟩
      (c.subCircuit 2).1 = c.dag.subCircuit 2 := by
  obtain ⟨hmerges, hcached⟩ := merge_keeps_nodes diamond singletons rfl []
  have hlive : ∀ x < 3, x ∈ (ofPartition diamond singletons).live := by decide +kernel
  have hok : (ofPartition diamond singletons).merge 0 1 =
      .ok ((ofPartition diamond singletons).mergeNodes 0 1) := by
    rw [merge_of_live (hlive 0 (by decide)) (hlive 1 (by decide)) (by decide)]
    exact if_neg (by decide +kernel)
  have hsuccessors : 2 ∈ (ofPartition diamond singletons).successors 0 ∧
      2 ∈ (ofPartition diamond singletons).successors 1 := by decide +kernel
  obtain ⟨hothers, hnodes, -, hafter⟩ := hmerges 0 1 _ _ (by decide) hok
  obtain ⟨hnode, hsub⟩ := hnodes 2 (by decide +kernel)
  exact ⟨rfl, by decide, hok, hsuccessors.1, hsuccessors.2,
    hothers 2 (hlive 2 (by decide)) (by decide) (by decide), hnode, hsub,
    (hafter 2).2 ⟨by decide, by decide, Or.inl hsuccessors.1⟩, hcached _ 2⟩

end CircuitEquiv.Dag
