-- SUMMARY: What a graph of clusters satisfies, and what working out boundaries changes.
import CircuitEquiv.Dag
import CircuitEquiv.Proofs.Data.Ordered
import CircuitEquiv.Proofs.Data.Reach
import Mathlib.Data.List.Pairwise

/-!
# Well-formed graphs of clusters

The live nodes of a well-formed graph share out the constraints of the circuit, no edges form a cycle,
two nodes are joined by an edge exactly if they share a signal, and the inputs and outputs of a node are
the signals that it shares with its predecessors and successors and those that are declared. All but the
last part depends on the constraints and signals of the nodes only, which working out boundaries keeps.
-/

namespace CircuitEquiv.Dag

open Relation (TransGen ReflTransGen)

variable (d : Dag)

/-- An edge leads from one node to the other. -/
def Edge (a b : NodeId) : Prop := (a, b) ∈ d.edges

/-- Some signal occurs in both nodes. -/
def Share (a b : NodeId) : Prop := ∃ s, s ∈ (d.node a).signals ∧ s ∈ (d.node b).signals

/-- The live nodes are an acyclic graph of clusters of the circuit. -/
structure IsClustering : Prop where
  live_lt : ∀ id ∈ d.live, id < d.nodes.size
  constraints_ne_nil : ∀ id ∈ d.live, (d.node id).constraints ≠ []
  constraints_sorted : ∀ id ∈ d.live, (d.node id).constraints.Pairwise (· < ·)
  /-- Every constraint is in exactly one live node. -/
  cover : (d.live.toList.flatMap fun id => (d.node id).constraints).Perm
    (List.range d.circuit.nConstraints)
  mem_signals : ∀ id ∈ d.live, ∀ s, s ∈ (d.node id).signals ↔
    ∃ k ∈ (d.node id).constraints, s ∈ (d.circuit.constraints[k]?.getD default).signals
  edge_live : ∀ a b, d.Edge a b → a ∈ d.live ∧ b ∈ d.live
  acyclic : ∀ id, ¬ TransGen d.Edge id id
  share_iff : ∀ a ∈ d.live, ∀ b ∈ d.live, a ≠ b → (d.Share a b ↔ d.Edge a b ∨ d.Edge b a)

/-- The inputs and outputs of a node are what its neighbours and the circuit make of its signals. -/
structure HasBoundaries (id : NodeId) : Prop where
  mem_inputs : ∀ s, s ∈ (d.node id).inputs ↔ s ∈ (d.node id).signals ∧
    (s ∈ d.circuit.inputs ∨ ∃ p, d.Edge p id ∧ s ∈ (d.node p).signals)
  mem_outputs : ∀ s, s ∈ (d.node id).outputs ↔ s ∈ (d.node id).signals ∧
    (s ∈ d.circuit.outputs ∨ ∃ q, d.Edge id q ∧ s ∈ (d.node q).signals)

/-- A graph of clusters with the right boundaries. -/
structure IsWellFormed : Prop extends d.IsClustering where
  boundaries : ∀ id ∈ d.live, d.HasBoundaries id

variable {d} {a b id : NodeId}

theorem mem_predecessors : a ∈ d.predecessors id ↔ d.Edge a id := by
  simp only [predecessors, List.mem_map, List.mem_filter, decide_eq_true_eq]
  exact ⟨fun ⟨e, ⟨he, hid⟩, ha⟩ => ha ▸ hid ▸ he, fun h => ⟨(a, id), ⟨h, rfl⟩, rfl⟩⟩

theorem mem_successors : b ∈ d.successors id ↔ d.Edge id b := by
  simp only [successors, List.mem_map, List.mem_filter, decide_eq_true_eq]
  exact ⟨fun ⟨e, ⟨he, hid⟩, hb⟩ => hb ▸ hid ▸ he, fun h => ⟨(id, b), ⟨h, rfl⟩, rfl⟩⟩

theorem share_comm : d.Share a b ↔ d.Share b a := exists_congr fun _ => and_comm

theorem hasEdge_iff : d.hasEdge a b = true ↔ d.Edge a b := decide_eq_true_iff

theorem isLive_iff : d.isLive id = true ↔ id ∈ d.live := decide_eq_true_iff

namespace IsClustering

variable (h : d.IsClustering)
include h

/-- Edges do not lead both ways. -/
theorem not_edge_of_edge (hab : d.Edge a b) : ¬ d.Edge b a :=
  fun hba => h.acyclic a (.tail (.single hab) hba)

/-- Nodes share a signal exactly if one edge joins them. -/
theorem share_iff_xor (ha : a ∈ d.live) (hb : b ∈ d.live) (hne : a ≠ b) :
    d.Share a b ↔ Xor (d.Edge a b) (d.Edge b a) := by
  rw [h.share_iff a ha b hb hne]
  constructor
  · rintro (hab | hba)
    · exact Or.inl ⟨hab, h.not_edge_of_edge hab⟩
    · exact Or.inr ⟨hba, h.not_edge_of_edge hba⟩
  · rintro (⟨hab, -⟩ | ⟨hba, -⟩)
    · exact Or.inl hab
    · exact Or.inr hba

theorem nodup_constraints : (d.live.toList.flatMap fun id => (d.node id).constraints).Nodup :=
  h.cover.nodup_iff.2 List.nodup_range

/-- Every constraint is in exactly one live node. -/
theorem existsUnique_node {k : Nat} (hk : k < d.circuit.nConstraints) :
    ∃! id, id ∈ d.live ∧ k ∈ (d.node id).constraints := by
  obtain ⟨id, hid, hmem⟩ := List.mem_flatMap.1 (h.cover.mem_iff.2 (List.mem_range.2 hk))
  refine ⟨id, ⟨hid, hmem⟩, fun other ⟨hother, hmem'⟩ => ?_⟩
  by_contra hne
  have hdisjoint := (List.nodup_flatMap.1 h.nodup_constraints).2
  have : Std.Symm (Function.onFun List.Disjoint fun id => (d.node id).constraints) :=
    ⟨fun _ _ hab => hab.symm⟩
  exact hdisjoint.forall hother hid hne hmem' hmem

theorem lt_nConstraints {k : Nat} (hid : id ∈ d.live) (hk : k ∈ (d.node id).constraints) :
    k < d.circuit.nConstraints :=
  List.mem_range.1 (h.cover.mem_iff.1 (List.mem_flatMap.2 ⟨id, hid, hk⟩))

end IsClustering

/-- A signal that is no input and no output of a node occurs in no other node. -/
theorem IsWellFormed.not_mem_signals (h : d.IsWellFormed) (ha : a ∈ d.live) (hb : b ∈ d.live)
    (hne : a ≠ b) {s : Signal} (hs : s ∈ (d.node a).signals) (hin : s ∉ (d.node a).inputs)
    (hout : s ∉ (d.node a).outputs) : s ∉ (d.node b).signals := by
  intro hsb
  rcases (h.share_iff a ha b hb hne).1 ⟨s, hs, hsb⟩ with hab | hba
  · exact hout (((h.boundaries a ha).mem_outputs s).2 ⟨hs, Or.inr ⟨b, hab, hsb⟩⟩)
  · exact hin (((h.boundaries a ha).mem_inputs s).2 ⟨hs, Or.inr ⟨b, hba, hsb⟩⟩)

/-! ## Working out boundaries -/

/-- Two graphs that agree on everything but the boundaries of nodes. -/
structure AgreesUpToBoundaries (d e : Dag) : Prop where
  circuit : e.circuit = d.circuit
  live : e.live = d.live
  edges : e.edges = d.edges
  size_nodes : e.nodes.size = d.nodes.size
  constraints : ∀ id, (e.node id).constraints = (d.node id).constraints
  signals : ∀ id, (e.node id).signals = (d.node id).signals

namespace AgreesUpToBoundaries

variable {e f : Dag}

theorem refl (d : Dag) : d.AgreesUpToBoundaries d := ⟨rfl, rfl, rfl, rfl, fun _ => rfl, fun _ => rfl⟩

theorem trans (hde : d.AgreesUpToBoundaries e) (hef : e.AgreesUpToBoundaries f) :
    d.AgreesUpToBoundaries f where
  circuit := hef.circuit.trans hde.circuit
  live := hef.live.trans hde.live
  edges := hef.edges.trans hde.edges
  size_nodes := hef.size_nodes.trans hde.size_nodes
  constraints id := (hef.constraints id).trans (hde.constraints id)
  signals id := (hef.signals id).trans (hde.signals id)

variable (hde : d.AgreesUpToBoundaries e)
include hde

theorem edge_iff : e.Edge a b ↔ d.Edge a b := by rw [Edge, hde.edges, Edge]

theorem isClustering (h : d.IsClustering) : e.IsClustering where
  live_lt := by
    rw [hde.live, hde.size_nodes]
    exact h.live_lt
  constraints_ne_nil id hid := by
    rw [hde.constraints]
    exact h.constraints_ne_nil id (hde.live ▸ hid)
  constraints_sorted id hid := by
    rw [hde.constraints]
    exact h.constraints_sorted id (hde.live ▸ hid)
  cover := by
    rw [hde.live, hde.circuit, funext hde.constraints]
    exact h.cover
  mem_signals id hid := by
    rw [hde.signals, hde.constraints, hde.circuit]
    exact h.mem_signals id (hde.live ▸ hid)
  edge_live a b hab := by
    rw [hde.live]
    exact h.edge_live a b (hde.edge_iff.1 hab)
  acyclic id hcycle :=
    h.acyclic id (TransGen.mono (fun _ _ => hde.edge_iff.1) id id hcycle)
  share_iff a ha b hb hne := by
    rw [hde.edge_iff, hde.edge_iff, Share, hde.signals, hde.signals]
    exact h.share_iff a (hde.live ▸ ha) b (hde.live ▸ hb) hne

/-- A node with the right boundaries keeps them while it stays as it is. -/
theorem hasBoundaries (hnode : e.node id = d.node id) (h : d.HasBoundaries id) :
    e.HasBoundaries id where
  mem_inputs s := by
    simp only [hnode, hde.circuit, hde.edge_iff, hde.signals]
    exact h.mem_inputs s
  mem_outputs s := by
    simp only [hnode, hde.circuit, hde.edge_iff, hde.signals]
    exact h.mem_outputs s

end AgreesUpToBoundaries

theorem node_refreshBoundaries_self (hid : id < d.nodes.size) :
    (d.refreshBoundaries id).node id = { d.node id with
      inputs := (d.sharedWith (d.node id) (d.predecessors id)).union
        ((d.node id).signals.inter d.circuit.inputs)
      outputs := (d.sharedWith (d.node id) (d.successors id)).union
        ((d.node id).signals.inter d.circuit.outputs) } := by
  show (d.nodes.setIfInBounds id _)[id]?.getD default = _
  rw [Array.getElem?_setIfInBounds_self_of_lt hid]
  rfl

theorem node_refreshBoundaries_of_ne (hne : a ≠ id) :
    (d.refreshBoundaries id).node a = d.node a := by
  show (d.nodes.setIfInBounds id _)[a]?.getD default = d.nodes[a]?.getD default
  rw [Array.getElem?_setIfInBounds_ne hne.symm]

theorem refreshBoundaries_of_ge (hid : d.nodes.size ≤ id) : d.refreshBoundaries id = d := by
  simp only [refreshBoundaries, Array.setIfInBounds_eq_of_size_le hid]

theorem agreesUpToBoundaries_refreshBoundaries (d : Dag) (id : NodeId) :
    d.AgreesUpToBoundaries (d.refreshBoundaries id) := by
  by_cases hid : id < d.nodes.size
  · refine ⟨rfl, rfl, rfl, Array.size_setIfInBounds, fun a => ?_, fun a => ?_⟩ <;>
    · by_cases ha : a = id
      · rw [ha, node_refreshBoundaries_self hid]
      · rw [node_refreshBoundaries_of_ne ha]
  · rw [refreshBoundaries_of_ge (Nat.le_of_not_lt hid)]
    exact .refl d

theorem mem_sharedWith {n : DagNode} {others : List NodeId} {s : Signal} :
    s ∈ d.sharedWith n others ↔ s ∈ n.signals ∧ ∃ id ∈ others, s ∈ (d.node id).signals := by
  simp [sharedWith]

theorem hasBoundaries_refreshBoundaries (hid : id < d.nodes.size) :
    (d.refreshBoundaries id).HasBoundaries id := by
  have hagrees := agreesUpToBoundaries_refreshBoundaries d id
  constructor
  · intro s
    simp only [hagrees.circuit, hagrees.edge_iff, hagrees.signals]
    rw [node_refreshBoundaries_self hid]
    simp only [SortedSet.mem_union, SortedSet.inter, SortedSet.mem_filter, mem_sharedWith,
      mem_predecessors, decide_eq_true_eq]
    tauto
  · intro s
    simp only [hagrees.circuit, hagrees.edge_iff, hagrees.signals]
    rw [node_refreshBoundaries_self hid]
    simp only [SortedSet.mem_union, SortedSet.inter, SortedSet.mem_filter, mem_sharedWith,
      mem_successors, decide_eq_true_eq]
    tauto

/-- Working out the boundaries of several nodes leaves them and the nodes that had the right ones with
the right boundaries. -/
theorem refreshBoundaries_foldl (ids : List NodeId) :
    d.AgreesUpToBoundaries (ids.foldl refreshBoundaries d) ∧
      ∀ id < d.nodes.size, id ∈ ids ∨ d.HasBoundaries id →
        (ids.foldl refreshBoundaries d).HasBoundaries id := by
  induction ids generalizing d with
  | nil => exact ⟨.refl d, fun id _ h => h.resolve_left (List.not_mem_nil)⟩
  | cons a rest ih =>
    have hagrees := agreesUpToBoundaries_refreshBoundaries d a
    obtain ⟨hrest, hboundaries⟩ := @ih (d.refreshBoundaries a)
    refine ⟨hagrees.trans hrest, fun id hid h => hboundaries id (hagrees.size_nodes ▸ hid) ?_⟩
    by_cases ha : id = a
    · exact Or.inr (ha ▸ hasBoundaries_refreshBoundaries (ha ▸ hid))
    · rcases h with h | h
      · exact Or.inl ((List.mem_cons.1 h).resolve_left ha)
      · exact Or.inr (hagrees.hasBoundaries (node_refreshBoundaries_of_ne ha) h)

end CircuitEquiv.Dag
