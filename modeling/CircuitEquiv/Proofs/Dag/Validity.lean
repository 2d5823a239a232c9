-- SUMMARY: Well-formed graphs pass their checks, and every graph that merges lead to is well-formed.
import CircuitEquiv.Proofs.Circuit.FullEquivalence
import CircuitEquiv.Proofs.Data.Failure
import CircuitEquiv.Proofs.Dag.Merge
import CircuitEquiv.Proofs.Dag.Quotient
import Mathlib.Data.Fintype.Card
import Mathlib.Data.Set.Finite.Basic
import Mathlib.Order.WellFounded

/-!
# Checks of graphs of clusters

Among finitely many nodes without a cycle there is always one without a predecessor, so the search for
an order takes them all. A signal shared by two nodes is an output of the one that the edge leaves and an
input of the other.
-/

namespace CircuitEquiv.Dag

open Relation (TransGen)

variable {d : Dag} {a b : NodeId}

/-! ## Orders -/

/-- Among nodes without a cycle there is one that no edge enters from another of them. -/
theorem exists_source (hacyclic : ∀ id, ¬ TransGen d.Edge id id) {rest : List NodeId}
    (hrest : rest ≠ []) : ∃ id ∈ rest, ∀ p ∈ rest, ¬ d.Edge p id := by
  let before (x y : { id // id ∈ rest }) : Prop := TransGen d.Edge x y
  have : Finite { id // id ∈ rest } := (List.finite_toSet rest).to_subtype
  have : IsTrans _ before := ⟨fun _ _ _ => TransGen.trans⟩
  have : Std.Irrefl before := ⟨fun x => hacyclic x⟩
  obtain ⟨id, hid⟩ := List.exists_mem_of_ne_nil _ hrest
  obtain ⟨source, -, hsource⟩ := (Finite.wellFounded_of_trans_of_irrefl before).has_min Set.univ
    ⟨⟨id, hid⟩, Set.mem_univ _⟩
  exact ⟨source, source.2, fun p hp hedge => hsource ⟨p, hp⟩ (Set.mem_univ _) (.single hedge)⟩

/-- With enough steps the search for an order takes every node. -/
theorem sortFrom_snd_eq_nil (hacyclic : ∀ id, ¬ TransGen d.Edge id id) {fuel : Nat}
    {rest : List NodeId} (hfuel : rest.length ≤ fuel) : (sortFrom d fuel rest).2 = [] := by
  induction fuel generalizing rest with
  | zero => exact List.eq_nil_of_length_eq_zero (Nat.le_zero.1 hfuel)
  | succ fuel ih =>
    rw [sortFrom]
    split
    · rename_i hnone
      by_contra hrest
      obtain ⟨id, hid, hsource⟩ := exists_source hacyclic hrest
      refine List.find?_eq_none.1 hnone id hid (List.all_eq_true.2 fun p hp => ?_)
      have hmem : p ∉ rest := fun hmem => hsource p hmem (mem_predecessors.1 hp)
      simpa using hmem
    · rename_i id hsome
      have hlength := List.length_erase_of_mem (List.mem_of_find?_eq_some hsome)
      exact ih (by omega)

/-- A graph without a cycle has an order in which every edge leads forward. -/
theorem exists_topologicalOrder (hacyclic : ∀ id, ¬ TransGen d.Edge id id) :
    ∃ order, d.topologicalOrder = .ok order := by
  have hnil := sortFrom_snd_eq_nil hacyclic (Nat.le_refl d.live.toList.length)
  unfold topologicalOrder
  split
  · exact ⟨_, rfl⟩
  · rename_i heq
    rw [size, SortedSet.size] at heq
    rw [heq] at hnil
    cases hnil

/-! ## Shared signals -/

namespace IsWellFormed

variable (h : d.IsWellFormed)
include h

/-- A signal that two nodes share is passed along the edge between them. -/
theorem checkPassed_of_edge (hab : d.Edge a b) {s : Signal} (hsa : s ∈ (d.node a).signals)
    (hsb : s ∈ (d.node b).signals) :
    d.hasEdge a b = true ∧ s ∈ (d.node a).outputs ∧ s ∈ (d.node b).inputs := by
  obtain ⟨ha, hb⟩ := h.edge_live a b hab
  exact ⟨hasEdge_iff.2 hab, ((h.boundaries a ha).mem_outputs s).2 ⟨hsa, Or.inr ⟨b, hab, hsb⟩⟩,
    ((h.boundaries b hb).mem_inputs s).2 ⟨hsb, Or.inr ⟨a, hab, hsa⟩⟩⟩

theorem checkPassed_eq_ok (ha : a ∈ d.live) (hb : b ∈ d.live) (hne : a ≠ b) {s : Signal}
    (hsa : s ∈ (d.node a).signals) (hsb : s ∈ (d.node b).signals) :
    d.checkPassed s a b = .ok () := by
  unfold checkPassed
  rcases (h.share_iff a ha b hb hne).1 ⟨s, hsa, hsb⟩ with hab | hba
  · rw [if_pos (hasEdge_iff.2 hab)]
    exact if_pos (h.checkPassed_of_edge hab hsa hsb)
  · have hab : ¬ d.hasEdge a b = true := fun hab => h.not_edge_of_edge hba (hasEdge_iff.1 hab)
    rw [if_neg hab]
    exact if_pos (h.checkPassed_of_edge hba hsb hsa)

omit h in
/-- The live nodes that hold a signal, once each. -/
theorem nodup_holders (d : Dag) (s : Signal) : (((d.live.toList.flatMap fun id =>
    (d.node id).signals.toList.map fun s => (s, id)).filter fun e => e.1 = s).map (·.2)).Nodup := by
  have hnodup : (d.live.toList.flatMap fun id =>
      (d.node id).signals.toList.map fun s => (s, id)).Nodup := by
    refine List.nodup_flatMap.2 ⟨fun id _ => ?_, d.live.nodup_toList.imp fun hne e hea heb => ?_⟩
    · exact (SortedSet.nodup_toList _).map fun _ _ heq => (Prod.ext_iff.1 heq).1
    · obtain ⟨_, -, rfl⟩ := List.mem_map.1 hea
      obtain ⟨_, -, heq⟩ := List.mem_map.1 heb
      exact hne (Prod.ext_iff.1 heq).2.symm
  refine (hnodup.filter _).map_on fun x hx y hy heq => Prod.ext ?_ heq
  have hxs : x.1 = s := of_decide_eq_true (List.mem_filter.1 hx).2
  have hys : y.1 = s := of_decide_eq_true (List.mem_filter.1 hy).2
  rw [hxs, hys]

/-- A well-formed graph passes its checks. -/
theorem validate_eq_ok : d.validate = .ok () := by
  obtain ⟨order, horder⟩ := exists_topologicalOrder h.acyclic
  rw [validate, horder, ok_bind]
  refine forM_eq_ok_iff.2 fun ⟨s, ids⟩ hholders => forM_eq_ok_iff.2 fun ⟨a, b⟩ hpair => ?_
  obtain ⟨-, rfl⟩ := SortedMap.mem_entries_groupValues.1 hholders
  obtain ⟨ha, hb, hne⟩ := mem_pairsOf_of_pairwise (nodup_holders d s) hpair
  have hmem : ∀ id, id ∈ (((d.live.toList.flatMap fun id =>
      (d.node id).signals.toList.map fun s => (s, id)).filter fun e => e.1 = s).map (·.2)) →
        id ∈ d.live ∧ s ∈ (d.node id).signals := by
    simp only [List.mem_map, List.mem_filter, List.mem_flatMap, decide_eq_true_eq]
    rintro _ ⟨_, ⟨⟨id, hid, _, hs, rfl⟩, rfl⟩, rfl⟩
    exact ⟨hid, hs⟩
  exact h.checkPassed_eq_ok (hmem a ha).1 (hmem b hb).1 hne (hmem a ha).2 (hmem b hb).2

end IsWellFormed

/-! ## Reachable graphs -/

/-- In a graph of constraints as they are built no node holds the constant signal. -/
theorem IsClustering.constant_not_mem (h : d.IsClustering)
    (hkeys : d.circuit.HasProperKeys) (ha : a ∈ d.live) :
    constantSignal ∉ (d.node a).signals := by
  intro hs
  obtain ⟨k, hk, hs⟩ := (h.mem_signals a ha _).1 hs
  have hk := h.lt_nConstraints ha hk
  have hc := hkeys _ (Array.getElem_mem_toList hk)
  rw [Array.getElem?_eq_getElem hk] at hs
  exact hc.ne_constant_of_mem_signals hs rfl

/-- Whatever merges are tried on the graph of a partition, with whatever numbers and whether or not they
are refused: the live nodes are a well-formed graph, so that one edge joins two of them exactly if they
share a signal and a signal that is no input and no output occurs in no other node; no retired node is
ever live again; and the graph passes its checks. -/
theorem wellFormed_after_merges (circuit : Circuit) (partition : Partition)
    (hsize : partition.size = circuit.nConstraints) (pairs : List (NodeId × NodeId)) :
    let d := (ofPartition circuit partition).tryMerges pairs
    d.circuit = circuit ∧ d.IsWellFormed ∧
      (∀ a ∈ d.live, ∀ b ∈ d.live, a ≠ b → (d.Share a b ↔ Xor (d.Edge a b) (d.Edge b a))) ∧
      (∀ a ∈ d.live, ∀ b ∈ d.live, a ≠ b → ∀ s ∈ (d.node a).signals,
        s ∉ (d.node a).inputs → s ∉ (d.node a).outputs → s ∉ (d.node b).signals) ∧
      (circuit.HasProperKeys → ∀ a ∈ d.live, constantSignal ∉ (d.node a).signals) ∧
      (∀ later, ∀ id < d.nodes.size, id ∉ d.live → id ∉ (d.tryMerges later).live) ∧
      d.validate = .ok () := by
  intro d
  obtain ⟨h, hretires⟩ := (isWellFormed_ofPartition hsize).tryMerges pairs
  have hcircuit : d.circuit = circuit := hretires.circuit.trans circuit_ofPartition
  refine ⟨hcircuit, h, fun a ha b hb => h.share_iff_xor ha hb,
    fun a ha b hb hne s hs => h.not_mem_signals ha hb hne hs,
    fun hkeys a ha => h.constant_not_mem (hcircuit.symm ▸ hkeys) ha, fun later id hid hdead hlive => ?_,
    h.validate_eq_ok⟩
  exact hdead ((h.tryMerges later).2.live_of_lt id hid hlive)

namespace Sample

/-- The square of the signal `x` is the signal `y`. -/
def square (x y : Signal) : Constraint := .acir (.ofTerms Circuit.Sample.field [((x, x), 1)] [(y, 6)] 0)

/-- The input 1 is squared four times, which leads to the output 5. -/
def chain : Circuit where
  field := Circuit.Sample.field
  dialect := .acir
  nSignals := 6
  constraints := #[square 1 2, square 2 3, square 3 4, square 4 5]
  inputs := .ofList [1]
  outputs := .ofList [5]
  nSignals_pos := by decide
  inputs_declarable := by decide
  outputs_declarable := by decide
  inputs_disjoint_outputs := by decide
  constraints_wellFormed := by decide

/-- Every constraint is a part of its own. -/
def singletons : Partition := ⟨[0, 1, 2, 3]⟩

end Sample

open Sample in
/-- Of merges in a chain of four squarings one succeeds, one would close a cycle, and one names a node
that is no longer live. -/
theorem wellFormed_after_merges_chain : singletons.size = chain.nConstraints ∧
    let d := (ofPartition chain singletons).tryMerges [(1, 2), (0, 3), (4, 2)]
    d.circuit = chain ∧ d.IsWellFormed ∧
      (∀ a ∈ d.live, ∀ b ∈ d.live, a ≠ b → (d.Share a b ↔ Xor (d.Edge a b) (d.Edge b a))) ∧
      (∀ a ∈ d.live, ∀ b ∈ d.live, a ≠ b → ∀ s ∈ (d.node a).signals,
        s ∉ (d.node a).inputs → s ∉ (d.node a).outputs → s ∉ (d.node b).signals) ∧
      (∀ a ∈ d.live, constantSignal ∉ (d.node a).signals) ∧
      (∀ later, ∀ id < d.nodes.size, id ∉ d.live → id ∉ (d.tryMerges later).live) ∧
      d.validate = .ok () := by
  obtain ⟨hcircuit, h, hshare, hinner, hconstant, hretired, hvalid⟩ :=
    wellFormed_after_merges chain singletons rfl [(1, 2), (0, 3), (4, 2)]
  exact ⟨rfl, hcircuit, h, hshare, hinner, hconstant (by decide), hretired, hvalid⟩

end CircuitEquiv.Dag
