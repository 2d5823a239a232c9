-- SUMMARY: The cycle test is exact: a merge is refused exactly if the merged graph would have a cycle.
import CircuitEquiv.Proofs.Dag.Validity

/-!
# Exactness of the cycle test

Two vertices of a graph are identified: one vertex stands for both, and the direct edges between them are
dropped. In an acyclic graph a path from one of them to the other through a third vertex becomes a cycle,
and nothing else does. The test looks for such paths, so it says whether the merged graph has a cycle, and
a merge of live nodes is refused exactly then.
-/

namespace CircuitEquiv.Dag

open Relation (TransGen ReflTransGen)

/-! ## Identifying two vertices -/

section Identify

variable {α : Type} [DecidableEq α] {r : α → α → Prop} {a b c s t x y : α}

/-- No path leads from a vertex back to it. -/
def Acyclic (r : α → α → Prop) : Prop := ∀ x, ¬ TransGen r x x

/-- The vertex that stands for `x` where `c` stands for `a` and `b`. -/
def standIn (a b c x : α) : α := if x = a ∨ x = b then c else x

theorem standIn_of_eq (h : x = a ∨ x = b) : standIn a b c x = c := if_pos h

theorem standIn_of_ne (ha : x ≠ a) (hb : x ≠ b) : standIn a b c x = x := if_neg (not_or.2 ⟨ha, hb⟩)

/-- The graph in which `c` stands for both `a` and `b`, without the direct edges between them. -/
def Identify (r : α → α → Prop) (a b c x y : α) : Prop :=
  ∃ u v, r u v ∧ ¬ (u = a ∧ v = b) ∧ ¬ (u = b ∧ v = a) ∧ standIn a b c u = x ∧ standIn a b c v = y

/-- Edges between other vertices stay, and `c` takes over the other edges of `a` and `b`. -/
theorem identify_iff (hloop : ∀ x, ¬ r x x) : Identify r a b c x y ↔
    (x ≠ a ∧ x ≠ b ∧ y ≠ a ∧ y ≠ b ∧ r x y) ∨
    (y = c ∧ x ≠ a ∧ x ≠ b ∧ (r x a ∨ r x b)) ∨
    (x = c ∧ y ≠ a ∧ y ≠ b ∧ (r a y ∨ r b y)) := by
  constructor
  · rintro ⟨u, v, huv, hab, hba, rfl, rfl⟩
    by_cases hu : u = a ∨ u = b <;> by_cases hv : v = a ∨ v = b
    · rcases hu with rfl | rfl <;> rcases hv with rfl | rfl
      · exact absurd huv (hloop _)
      · exact absurd ⟨rfl, rfl⟩ hab
      · exact absurd ⟨rfl, rfl⟩ hba
      · exact absurd huv (hloop _)
    · rw [not_or] at hv
      rw [standIn_of_eq hu, standIn_of_ne hv.1 hv.2]
      refine Or.inr (Or.inr ⟨rfl, hv.1, hv.2, ?_⟩)
      rcases hu with rfl | rfl
      · exact Or.inl huv
      · exact Or.inr huv
    · rw [not_or] at hu
      rw [standIn_of_ne hu.1 hu.2, standIn_of_eq hv]
      refine Or.inr (Or.inl ⟨rfl, hu.1, hu.2, ?_⟩)
      rcases hv with rfl | rfl
      · exact Or.inl huv
      · exact Or.inr huv
    · rw [not_or] at hu hv
      rw [standIn_of_ne hu.1 hu.2, standIn_of_ne hv.1 hv.2]
      exact Or.inl ⟨hu.1, hu.2, hv.1, hv.2, huv⟩
  · have ha : standIn a b c a = c := standIn_of_eq (Or.inl rfl)
    have hb : standIn a b c b = c := standIn_of_eq (Or.inr rfl)
    rintro (⟨hxa, hxb, hya, hyb, h⟩ | ⟨rfl, hxa, hxb, h | h⟩ | ⟨rfl, hya, hyb, h | h⟩)
    · exact ⟨x, y, h, fun heq => hxa heq.1, fun heq => hxb heq.1, standIn_of_ne hxa hxb,
        standIn_of_ne hya hyb⟩
    · exact ⟨x, a, h, fun heq => hxa heq.1, fun heq => hxb heq.1, standIn_of_ne hxa hxb, ha⟩
    · exact ⟨x, b, h, fun heq => hxa heq.1, fun heq => hxb heq.1, standIn_of_ne hxa hxb, hb⟩
    · exact ⟨a, y, h, fun heq => hyb heq.2, fun heq => hya heq.2, ha, standIn_of_ne hya hyb⟩
    · exact ⟨b, y, h, fun heq => hyb heq.2, fun heq => hya heq.2, hb, standIn_of_ne hya hyb⟩

/-- A path that misses one of the two vertices uses no direct edge between them. -/
theorem path_identify {z : α} (hz : z = a ∨ z = b) (havoid : ∀ y, ReflTransGen r s y → y ≠ z)
    (h : ReflTransGen r s x) :
    ReflTransGen (Identify r a b c) (standIn a b c s) (standIn a b c x) := by
  induction h with
  | refl => exact .refl
  | @tail u v hsu huv ih =>
    have hu := havoid u hsu
    have hv := havoid v (hsu.tail huv)
    refine ih.tail ⟨u, v, huv, ?_, ?_, rfl, rfl⟩
    · rintro ⟨rfl, rfl⟩
      exact hz.elim (fun h => hu h.symm) fun h => hv h.symm
    · rintro ⟨rfl, rfl⟩
      exact hz.elim (fun h => hv h.symm) fun h => hu h.symm

/-- A path from one vertex to the other through a third becomes a cycle. -/
theorem cycle_of_detour (hacyclic : Acyclic r) {z : α} (hzt : z = a ∧ t = b ∨ z = b ∧ t = a)
    (hst : s ≠ t) (hzs : r z s) (h : ReflTransGen r s t) : TransGen (Identify r a b c) c c := by
  have havoid : ∀ y, ReflTransGen r s y → y ≠ z := by
    rintro y hsy rfl
    exact hacyclic y (.head' hzs hsy)
  have hends : standIn a b c z = c ∧ standIn a b c t = c :=
    ⟨standIn_of_eq (hzt.imp And.left And.left), standIn_of_eq (hzt.symm.imp And.right And.right)⟩
  have hfirst : Identify r a b c (standIn a b c z) (standIn a b c s) := by
    refine ⟨z, s, hzs, ?_, ?_, rfl, rfl⟩
    · rintro ⟨-, rfl⟩
      exact hzt.elim (fun h => hst h.2.symm) fun h => havoid s .refl h.1.symm
    · rintro ⟨-, rfl⟩
      exact hzt.elim (fun h => havoid s .refl h.1.symm) fun h => hst h.2.symm
  have hpath := path_identify (c := c) (hzt.imp And.left And.left) havoid h
  simp only [hends] at hfirst hpath
  exact .head' hfirst hpath

/-- Identifying two vertices of an acyclic graph closes a cycle exactly if a path leads from one of them to
the other through a third vertex. -/
theorem acyclic_identify_iff (hacyclic : Acyclic r) : Acyclic (Identify r a b a) ↔
    ¬ ((∃ s, s ≠ b ∧ r a s ∧ ReflTransGen r s b) ∨ ∃ s, s ≠ a ∧ r b s ∧ ReflTransGen r s a) := by
  have hloop : ∀ x, ¬ r x x := fun x hx => hacyclic x (.single hx)
  constructor
  · rintro h (⟨s, hs, has, hsb⟩ | ⟨s, hs, hbs, hsa⟩)
    · exact h a (cycle_of_detour hacyclic (Or.inl ⟨rfl, rfl⟩) hs has hsb)
    · exact h a (cycle_of_detour hacyclic (Or.inr ⟨rfl, rfl⟩) hs hbs hsa)
  · intro h
    apply acyclic_of_contraction (a := a) (b := b) (c := a) (r := r)
    · intro x y hx hy hxy
      simp only [identify_iff hloop, hx, hy, false_and, or_false] at hxy
      exact hxy.2.2.2.2
    · intro y hy
      simpa [identify_iff hloop] using hy
    · intro x hx
      simp only [identify_iff hloop, ne_eq, not_true_eq_false, false_and, and_false, false_or, or_false,
        true_and] at hx
      exact hx.2.2
    · simp [identify_iff hloop]
    · exact hacyclic
    · exact fun s hs has hsb => h (Or.inl ⟨s, hs, has, hsb⟩)
    · exact fun s hs hbs hsa => h (Or.inr ⟨s, hs, hbs, hsa⟩)

end Identify

/-! ## The test -/

variable {d e : Dag} {a b id x y : NodeId}

/-- The test is passed exactly if the graph with the two nodes identified has no cycle. -/
theorem IsClustering.wouldCreateCycle_eq_false_iff (h : d.IsClustering) :
    d.wouldCreateCycle a b = false ↔ Acyclic (Identify d.Edge a b a) := by
  rw [acyclic_identify_iff h.acyclic, ← h.wouldCreateCycle_iff, Bool.not_eq_true]

/-- The edges after a merge are those of the graph in which the new node stands for the two. -/
theorem IsClustering.edge_mergeNodes_iff (h : d.IsClustering) :
    (d.mergeNodes a b).2.Edge x y ↔ Identify d.Edge a b d.nodes.size x y := by
  rw [(agreesUpToBoundaries_mergeNodes d a b).edge_iff, edge_contract_iff]
  exact (identify_iff fun x hx => h.acyclic x (.single hx)).symm

/-- Two different live nodes are merged if the test is passed, and refused otherwise. -/
theorem merge_of_live (ha : a ∈ d.live) (hb : b ∈ d.live) (hne : a ≠ b) : d.merge a b =
    if d.wouldCreateCycle a b then .error (.mergeCreatesCycle a b) else .ok (d.mergeNodes a b) := by
  simp [merge, isLive_iff.2 ha, isLive_iff.2 hb, hne]

/-- In the graph of a partition, after any merges, the cycle test of two nodes is passed exactly if the
graph with the two identified has no cycle, whether or not an edge joins them. So a merge of two live nodes
succeeds exactly then, and its edges are those of the identified graph; otherwise it is refused because of
the cycle. -/
theorem cycleTest_exact (circuit : Circuit) (partition : Partition)
    (hsize : partition.size = circuit.nConstraints) (pairs : List (NodeId × NodeId)) :
    let d := (ofPartition circuit partition).tryMerges pairs
    (∀ a b, d.wouldCreateCycle a b = false ↔ Acyclic (Identify d.Edge a b a)) ∧
      ∀ a ∈ d.live, ∀ b ∈ d.live, a ≠ b →
        (Acyclic (Identify d.Edge a b a) ↔ ∃ id e, d.merge a b = .ok (id, e)) ∧
        (¬ Acyclic (Identify d.Edge a b a) ↔ d.merge a b = .error (.mergeCreatesCycle a b)) ∧
        ∀ id e, d.merge a b = .ok (id, e) → ∀ x y, e.Edge x y ↔ Identify d.Edge a b id x y := by
  intro d
  have h : d.IsClustering := ((isWellFormed_ofPartition hsize).tryMerges pairs).1.toIsClustering
  refine ⟨fun a b => h.wouldCreateCycle_eq_false_iff, fun a ha b hb hne => ?_⟩
  rw [← h.wouldCreateCycle_eq_false_iff, merge_of_live ha hb hne]
  refine ⟨?_, ?_, ?_⟩
  · cases d.wouldCreateCycle a b
    · exact ⟨fun _ => ⟨_, _, rfl⟩, fun _ => rfl⟩
    · simp
  · cases d.wouldCreateCycle a b <;> simp
  · intro id e hmerge x y
    split at hmerge
    · cases hmerge
    · cases hmerge
      exact h.edge_mergeNodes_iff

namespace Sample

/-- The product of the signals `x` and `y` is the signal `z`. -/
def product (x y z : Signal) : Constraint :=
  .acir (.ofTerms Circuit.Sample.field [((x, y), 1)] [(z, 6)] 0)

/-- The signal 2 goes into the signals 3 and 4, and 3 goes into 4 too. -/
def diamond : Circuit := { chain with
  constraints := #[square 1 2, square 2 3, product 2 3 4, square 4 5]
  constraints_wellFormed := by decide }

end Sample

open Sample in
/-- The first node of the diamond leads to the third directly and through the second, so it can be merged
with the second only. -/
theorem cycleTest_exact_diamond : singletons.size = diamond.nConstraints ∧
    let d := (ofPartition diamond singletons).tryMerges []
    0 ∈ d.live ∧ 1 ∈ d.live ∧ 2 ∈ d.live ∧ d.Edge 0 2 ∧
      ¬ Acyclic (Identify d.Edge 0 2 0) ∧ d.merge 0 2 = .error (.mergeCreatesCycle 0 2) ∧
      Acyclic (Identify d.Edge 0 1 0) ∧ ∃ id e, d.merge 0 1 = .ok (id, e) := by
  obtain ⟨htest, hmerge⟩ := cycleTest_exact diamond singletons rfl []
  have hlive : ∀ id < 3, id ∈ (ofPartition diamond singletons).live := by decide +kernel
  have hedge : (ofPartition diamond singletons).Edge 0 2 := by
    unfold Edge
    decide +kernel
  have hcycle := (htest 0 1).1 (by decide +kernel)
  have hdetour : ¬ Acyclic (Identify (ofPartition diamond singletons).Edge 0 2 0) := by
    intro hacyclic
    exact absurd ((htest 0 2).2 hacyclic) (by decide +kernel)
  exact ⟨rfl, hlive 0 (by decide), hlive 1 (by decide), hlive 2 (by decide), hedge, hdetour,
    (hmerge 0 (hlive 0 (by decide)) 2 (hlive 2 (by decide)) (by decide)).2.1.1 hdetour, hcycle,
    (hmerge 0 (hlive 0 (by decide)) 1 (hlive 1 (by decide)) (by decide)).1.1 hcycle⟩

end CircuitEquiv.Dag
