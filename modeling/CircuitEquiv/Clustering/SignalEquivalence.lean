-- SUMMARY: Clusters that fall apart when constraints setting two signals equal are taken out.
import CircuitEquiv.Clustering.Graph
import CircuitEquiv.Clustering.Partition

/-!
# Removing signal equivalences

Constraints that set two signals equal are taken out and stay on their own; the connected components
of the others are the clusters.
-/

namespace CircuitEquiv

/-- Whether a constraint sets two signals equal; when `relaxed`, also up to a constant. -/
def Circuit.equatesSignals (circuit : Circuit) (relaxed : Bool) (k : Nat) : Bool :=
  ((circuit.constraints[k]?.getD default).signalEquivalence? circuit.field relaxed).isSome

/-- The partition into the components that are left without signal equivalences. -/
def withoutEquivalences (circuit : Circuit) (relaxed : Bool) : Partition :=
  let keep (k : Nat) : Bool := !circuit.equatesSignals relaxed k
  .ofDisjoint circuit.nConstraints ((ConstraintGraph.restricted circuit keep).components keep)

end CircuitEquiv
