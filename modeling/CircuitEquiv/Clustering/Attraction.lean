-- SUMMARY: Clusters of nonlinear constraints that attract the linear constraints beside them.
import CircuitEquiv.Clustering.Graph
import CircuitEquiv.Clustering.Partition

/-!
# Nonlinear attraction

The components of nonlinear constraints are the seeds of clusters. In each round every constraint
without a cluster that is adjacent to exactly one joins it; the joins of a round are decided by the
clusters at its start. Constraints that never join stay on their own.
-/

namespace CircuitEquiv.Attraction

/-- The clusters adjacent to a vertex, without repetition. -/
def adjacentClusters (g : ConstraintGraph) (cluster : Array (Option Nat)) (v : Nat) : List Nat :=
  ((g.edges v).keys.filterMap fun u => (cluster[u]?).join).eraseDups

/-- The cluster of a vertex after a round. -/
def afterRound (g : ConstraintGraph) (cluster : Array (Option Nat)) (v : Nat) : Option Nat :=
  match (cluster[v]?).join with
  | some k => some k
  | none =>
    match adjacentClusters g cluster v with
    | [k] => some k
    | _ => none

/-- Runs rounds until nothing joins. -/
def grow (g : ConstraintGraph) : Nat → Array (Option Nat) → Array (Option Nat)
  | 0, cluster => cluster
  | fuel + 1, cluster =>
    let next := Array.ofFn fun v : Fin cluster.size => afterRound g cluster v
    if next = cluster then cluster else grow g fuel next

/-- The seeds: the components of nonlinear constraints. -/
def seeds (circuit : Circuit) : List (List Nat) :=
  (ConstraintGraph.ofCircuit circuit).components fun k =>
    (circuit.constraints[k]?.getD default).isNonlinear

/-- The partition into clusters and single constraints. -/
def partition (circuit : Circuit) : Partition :=
  let n := circuit.nConstraints
  let seeds := seeds circuit
  let start := Array.ofFn fun v : Fin n =>
    if seeds.any (·.contains v) then some (Partition.placeOf seeds v) else none
  let cluster := grow (ConstraintGraph.ofCircuit circuit) n start
  .ofFunction n fun v => ((cluster[v]?).join).getD (seeds.length + v)

end CircuitEquiv.Attraction
