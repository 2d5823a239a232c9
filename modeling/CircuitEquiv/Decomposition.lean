-- SUMMARY: Taking a circuit apart: clusters, their graph, merges and classes of nodes.
import CircuitEquiv.Clustering
import CircuitEquiv.Dag.Merge
import CircuitEquiv.Dag.Quotient
import CircuitEquiv.NodeClasses

/-!
# Decomposing circuits
-/

namespace CircuitEquiv

/-- The options of a decomposition. -/
structure DecompositionOptions where
  strategy : ClusteringStrategy := .nonlinearAttract
  modularity : ModularityOptions := {}
  merges : MergeOptions := {}
  classes : ClassOptions := {}

/-- A stage of a decomposition. -/
inductive Stage where
  | clustering
  | dag
  | merge
  | equivalence
deriving DecidableEq

namespace Stage

/-- All stages in their order. -/
def all : List Stage := [clustering, dag, merge, equivalence]

/-- The name of a stage. -/
def name : Stage → String
  | clustering => "clustering"
  | dag => "dag"
  | merge => "merge"
  | equivalence => "equivalence"

/-- The place of a stage in the order. -/
def rank (s : Stage) : Nat := all.idxOf s

theorem rank_injective (s t : Stage) (h : s.rank = t.rank) : s = t := by
  cases s <;> cases t <;> first | rfl | exact absurd h (by decide)

instance : Ord Stage := ⟨fun s t => compare s.rank t.rank⟩

instance : Std.TransOrd Stage := transOrd_of_key rank fun _ _ => rfl

instance : Std.LawfulEqOrd Stage := lawfulEqOrd_of_key rank (fun _ _ => rfl) rank_injective

end Stage

/-- A circuit taken apart. -/
structure Decomposition where
  dag : Dag
  classes : NodeClasses
  timings : Timings Stage
  /-- The seed of modularity optimisation. -/
  seed : UInt64

namespace Decomposition

/-- Takes a circuit apart, recording the time of every stage. -/
def stages (solve : Solver) (circuit : Circuit) (options : DecompositionOptions) :
    Timed Stage (Dag × Except StructureError NodeClasses) := do
  let partition ← timed .clustering fun _ =>
    return options.strategy.partition circuit options.modularity
  let d ← timed .dag fun _ => return Dag.ofPartition circuit partition
  let d ← timed .merge fun _ => return (d.runMerges options.merges).2
  let classes ← timed .equivalence fun _ => (NodeClasses.ofDag solve d options.classes).run
  return (d, classes)

/-- Takes a circuit apart. -/
def ofCircuit (solve : Solver) (circuit : Circuit) (options : DecompositionOptions) :
    DagAttempt Decomposition := do
  let ((dag, result), timings) ← (stages solve circuit options).run SortedMap.empty
  match result with
  | .ok classes => return ⟨dag, classes, timings, options.modularity.seed⟩
  | .error e => throw e

end Decomposition

end CircuitEquiv
