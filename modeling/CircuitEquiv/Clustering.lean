-- SUMMARY: The strategies for partitioning the constraints of a circuit.
import CircuitEquiv.Clustering.Attraction
import CircuitEquiv.Clustering.Modularity
import CircuitEquiv.Clustering.SignalEquivalence
import CircuitEquiv.Text.Quoted

/-!
# Clustering strategies
-/

namespace CircuitEquiv

/-- How constraints are grouped. -/
inductive ClusteringStrategy where
  /-- Nonlinear constraints attract the others. -/
  | nonlinearAttract
  /-- Components without `x - y = 0`. -/
  | signalEquivalence
  /-- Components without `x - y = d`. -/
  | relaxedSignalEquivalence
  /-- One pass of modularity optimisation. -/
  | louvain
  /-- Repeated passes of modularity optimisation. -/
  | iteratedLouvain
deriving DecidableEq, Inhabited

namespace ClusteringStrategy

/-- All strategies, in the order in which they are listed. -/
def all : List ClusteringStrategy :=
  [nonlinearAttract, signalEquivalence, relaxedSignalEquivalence, louvain, iteratedLouvain]

/-- The name of a strategy. -/
def name : ClusteringStrategy → String
  | nonlinearAttract => "nonlinear_attract"
  | signalEquivalence => "signal_equivalence"
  | relaxedSignalEquivalence => "relaxed_signal_equivalence"
  | louvain => "louvain"
  | iteratedLouvain => "iterated_louvain"

/-- The strategy of a name. -/
def ofName? (s : String) : Option ClusteringStrategy := all.find? (·.name = s)

/-- The message for a text that names no strategy. -/
def unknownMessage (s : String) : String := s!"unknown clustering strategy {quotedText s}"

end ClusteringStrategy

/-- The options of modularity optimisation. -/
structure ModularityOptions where
  /-- The resolution; without one, the square root of the number of constraints. -/
  resolution : Option Float := none
  iterations : Nat := 2
  seed : UInt64 := 0

/-- The communities of a circuit. -/
def modularityPartition (circuit : Circuit) (options : ModularityOptions) : Partition :=
  let g := ConstraintGraph.ofCircuit circuit
  let resolution := options.resolution.getD g.size.toFloat.sqrt
  Modularity.communities (Modularity.floatGain resolution) (Modularity.seededOrders options.seed) g
    options.iterations

/-- The partition of a circuit under a strategy. -/
def ClusteringStrategy.partition (strategy : ClusteringStrategy) (circuit : Circuit)
    (options : ModularityOptions) : Partition :=
  match strategy with
  | nonlinearAttract => Attraction.partition circuit
  | signalEquivalence => withoutEquivalences circuit false
  | relaxedSignalEquivalence => withoutEquivalences circuit true
  | louvain => modularityPartition circuit { options with iterations := 1 }
  | iteratedLouvain => modularityPartition circuit options

end CircuitEquiv
