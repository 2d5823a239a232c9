-- SUMMARY: Turning a partition into a directed acyclic graph by the distances of its parts from inputs and outputs.
import CircuitEquiv.Clustering.Partition
import CircuitEquiv.Dag

/-!
# From partitions to graphs

Parts are adjacent when they share a signal. Every part has a distance from the inputs and one from
the outputs of the circuit, counted in parts. Adjacent parts that agree in both are merged until
none do. The edges then lead from the part nearer to the inputs, or, between parts equally near,
from the part farther from the outputs.
-/

namespace CircuitEquiv

/-- A distance; none is infinite. -/
abbrev Distance := Option Nat

/-- The key that orders distances, infinity last. -/
def Distance.key : Distance → Nat × Nat
  | some n => (0, n)
  | none => (1, 0)

/-- The parts of a partition with their signals and adjacencies. -/
structure Quotient where
  parts : List (List Nat)
  signals : Array (SortedSet Signal)
  /-- Pairs of adjacent parts, the lesser first. -/
  adjacent : SortedSet (Nat × Nat)
  /-- The distances of the parts from the inputs and from the outputs. -/
  distances : Array (Distance × Distance)

namespace Quotient

/-- The signals of a part. -/
def partSignals (circuit : Circuit) (part : List Nat) : SortedSet Signal :=
  SortedSet.ofList (part.flatMap fun k => (circuit.constraints[k]?.getD default).signals.toList)

/-- The parts adjacent to a part. -/
def neighbours (adjacent : SortedSet (Nat × Nat)) (p : Nat) : List Nat :=
  adjacent.toList.filterMap fun (x, y) =>
    if x = p then some y else if y = p then some x else none

/-- The distances of the parts that can be reached from the parts that hold one of the targets. -/
def distancesFrom (signals : Array (SortedSet Signal)) (adjacent : SortedSet (Nat × Nat))
    (targets : SortedSet Signal) : SortedMap Nat Nat :=
  let sources := (List.range signals.size).filter fun p =>
    !((signals[p]?.getD SortedSet.empty).inter targets).isEmpty
  Reach.distances (neighbours adjacent) signals.size sources

/-- The quotient of a circuit by parts. -/
def ofParts (circuit : Circuit) (parts : List (List Nat)) : Quotient :=
  let signals := (parts.map (partSignals circuit)).toArray
  let sharing (pq : Nat × Nat) : Bool :=
    !((signals[pq.1]?.getD SortedSet.empty).inter (signals[pq.2]?.getD SortedSet.empty)).isEmpty
  let adjacent := SortedSet.ofList ((pairsOf (List.range parts.length)).filter sharing)
  let fromInputs := distancesFrom signals adjacent circuit.inputs
  let fromOutputs := distancesFrom signals adjacent circuit.outputs
  { parts, signals, adjacent
    distances := Array.ofFn fun p : Fin parts.length => (fromInputs.get? p, fromOutputs.get? p) }

variable (q : Quotient)

/-- The distances of a part. -/
def distancesOf (p : Nat) : Distance × Distance := q.distances[p]?.getD (none, none)

/-- The adjacent parts that agree in both distances. -/
def equalNeighbours (p : Nat) : List Nat :=
  (neighbours q.adjacent p).filter fun r => q.distancesOf r = q.distancesOf p

/-- The parts after merging adjacent ones of equal distances, in the order of their first
members. -/
def mergedParts : List (List Nat) :=
  (Reach.components q.equalNeighbours (List.range q.parts.length)).map fun group =>
    ascending (group.flatMap fun p => q.parts[p]?.getD [])

/-- Merges parts until adjacent ones differ in their distances. -/
def settle (circuit : Circuit) : Nat → List (List Nat) → Quotient
  | 0, parts => ofParts circuit parts
  | fuel + 1, parts =>
    let q := ofParts circuit parts
    let merged := q.mergedParts
    if merged.length = parts.length then q else settle circuit fuel merged

/-- The key that orders parts along the edges. -/
def orderKey (p : Nat) : (Nat × Nat) × (Nat × Nat) :=
  (Distance.key (q.distancesOf p).1, Distance.key (q.distancesOf p).2)

/-- Whether an edge between two parts leads from `p` to `r`. -/
def leadsTo (p r : Nat) : Bool :=
  match compare (q.orderKey p).1 (q.orderKey r).1 with
  | .lt => true
  | .gt => false
  | .eq => (compare (q.orderKey p).2 (q.orderKey r).2).isGE

/-- The graph of the parts. -/
def toDag (circuit : Circuit) : Dag :=
  let nodes := (q.parts.zip q.signals.toList).map fun (part, signals) =>
    (⟨part, signals, SortedSet.empty, SortedSet.empty⟩ : DagNode)
  let edges := q.adjacent.image fun (p, r) => if q.leadsTo p r then (p, r) else (r, p)
  let ids := List.range nodes.length
  ids.foldl Dag.refreshBoundaries ⟨circuit, nodes.toArray, SortedSet.ofList ids, edges⟩

end Quotient

/-- The graph of a partition. -/
def Dag.ofPartition (circuit : Circuit) (partition : Partition) : Dag :=
  let parts := partition.parts
  (Quotient.settle circuit parts.length parts).toDag circuit

end CircuitEquiv
