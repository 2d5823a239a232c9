-- SUMMARY: The coarsest labelling of a directed graph that is stable under counting neighbour labels.
import CircuitEquiv.Refinement.Split

/-!
# Label propagation

The vertices of a directed graph start from given labels and are split by the labels of their
successors and of their predecessors until a round splits nothing.
-/

namespace CircuitEquiv.Propagation

/-- The key of a vertex in a round: the labels of its successors, then of its predecessors. -/
abbrev NeighbourKey := List ClassLabel × List ClassLabel

/-- The label of a vertex. -/
def label (labels : Array ClassLabel) (v : Nat) : ClassLabel := labels[v]?.getD default

/-- Gives every listed vertex the label of its list. -/
def relabel (labels : Array ClassLabel) (parts : List (ClassLabel × List Nat)) : Array ClassLabel :=
  parts.foldl (fun labels (label, vertices) =>
    vertices.foldl (fun labels v => labels.setIfInBounds v label) labels) labels

/-- Whether a class has one member. -/
def isSettled (vertices : List Nat) : Bool := vertices.length == 1

/-- Labels the classes of the initial labels by rank, and counts the settled ones. -/
def seedLabels : Nat → Nat → List (List Nat) → List (ClassLabel × List Nat) × Nat
  | _, nSingular, [] => ([], nSingular)
  | rank, nSingular, vertices :: rest =>
    if isSettled vertices then
      let (parts, last) := seedLabels (rank + 1) (nSingular + 1) rest
      ((.singular nSingular, vertices) :: parts, last)
    else
      let (parts, last) := seedLabels (rank + 1) nSingular rest
      ((.initial rank, vertices) :: parts, last)

/-- The labels of neighbours, ascending. -/
def neighbourLabels (labels : Array ClassLabel) (neighbours : Array (List Nat)) (v : Nat) :
    List ClassLabel :=
  ascending ((neighbours[v]?.getD []).map (label labels))

/-- Runs rounds, starting with the given one, until one splits nothing. -/
def run (successors predecessors : Array (List Nat)) :
    Nat → Nat → Nat → Array ClassLabel → Array ClassLabel
  | 0, _, _, labels => labels
  | fuel + 1, round, nSingular, labels =>
    let key (v : Nat) : NeighbourKey :=
      (neighbourLabels labels successors v, neighbourLabels labels predecessors v)
    let vertices := (List.range labels.size).filter fun v => !(label labels v).isSingular
    let (parts, nSingular) :=
      splitGroups round isSettled nSingular (groupItems (label labels) key vertices)
    if parts.isEmpty then labels
    else run successors predecessors fuel (round + 1) nSingular (relabel labels parts)

/-- The stable labels of the vertices. -/
def stableLabels {α : Type} [Ord α] [Std.TransOrd α] (initial : List α)
    (successors predecessors : Array (List Nat)) : Array ClassLabel :=
  let classes := (SortedMap.groupValues initial.zipIdx).values
  let (parts, nSingular) := seedLabels 0 0 classes
  let labels := relabel (Array.replicate initial.length (.initial 0)) parts
  run successors predecessors (initial.length + 1) 1 nSingular labels

/-- The classes of the vertices, in label order. -/
def classes (labels : Array ClassLabel) : List (List Nat) :=
  (SortedMap.groupValues labels.toList.zipIdx).values

end CircuitEquiv.Propagation
