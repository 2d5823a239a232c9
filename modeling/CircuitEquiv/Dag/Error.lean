-- SUMMARY: The ways in which partitions, graphs of nodes and their comparison fail.
import CircuitEquiv.Equivalence.Error

/-!
# Errors of node graphs
-/

namespace CircuitEquiv

/-- The number of a node; numbers are never used again. -/
abbrev NodeId := Nat

/-- The text of a node number. -/
def nodeText (id : NodeId) : String := s!"node{id}"

/-- Why a partition, a merge or a comparison of nodes is refused. -/
inductive StructureError where
  /-- A constraint is not in exactly one part. -/
  | notAPartition (constraint count : Nat)
  | deadNode (id : NodeId)
  | mergeCreatesCycle (a b : NodeId)
  | cyclic (id : NodeId)
  /-- A shared signal is not passed along an edge. -/
  | boundary (signal : Signal) (source target : NodeId)
  | circuit (e : CircuitError)
  | equivalence (e : EquivalenceError)

/-- The message of an error. -/
def StructureError.message : StructureError → String
  | .notAPartition constraint count => s!"constraint {constraint} is assigned to {count} parts"
  | .deadNode id => s!"{nodeText id} is not a live node"
  | .mergeCreatesCycle a b => s!"merging {nodeText a} and {nodeText b} would create a cycle"
  | .cyclic id => s!"the node graph has a cycle through {nodeText id}"
  | .boundary signal source target =>
    s!"signal {signal} is shared by {nodeText source} and {nodeText target} but not passed along the edge"
  | .circuit e => s!"sub-circuit extraction failed: {e.message}"
  | .equivalence e => s!"equivalence check failed: {e.message}"

end CircuitEquiv
