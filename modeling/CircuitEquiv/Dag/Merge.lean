-- SUMMARY: Passes that merge selected nodes of a cluster graph into their best neighbours.
import CircuitEquiv.Dag

/-!
# Merge passes

A pass takes the first node that is selected and merges it into the neighbour with the best score;
of equal scores a successor comes before a predecessor, then the lower number. Neighbours without a
score, and those with which a cycle would close, are passed over. A node that finds none is fenced
off and not taken again.
-/

namespace CircuitEquiv

/-- A score for merging a node into a neighbour; none rules the neighbour out. -/
abbrev MergeScore := Dag → NodeId → NodeId → Option Nat

/-- The passes that are run. -/
structure MergeOptions where
  /-- Merge nodes that pass a signal straight on. -/
  passthrough : Bool := true
  /-- Merge nodes of nonlinear constraints only into a neighbour that has others. -/
  onlyNonlinear : Bool := false
  /-- Absorb nodes of a single linear constraint. -/
  singleLinear : Bool := false

namespace Dag

/-- A neighbour that a node could be merged into. -/
structure MergeCandidate where
  score : Nat
  isSuccessor : Bool
  id : NodeId

/-- Whether a candidate comes before another one. -/
def MergeCandidate.precedes (x y : MergeCandidate) : Bool :=
  if x.score ≠ y.score then y.score < x.score
  else if x.isSuccessor ≠ y.isSuccessor then x.isSuccessor
  else x.id ≤ y.id

/-- The neighbours of a node that have a score, best first. -/
def mergeCandidates (childScore parentScore : MergeScore) (d : Dag) (id : NodeId) :
    List MergeCandidate :=
  let children := (d.successors id).filterMap fun c => (childScore d id c).map (⟨·, true, c⟩)
  let parents := (d.predecessors id).filterMap fun p => (parentScore d id p).map (⟨·, false, p⟩)
  (children ++ parents).mergeSort MergeCandidate.precedes

/-- The neighbour that a node is merged into. -/
def bestNeighbour? (childScore parentScore : MergeScore) (d : Dag) (id : NodeId) : Option NodeId :=
  ((mergeCandidates childScore parentScore d id).find? fun c => !d.wouldCreateCycle id c.id).map (·.id)

/-- Runs a pass with the given fenced nodes; the number of merges and the graph afterwards. -/
def mergePass (select : Dag → NodeId → Bool) (childScore parentScore : MergeScore) :
    Nat → SortedSet NodeId → Dag → Nat × Dag
  | 0, _, d => (0, d)
  | fuel + 1, fenced, d =>
    match d.live.toList.find? fun id => id ∉ fenced ∧ select d id with
    | none => (0, d)
    | some id =>
      match (bestNeighbour? childScore parentScore d id).map (d.merge id) with
      | some (.ok (_, next)) =>
        let (n, last) := mergePass select childScore parentScore fuel fenced next
        (n + 1, last)
      | _ => mergePass select childScore parentScore fuel (fenced.insert id) d

/-- Merges every selected node into its best neighbour. A step merges or fences off a node, and a
merge uses up at most one fence. -/
def mergeUnderProperty (select : Dag → NodeId → Bool) (childScore parentScore : MergeScore)
    (d : Dag) : Nat × Dag :=
  mergePass select childScore parentScore (2 * d.size + 1) SortedSet.empty d

-- ---------------------------------------------------------------------------
-- Passes
-- ---------------------------------------------------------------------------

/-- The number of signals that a node passes straight on and a neighbour holds, if there are any. -/
def passedScore : MergeScore := fun d id other =>
  let n := ((d.node id).passthrough.inter (d.node other).signals).size
  if 0 < n then some n else none

/-- The number of shared signals with a neighbour that has linear constraints. -/
def mixedScore : MergeScore := fun d id other =>
  if d.isOnlyNonlinear other then none else some (d.nShared id other)

/-- The number of shared signals. -/
def sharedScore : MergeScore := fun d id other => some (d.nShared id other)

/-- Whether a node is a single linear constraint. -/
def isSingleLinear (d : Dag) (id : NodeId) : Bool :=
  match (d.node id).constraints with
  | [k] => !(d.circuit.constraints[k]?.getD default).isNonlinear
  | _ => false

/-- Merges nodes that pass signals straight on. -/
def mergePassthrough (d : Dag) : Nat × Dag :=
  d.mergeUnderProperty (fun d id => !(d.node id).passthrough.isEmpty) passedScore passedScore

/-- Merges nodes of nonlinear constraints only. -/
def mergeOnlyNonlinear (d : Dag) : Nat × Dag :=
  d.mergeUnderProperty isOnlyNonlinear mixedScore mixedScore

/-- Absorbs nodes of a single linear constraint. -/
def mergeSingleLinear (d : Dag) : Nat × Dag :=
  d.mergeUnderProperty isSingleLinear sharedScore sharedScore

/-- Runs a pass if it is enabled, adding up the merges. -/
def thenPass (enabled : Bool) (pass : Dag → Nat × Dag) (s : Nat × Dag) : Nat × Dag :=
  if enabled then
    let (n, d) := pass s.2
    (s.1 + n, d)
  else s

/-- Runs the enabled passes one after the other. -/
def runMerges (options : MergeOptions) (d : Dag) : Nat × Dag :=
  thenPass options.singleLinear mergeSingleLinear
    (thenPass options.onlyNonlinear mergeOnlyNonlinear
      (thenPass options.passthrough mergePassthrough (0, d)))

end Dag

end CircuitEquiv
