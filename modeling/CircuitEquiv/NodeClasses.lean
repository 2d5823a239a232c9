-- SUMMARY: Classes of equivalent nodes of a cluster graph, by their contents and by their surroundings.
import CircuitEquiv.Dag
import CircuitEquiv.Equivalence
import CircuitEquiv.NodeClasses.Folding
import CircuitEquiv.Propagation

/-!
# Classifying nodes

Nodes look alike when their sub-circuits have the same sizes and refine in the same way. Groups of
nodes that look alike are split by comparing every node with the representatives so far. Structural
classes start from labels that are stable under label propagation over the graph and are split in
the same way.
-/

namespace CircuitEquiv

/-- Attempts on the nodes of a graph. -/
abbrev DagAttempt := Attempt StructureError

/-- Attempts that note the comparisons that run out of time. -/
abbrev NotingAttempt := StateT (List LateComparison) DagAttempt

/-- What nodes that look alike agree on; the trace of the refinement may be digested. -/
inductive LocalKey (τ : Type) where
  /-- The node is too small to be grouped. -/
  | small (id : NodeId)
  | look (nSignals nConstraints nInputs nOutputs : Nat) (trace : τ)
deriving DecidableEq

/-- The sizes by which keys are ordered; small nodes come first. -/
def LocalKey.sizes {τ : Type} : LocalKey τ → List Nat
  | .small _ => []
  | .look nSignals nConstraints nInputs nOutputs _ => [nSignals, nConstraints, nInputs, nOutputs]

namespace NodeClasses

-- ---------------------------------------------------------------------------
-- Groups of nodes that look alike
-- ---------------------------------------------------------------------------

/-- A node as a circuit of its own. -/
def subCircuit (d : Dag) (id : NodeId) : Except StructureError SubCircuit :=
  (d.subCircuit id).mapError .circuit

section Keys

variable {τ : Type} [DecidableEq τ] (digest : List TraceEntry → τ)

/-- What nodes that look like the given one agree on. -/
def localKey (d : Dag) (minimumSize : Nat) (id : NodeId) : Except StructureError (LocalKey τ) :=
  if (d.node id).constraints.length < minimumSize then .ok (.small id)
  else do
    let c := (← subCircuit d id).circuit
    return .look c.nSignals c.nConstraints c.inputs.size c.outputs.size
      (digest (Refinement.single c c.normalize).trace)

/-- The place of each key among the different keys, ordered by sizes and, where these agree, by their
first members. -/
def ranks (keys : List (LocalKey τ)) : List Nat :=
  let order := keys.eraseDups.mergeSort fun k l => (compare k.sizes l.sizes).isLE
  keys.map fun k => order.idxOf k

/-- The live nodes with the ranks of their keys; nodes that look alike have the same rank. -/
def lookRanks (d : Dag) (minimumSize : Nat) : Except StructureError (List (NodeId × Nat)) := do
  let ids := d.live.toList
  let keys ← ids.mapM (localKey digest d minimumSize)
  return ids.zip (ranks keys)

end Keys

/-- The nodes of each rank, in the order of ranks. -/
def groupByRank (ranked : List (NodeId × Nat)) : List (List NodeId) :=
  (SortedMap.groupValues (ranked.map fun (id, rank) => (rank, id))).values

/-- The class of a group that is not checked. -/
def unchecked : List NodeId → Option NodeClass
  | [] => none
  | id :: rest => some ⟨id, rest.map fun other => (other, none)⟩

-- ---------------------------------------------------------------------------
-- Comparing nodes
-- ---------------------------------------------------------------------------

variable (solve : Solver) (d : Dag) (options : ClassOptions)

/-- The two sub-circuits of a pair of nodes, and how they compare. -/
def compareSubCircuits (left right : NodeId) : DagAttempt (SubCircuit × SubCircuit × Outcome) := do
  let l ← ExceptT.mk (pure (subCircuit d left))
  let r ← ExceptT.mk (pure (subCircuit d right))
  let comparison ←
    (Comparison.ofCircuits solve l.circuit r.circuit options.equivalence).adapt .equivalence
  return (l, r, comparison.outcome)

/-- The mapping between two nodes, if their sub-circuits are found equivalent. Where the time runs out
they are taken as not equivalent. -/
def compareNodes (left right : NodeId) : NotingAttempt (Option Mapping) := do
  let (l, r, outcome) ← compareSubCircuits solve d options left right
  match outcome with
  | .equivalent m => return some (if options.undoMapping then l.undoMapping r m else m)
  | .notEquivalent _ => return none
  | .timeout phase _ =>
    modify (· ++ [⟨left, right, phase⟩])
    return none

/-- Puts a node into the first class whose representative it is equivalent to, or into a new
class. -/
def place (compareTo : NodeId → NodeId → NotingAttempt (Option Mapping)) (id : NodeId) :
    List NodeClass → NotingAttempt (List NodeClass)
  | [] => return [.single id]
  | c :: rest => do
    match ← compareTo c.representative id with
    | some m => return { c with others := c.others ++ [(id, some m)] } :: rest
    | none => return c :: (← place compareTo id rest)

/-- Splits groups into classes by comparison. -/
def splitByComparison (groups : List (List NodeId)) : NotingAttempt (List NodeClass) := do
  let classes ← groups.mapM fun group =>
    group.foldlM (fun classes id => place (compareNodes solve d options) id classes) []
  return NodeClass.sorted classes.flatten

-- ---------------------------------------------------------------------------
-- Near matches
-- ---------------------------------------------------------------------------

/-- Whether the sizes of two nodes alone rule the tolerance out. -/
def isHopeless (tolerance : Float) (left right : NodeId) : Bool :=
  let l := (d.node left).constraints.length
  let r := (d.node right).constraints.length
  (min l r).toFloat < tolerance * (max l r).toFloat

/-- The large common part of two representatives, if there is one. -/
def nearMatch? (maximal : MaximalOptions) (left right : NodeId) :
    DagAttempt (Option NearMatch) := do
  if isHopeless d maximal.tolerance left right then return none
  let l ← ExceptT.mk (pure (subCircuit d left))
  let r ← ExceptT.mk (pure (subCircuit d right))
  match ← (maximalEquivalence solve l.circuit r.circuit maximal).run with
  | .ok found =>
    let mapping := if options.undoMapping then l.undoMapping r found.mapping else found.mapping
    return some ⟨left, right, found.matched, found.total, mapping⟩
  | .error (.notEquivalent _) => return none
  | .error (.timeout ..) => return none
  | .error e => throw (.equivalence e)

/-- The large common parts between the representatives of classes. -/
def findNearMatches (maximal : MaximalOptions) (classes : List NodeClass) :
    DagAttempt (List NearMatch) := do
  let found ← (pairsOf (classes.map (·.representative))).mapM fun (l, r) =>
    nearMatch? solve d options maximal l r
  return found.filterMap id

/-- The near matches, and the classes afterwards. -/
def withNearMatches (classes : List NodeClass) : DagAttempt (List NodeClass × List NearMatch) := do
  match options.maximal with
  | none => return (classes, [])
  | some maximal =>
    let near ← findNearMatches solve d options maximal classes
    return (if options.maximalMerge then Folding.fold classes near else classes, near)

-- ---------------------------------------------------------------------------
-- Surroundings
-- ---------------------------------------------------------------------------

/-- Groups of live nodes that label propagation over the graph cannot tell apart; `initial` is the
label that a node starts from. -/
def surroundings (initial : NodeId → Nat) : List (List NodeId) :=
  let ids := d.live.toList
  let places (neighbours : List NodeId) : List Nat := neighbours.map fun id => ids.idxOf id
  let labels := Propagation.stableLabels (ids.map initial)
    (ids.map fun id => places (d.successors id)).toArray
    (ids.map fun id => places (d.predecessors id)).toArray
  (Propagation.classes labels).map fun group => group.filterMap fun i => ids[i]?

/-- The groups that structural classes start from. -/
def structuralGroups (ranked : List (NodeId × Nat)) (classes : List NodeClass) :
    List (List NodeId) :=
  match options.depth with
  | .structural => surroundings d fun id => (SortedMap.ofList ranked).getD id 0
  | .total =>
    let classOf := SortedMap.ofList (classes.zipIdx.flatMap fun (c, i) => c.members.map (·, i))
    surroundings d fun id => classOf.getD id 0
  | _ => []

/-- The local classes, the structural classes and the near matches of nodes with the given ranks. -/
def classify (ranked : List (NodeId × Nat)) :
    NotingAttempt (List NodeClass × List NodeClass × List NearMatch) := do
  let classes ← splitByComparison solve d options (groupByRank ranked)
  let (classes, near) ← withNearMatches solve d options classes
  let structural ← splitByComparison solve d options (structuralGroups d options ranked classes)
  return (classes, structural, near)

/-- The classes of the nodes of a graph, as far as the depth asks. Nodes look alike where their sizes
and the digests of their traces agree. -/
def ofDagBy {τ : Type} [DecidableEq τ] (digest : List TraceEntry → τ) : DagAttempt NodeClasses := do
  if options.depth = .off then return ⟨[], [], [], []⟩
  let ranked ← ExceptT.mk (pure (lookRanks digest d options.minimumSize))
  if options.depth = .naive then
    return ⟨NodeClass.sorted ((groupByRank ranked).filterMap unchecked), [], [], []⟩
  let ((classes, structural, near), late) ← (classify solve d options ranked).run []
  return ⟨classes, structural, near, late⟩

/-- The classes of the nodes of a graph, as far as the depth asks. -/
def ofDag : DagAttempt NodeClasses := ofDagBy solve d options id

end NodeClasses

end CircuitEquiv
