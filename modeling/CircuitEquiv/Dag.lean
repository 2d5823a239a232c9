-- SUMMARY: The directed acyclic graph of the constraint clusters of a circuit, its merges and its checks.
import CircuitEquiv.Clustering.Graph
import CircuitEquiv.Dag.Error
import CircuitEquiv.Dag.SubCircuit

/-!
# Graphs of clusters

A node is a group of constraints with the signals it exchanges with its neighbours. Nodes that share
a signal are joined by one edge, which leads away from the inputs of the circuit. Merging two nodes
retires both and adds a new one, so a number always means the same node.
-/

namespace CircuitEquiv

/-- A group of constraints. -/
structure DagNode where
  /-- The constraints, ascending. -/
  constraints : List Nat
  /-- The signals that occur in the constraints. -/
  signals : SortedSet Signal
  /-- The signals shared with predecessors, and the declared inputs of the circuit. -/
  inputs : SortedSet Signal
  /-- The signals shared with successors, and the declared outputs of the circuit. -/
  outputs : SortedSet Signal
deriving Inhabited

/-- The signals that are both inputs and outputs of a node. -/
def DagNode.passthrough (n : DagNode) : SortedSet Signal := n.inputs.inter n.outputs

/-- The clusters of a circuit with directed edges. -/
structure Dag where
  circuit : Circuit
  /-- All nodes by number, retired ones too. -/
  nodes : Array DagNode
  live : SortedSet NodeId
  /-- The edges between live nodes. -/
  edges : SortedSet (NodeId × NodeId)

namespace Dag

-- ---------------------------------------------------------------------------
-- Queries
-- ---------------------------------------------------------------------------

variable (d : Dag)

/-- The number of live nodes. -/
def size : Nat := d.live.size

/-- A node, live or retired. -/
def node (id : NodeId) : DagNode := d.nodes[id]?.getD default

/-- Whether a node is live. -/
def isLive (id : NodeId) : Bool := id ∈ d.live

/-- The nodes from which an edge leads to a node, ascending. -/
def predecessors (id : NodeId) : List NodeId :=
  (d.edges.toList.filter (·.2 = id)).map (·.1)

/-- The nodes to which an edge leads from a node, ascending. -/
def successors (id : NodeId) : List NodeId :=
  (d.edges.toList.filter (·.1 = id)).map (·.2)

/-- Whether an edge leads from one node to another. -/
def hasEdge (source target : NodeId) : Bool := (source, target) ∈ d.edges

/-- Whether every constraint of a node is nonlinear. -/
def isOnlyNonlinear (id : NodeId) : Bool :=
  (d.node id).constraints.all fun k => (d.circuit.constraints[k]?.getD default).isNonlinear

/-- The number of signals that two nodes share. -/
def nShared (a b : NodeId) : Nat := ((d.node a).signals.inter (d.node b).signals).size

/-- A node as a circuit of its own. -/
def subCircuit (id : NodeId) : Except CircuitError SubCircuit :=
  let n := d.node id
  SubCircuit.extract d.circuit n.constraints n.inputs n.outputs

-- ---------------------------------------------------------------------------
-- Boundaries
-- ---------------------------------------------------------------------------

/-- The signals that a node shares with other nodes. -/
def sharedWith (n : DagNode) (others : List NodeId) : SortedSet Signal :=
  n.signals.filter fun s => others.any fun id => s ∈ (d.node id).signals

/-- Works out the inputs and outputs of a node. -/
def refreshBoundaries (id : NodeId) : Dag :=
  let n := d.node id
  { d with nodes := d.nodes.setIfInBounds id { n with
      inputs := (d.sharedWith n (d.predecessors id)).union (n.signals.inter d.circuit.inputs)
      outputs := (d.sharedWith n (d.successors id)).union (n.signals.inter d.circuit.outputs) } }

-- ---------------------------------------------------------------------------
-- Merging
-- ---------------------------------------------------------------------------

/-- Whether a node can be reached from another one. -/
def reaches (source target : NodeId) : Bool :=
  (Reach.reachable d.successors (d.size + 1) source).contains target

/-- Whether a node can be reached from another one through a third. -/
def hasDetour (source target : NodeId) : Bool :=
  ((d.successors source).filter (· ≠ target)).any fun next => d.reaches next target

/-- Whether putting two nodes into one would close a cycle. -/
def wouldCreateCycle (a b : NodeId) : Bool := d.hasDetour a b || d.hasDetour b a

/-- Puts two different live nodes into a new one and returns its number. -/
def mergeNodes (a b : NodeId) : NodeId × Dag :=
  let id := d.nodes.size
  let others (ids : List NodeId) : List NodeId := ids.filter fun x => x ≠ a ∧ x ≠ b
  let predecessors := others (d.predecessors a ++ d.predecessors b)
  let successors := others (d.successors a ++ d.successors b)
  let merged : DagNode := {
    constraints := ascending ((d.node a).constraints ++ (d.node b).constraints)
    signals := (d.node a).signals.union (d.node b).signals
    inputs := SortedSet.empty
    outputs := SortedSet.empty }
  let kept := d.edges.filter fun (x, y) => x ≠ a ∧ x ≠ b ∧ y ≠ a ∧ y ≠ b
  let d : Dag := { d with
    nodes := d.nodes.push merged
    live := ((d.live.erase a).erase b).insert id
    edges := kept.insertAll (predecessors.map (·, id) ++ successors.map (id, ·)) }
  (id, (id :: predecessors ++ successors).foldl refreshBoundaries d)

/-- Merges two live nodes and returns the number of the result. Merging a node with itself changes
nothing. -/
def merge (a b : NodeId) : Except StructureError (NodeId × Dag) :=
  if !d.isLive a then .error (.deadNode a)
  else if !d.isLive b then .error (.deadNode b)
  else if a = b then .ok (a, d)
  else if d.wouldCreateCycle a b then .error (.mergeCreatesCycle a b)
  else .ok (d.mergeNodes a b)

-- ---------------------------------------------------------------------------
-- Checks
-- ---------------------------------------------------------------------------

/-- Takes nodes without predecessors among the rest, least first, until none is left; the order and
the nodes that remain because they lie on a cycle or behind one. -/
def sortFrom : Nat → List NodeId → List NodeId × List NodeId
  | 0, rest => ([], rest)
  | fuel + 1, rest =>
    match rest.find? fun id => (d.predecessors id).all fun p => !rest.contains p with
    | none => ([], rest)
    | some id =>
      let (order, remaining) := sortFrom fuel (rest.erase id)
      (id :: order, remaining)

/-- The live nodes in an order in which every edge leads forward. -/
def topologicalOrder : Except StructureError (List NodeId) :=
  match sortFrom d d.size d.live.toList with
  | (order, []) => .ok order
  | (_, id :: _) => .error (.cyclic id)

/-- Whether an order lists the live nodes once each and every edge leads forward. -/
def isTopological (order : List NodeId) : Bool :=
  ascending order = d.live.toList ∧ d.edges.toList.all fun (x, y) => order.idxOf x < order.idxOf y

/-- Checks that a signal shared by two nodes leaves the one and enters the other along an edge. -/
def checkPassed (signal : Signal) (u v : NodeId) : Except StructureError Unit :=
  let (source, target) := if d.hasEdge u v then (u, v) else (v, u)
  if d.hasEdge source target ∧ signal ∈ (d.node source).outputs ∧ signal ∈ (d.node target).inputs then
    .ok ()
  else .error (.boundary signal source target)

/-- Checks that there is no cycle and that every shared signal is passed along an edge. -/
def validate : Except StructureError Unit := do
  let _ ← d.topologicalOrder
  let holders := SortedMap.groupValues (d.live.toList.flatMap fun id =>
    (d.node id).signals.toList.map fun s => (s, id))
  holders.entries.forM fun (signal, ids) =>
    (pairsOf ids).forM fun (u, v) => d.checkPassed signal u v

end Dag

end CircuitEquiv
