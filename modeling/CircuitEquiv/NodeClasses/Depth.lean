-- SUMMARY: How far the equivalence of nodes is established, and the classes that result.
import CircuitEquiv.Dag.Error
import CircuitEquiv.Equivalence.Policy

/-!
# Classes of nodes
-/

namespace CircuitEquiv

/-- How far the equivalence of nodes is established. -/
inductive EquivalenceDepth where
  /-- No classes. -/
  | off
  /-- Groups of nodes that look alike, unchecked. -/
  | naive
  /-- Groups split by pairwise comparison. -/
  | pairwise
  /-- The same, and label propagation over the graph from the groups of nodes that look alike. -/
  | structural
  /-- The same, and label propagation over the graph from the compared classes. -/
  | total
deriving DecidableEq, Inhabited

namespace EquivalenceDepth

/-- All depths, in the order in which they are listed. -/
def all : List EquivalenceDepth := [off, naive, pairwise, structural, total]

/-- The name of a depth. -/
def name : EquivalenceDepth → String
  | off => "none"
  | naive => "naive"
  | pairwise => "local"
  | structural => "structural"
  | total => "total"

/-- The depth of a name. -/
def ofName? (s : String) : Option EquivalenceDepth := all.find? (·.name = s)

/-- The message for a text that names no depth. -/
def unknownMessage (s : String) : String := s!"unknown equivalence depth {quotedText s}"

end EquivalenceDepth

/-- The options of classification. -/
structure ClassOptions where
  depth : EquivalenceDepth := .pairwise
  /-- The options of every comparison; its time budget is for one pair. -/
  equivalence : EquivalenceOptions := {}
  /-- Nodes with fewer constraints are in classes of their own. -/
  minimumSize : Nat := 1
  /-- Whether mappings are given in the numbering of the whole circuit. -/
  undoMapping : Bool := true
  /-- The options of the search for large common parts between classes, if it is made. -/
  maximal : Option MaximalOptions := none
  /-- Whether classes with a large common part become one. -/
  maximalMerge : Bool := false

/-- A class of nodes, with mappings from the representative to the others where they were
compared. -/
structure NodeClass where
  representative : NodeId
  others : List (NodeId × Option Mapping)

namespace NodeClass

/-- The class of one node. -/
def single (id : NodeId) : NodeClass := ⟨id, []⟩

/-- The nodes of a class, the representative first. -/
def members (c : NodeClass) : List NodeId := c.representative :: c.others.map (·.1)

/-- Classes in the order of their representatives. -/
def sorted (classes : List NodeClass) : List NodeClass :=
  classes.mergeSort fun c d => c.representative ≤ d.representative

end NodeClass

/-- A large common part of the representatives of two classes. -/
structure NearMatch where
  left : NodeId
  right : NodeId
  matched : Nat
  total : Nat
  mapping : Mapping

/-- A comparison of two nodes that ran out of time in the given phase. -/
structure LateComparison where
  left : NodeId
  right : NodeId
  phase : Phase

/-- The classes of the nodes of a graph. -/
structure NodeClasses where
  localClasses : List NodeClass
  structuralClasses : List NodeClass
  nearMatches : List NearMatch
  /-- The comparisons that ran out of time; each counts as finding no equivalence. -/
  late : List LateComparison

end CircuitEquiv
