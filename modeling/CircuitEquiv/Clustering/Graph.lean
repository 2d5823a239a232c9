-- SUMMARY: The graph of constraints that share signals.
import CircuitEquiv.Circuit
import CircuitEquiv.Data.Reach
import CircuitEquiv.Data.Total

/-!
# Constraint graphs

The vertices are the constraints of a circuit. Two of them are adjacent when they share a signal
other than the constant one, and the edge weighs as much as they share signals.
-/

namespace CircuitEquiv

/-- An undirected graph: the neighbours of every vertex with the weights of the edges. -/
structure ConstraintGraph where
  neighbours : Array (SortedMap Nat Nat)

/-- The pairs of elements of a list, in order. -/
def pairsOf {α : Type} : List α → List (α × α)
  | [] => []
  | a :: rest => rest.map (fun b => (a, b)) ++ pairsOf rest

namespace ConstraintGraph

/-- Adds one to the weight of the edge from `a` to `b`. -/
def addWeight (table : Array (SortedMap Nat Nat)) (a b : Nat) : Array (SortedMap Nat Nat) :=
  table.modify a fun m => m.upsert b fun old => old.getD 0 + 1

/-- The graph of the constraints that satisfy `keep`; the others have no neighbours. -/
def restricted (circuit : Circuit) (keep : Nat → Bool) : ConstraintGraph :=
  let edges := circuit.occurrences.toList.flatMap fun users => pairsOf (users.filter keep)
  ⟨edges.foldl (fun table (a, b) => addWeight (addWeight table a b) b a)
    (Array.replicate circuit.nConstraints SortedMap.empty)⟩

/-- The graph of all constraints. -/
def ofCircuit (circuit : Circuit) : ConstraintGraph := restricted circuit fun _ => true

variable (g : ConstraintGraph)

/-- The number of vertices. -/
def size : Nat := g.neighbours.size

/-- The neighbours of a vertex with the weights of the edges, ascending. -/
def edges (v : Nat) : SortedMap Nat Nat := g.neighbours[v]?.getD SortedMap.empty

/-- The sum of the weights of the edges of a vertex. -/
def degree (v : Nat) : Nat := total (g.edges v).values

/-- The sum of the weights of all edges. -/
def totalWeight : Nat := total ((List.range g.size).map g.degree) / 2

/-- The connected components of the vertices that satisfy `keep`, each ascending, in the order of
their first vertices. -/
def components (keep : Nat → Bool) : List (List Nat) :=
  Reach.components (fun v => (g.edges v).keys.filter keep) ((List.range g.size).filter keep)

end ConstraintGraph

end CircuitEquiv
