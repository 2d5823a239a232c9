-- SUMMARY: Breadth-first distances and connected components of finite graphs.
import CircuitEquiv.Data.SortedMap

/-!
# Distances and components

A graph is given by the neighbours of each vertex. Distances are found layer by layer from a list of
sources; `n` layers reach everything in a graph of `n` vertices.
-/

namespace CircuitEquiv.Reach

/-- Extends distances layer by layer: the neighbours of the last layer that have no distance yet are
one step further than it. -/
def spread (next : Nat → List Nat) :
    Nat → Nat → List Nat → SortedMap Nat Nat → SortedMap Nat Nat
  | 0, _, _, found => found
  | fuel + 1, distance, layer, found =>
    let fresh := (SortedSet.ofList ((layer.flatMap next).filter (!found.contains ·))).toList
    if fresh.isEmpty then found
    else spread next fuel (distance + 1) fresh
      (fresh.foldl (fun found v => found.insert v (distance + 1)) found)

/-- The distances from the nearest source of the vertices that can be reached, for a graph of `n`
vertices. -/
def distances (next : Nat → List Nat) (n : Nat) (sources : List Nat) : SortedMap Nat Nat :=
  spread next n 0 sources (SortedMap.ofList (sources.map fun v => (v, 0)))

/-- The vertices that can be reached from `v`, ascending. -/
def reachable (next : Nat → List Nat) (n : Nat) (v : Nat) : List Nat := (distances next n [v]).keys

/-- The components of the listed vertices that meet none of the vertices seen so far. -/
def componentsFrom (next : Nat → List Nat) (n : Nat) (seen : SortedSet Nat) :
    List Nat → List (List Nat)
  | [] => []
  | v :: rest =>
    if v ∈ seen then componentsFrom next n seen rest
    else
      let component := reachable next n v
      component :: componentsFrom next n (seen.insertAll component) rest

/-- The connected components of an undirected graph on the listed vertices, each ascending, in the
order of their first vertices. `next` must not lead out of the list. -/
def components (next : Nat → List Nat) (vertices : List Nat) : List (List Nat) :=
  componentsFrom next vertices.length SortedSet.empty vertices

end CircuitEquiv.Reach
