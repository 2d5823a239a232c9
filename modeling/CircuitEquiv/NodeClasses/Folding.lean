-- SUMMARY: Joining classes whose representatives have a large common part.
import CircuitEquiv.Data.UnionFind
import CircuitEquiv.NodeClasses.Depth

/-!
# Folding near matches

Classes connected by near matches become one class, led by the least representative. A match between
classes that are connected already is not used, so the matches that are used form a forest, and every
member is mapped along the one path from the leader.
-/

namespace CircuitEquiv.Folding

/-- The mappings of the matches that are used, by the representatives they join. -/
abbrev Links := SortedMap (NodeId × NodeId) Mapping

/-- Joins the sets of matched representatives and keeps the matches that join different sets. -/
def link (near : List NearMatch) (start : UnionFind NodeId) : UnionFind NodeId × Links :=
  near.foldl
    (fun (u, links) m =>
      let (same, u) := u.same m.left m.right
      if same then (u, links)
      else ((u.union m.left m.right).2, links.insert (m.left, m.right) m.mapping))
    (start, SortedMap.empty)

/-- The representative at the other end of a link, with the mapping that leads there. -/
def step? (id : NodeId) (link : (NodeId × NodeId) × Mapping) : Option (NodeId × Mapping) :=
  if link.1.1 = id then some (link.1.2, link.2)
  else if link.1.2 = id then some (link.1.1, link.2.inverse)
  else none

/-- Visits the representatives on the stack, the last one put there first. `found` holds the mappings
from the leader. -/
def explore (links : Links) (lead : NodeId) :
    Nat → List NodeId → SortedMap NodeId Mapping → SortedMap NodeId Mapping
  | 0, _, found => found
  | _, [], found => found
  | fuel + 1, id :: stack, found =>
    let via := found.getD id Mapping.empty
    let (stack, found) := (links.entries.filterMap (step? id)).foldl
      (fun (stack, found) (next, mapping) =>
        if found.contains next then (stack, found)
        else
          (next :: stack, found.insert next (if id = lead then mapping else via.andThen mapping)))
      (stack, found)
    explore links lead fuel stack found

/-- The members of a class, mapped from the leader through the given mapping to its
representative. -/
def attach (toOther : Mapping) (c : NodeClass) : List (NodeId × Option Mapping) :=
  (c.representative, some toOther) ::
    c.others.map fun (id, mapping) => (id, mapping.map toOther.andThen)

/-- The class of connected representatives, the leader first. -/
def foldGroup (classOf : SortedMap NodeId NodeClass) (links : Links) :
    List NodeId → Option NodeClass
  | [] => none
  | lead :: rest =>
    let found := explore links lead (rest.length + 1) [lead]
      (SortedMap.empty.insert lead Mapping.empty)
    let leading := classOf.getD lead (.single lead)
    some { leading with
      others := leading.others ++ rest.flatMap fun id =>
        attach (found.getD id Mapping.empty) (classOf.getD id (.single id)) }

/-- Joins the classes that near matches connect. -/
def fold (classes : List NodeClass) (near : List NearMatch) : List NodeClass :=
  let classOf := SortedMap.ofList (classes.map fun c => (c.representative, c))
  let start := classOf.keys.foldl (fun u id => (u.find id).2) UnionFind.empty
  let (u, links) := link near start
  NodeClass.sorted (u.groups.values.filterMap (foldGroup classOf links))

end CircuitEquiv.Folding
