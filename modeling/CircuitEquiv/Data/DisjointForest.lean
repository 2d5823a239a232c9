-- SUMMARY: Disjoint sets as a forest of parents, with path compression and union by size.
import CircuitEquiv.Data.SortedMap

/-!
# Forests of disjoint sets

Every known key has a parent, and a key that is its own parent is the root of its set. Asking for a key
climbs to the root and then points every key on the way at it. A union hangs the root of the smaller set
below that of the larger one; of two sets of one size the first root survives.
-/

namespace CircuitEquiv

/-- A forest over the known keys. -/
structure DisjointForest (α : Type) [Ord α] where
  /-- Every known key with its parent. -/
  parents : SortedMap α α
  /-- Every known key with the size of its set when it was last a root. -/
  sizes : SortedMap α Nat
  /-- The roots, where they are tracked. -/
  representatives : Option (SortedSet α)

namespace DisjointForest

variable {α : Type} [Ord α]

/-- No keys; the roots are tracked where that is asked for. -/
def empty (tracked : Bool) : DisjointForest α :=
  ⟨SortedMap.empty, SortedMap.empty, if tracked then some SortedSet.empty else none⟩

/-- The parent of a key; a key that is not known is its own. -/
def parent (parents : SortedMap α α) (x : α) : α := parents.getD x x

/-- The size that is stored for a root. -/
def size (d : DisjointForest α) (root : α) : Nat := d.sizes.getD root 0

section Climb

variable [DecidableEq α]

/-- Climbs to the root of a key. -/
def climb (parents : SortedMap α α) : Nat → α → α
  | 0, x => x
  | fuel + 1, x => if parent parents x = x then x else climb parents fuel (parent parents x)

/-- Points the keys from `x` up to the root at the root. -/
def compress [Std.TransOrd α] (root : α) : Nat → SortedMap α α → α → SortedMap α α
  | 0, parents, _ => parents
  | fuel + 1, parents, x =>
    if x = root then parents else compress root fuel (parents.insert x root) (parent parents x)

end Climb

variable [Std.TransOrd α]

/-- Makes a key that is not known a set of its own. -/
def insert (d : DisjointForest α) (key : α) : DisjointForest α :=
  if d.parents.contains key then d
  else {
    parents := d.parents.insert key key
    sizes := d.sizes.insert key 1
    representatives := d.representatives.map (·.insert key) }

variable [DecidableEq α]

/-- The root of a key, which becomes a set of its own if it was not known. -/
def find (d : DisjointForest α) (key : α) : α × DisjointForest α :=
  let d := d.insert key
  let root := climb d.parents d.parents.size key
  (root, { d with parents := compress root d.parents.size d.parents key })

/-- Hangs the root `small` below the root `big`. -/
def hang (d : DisjointForest α) (big small : α) : DisjointForest α where
  parents := d.parents.insert small big
  sizes := d.sizes.insert big (d.size big + d.size small)
  representatives := d.representatives.map (·.erase small)

/-- Joins the sets of two keys and returns the root of the result. -/
def union (d : DisjointForest α) (a b : α) : α × DisjointForest α :=
  let (ra, d) := d.find a
  let (rb, d) := d.find b
  if ra = rb then (ra, d)
  else if d.size ra ≥ d.size rb then (ra, d.hang ra rb)
  else (rb, d.hang rb ra)

/-- Joins the sets of all listed keys and returns the root, if there is a key. -/
def unionAll (d : DisjointForest α) : List α → Option α × DisjointForest α
  | [] => (none, d)
  | first :: rest =>
    let (root, d) := rest.foldl (fun (root, d) key => d.union root key) (d.find first)
    (some root, d)

/-- Whether two keys are in one set. -/
def same (d : DisjointForest α) (a b : α) : Bool × DisjointForest α :=
  let (ra, d) := d.find a
  let (rb, d) := d.find b
  (ra == rb, d)

/-- The roots of the listed keys. -/
def findAll (d : DisjointForest α) : List α → List α × DisjointForest α
  | [] => ([], d)
  | key :: rest =>
    let (root, d) := d.find key
    let (roots, d) := d.findAll rest
    (root :: roots, d)

/-- The known keys, ascending, under the roots of their sets. -/
def groups (d : DisjointForest α) : SortedMap α (List α) × DisjointForest α :=
  let keys := d.parents.keys
  let (roots, d) := d.findAll keys
  (.groupValues (roots.zip keys), d)

end DisjointForest

end CircuitEquiv
