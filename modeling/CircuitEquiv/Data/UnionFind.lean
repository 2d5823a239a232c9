-- SUMMARY: Disjoint sets with a root for each set; the root of the larger set survives a union.
import CircuitEquiv.Data.SortedMap

/-!
# Disjoint sets

Every known key has a root, and two keys are in one set when they have the same root. A union keeps
the root of the larger set, and of two sets of one size that of the first. Keys become known when
they are first asked for. The set of roots is kept up to date where that is asked for.
-/

namespace CircuitEquiv

/-- Disjoint sets of keys. -/
structure UnionFind (α : Type) [Ord α] where
  /-- Every known key with the root of its set. -/
  roots : SortedMap α α
  /-- Every root with the number of keys in its set. -/
  sizes : SortedMap α Nat
  /-- The roots, where they are tracked. -/
  representatives : Option (SortedSet α)

namespace UnionFind

variable {α : Type} [Ord α]

/-- No keys, the roots not tracked. -/
def empty : UnionFind α := ⟨SortedMap.empty, SortedMap.empty, none⟩

/-- No keys, the roots tracked. -/
def tracked : UnionFind α := ⟨SortedMap.empty, SortedMap.empty, some SortedSet.empty⟩

/-- The number of keys in the set of a root. -/
def size (u : UnionFind α) (root : α) : Nat := u.sizes.getD root 0

variable [Std.TransOrd α] [DecidableEq α]

/-- The root of a key, which becomes a set of its own if it was not known. -/
def find (u : UnionFind α) (key : α) : α × UnionFind α :=
  match u.roots.get? key with
  | some root => (root, u)
  | none => (key, {
      roots := u.roots.insert key key
      sizes := u.sizes.insert key 1
      representatives := u.representatives.map (·.insert key) })

/-- Moves every key of the set of `small` to the set of `big`, both of them roots. -/
def absorb (u : UnionFind α) (big small : α) : UnionFind α where
  roots := u.roots.mapValues fun _ root => if root = small then big else root
  sizes := (u.sizes.insert big (u.size big + u.size small)).erase small
  representatives := u.representatives.map (·.erase small)

/-- Joins the sets of two keys and returns the root of the result. -/
def union (u : UnionFind α) (a b : α) : α × UnionFind α :=
  let (ra, u) := u.find a
  let (rb, u) := u.find b
  if ra = rb then (ra, u)
  else if u.size ra ≥ u.size rb then (ra, u.absorb ra rb)
  else (rb, u.absorb rb ra)

/-- Joins the sets of all listed keys and returns the root, if there is a key. -/
def unionAll (u : UnionFind α) : List α → Option α × UnionFind α
  | [] => (none, u)
  | first :: rest =>
    let (root, u) := rest.foldl (fun (root, u) key => u.union root key) (u.find first)
    (some root, u)

/-- Whether two keys are in one set. -/
def same (u : UnionFind α) (a b : α) : Bool × UnionFind α :=
  let (ra, u) := u.find a
  let (rb, u) := u.find b
  (ra == rb, u)

/-- The known keys, ascending, under the roots of their sets. -/
def groups (u : UnionFind α) : SortedMap α (List α) :=
  SortedMap.groupValues (u.roots.entries.map fun (key, root) => (root, key))

end UnionFind

end CircuitEquiv
