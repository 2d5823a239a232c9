-- SUMMARY: Partitions of the constraints of a circuit, given by labels or by parts.
import CircuitEquiv.Dag.Error

/-!
# Partitions

A partition gives every constraint a label; constraints with one label form a part. Every list of
labels is a partition. The parts are ascending and come in the order of their first members.
-/

namespace CircuitEquiv

/-- A partition of the numbers below the length of the list. -/
structure Partition where
  labels : List Nat

namespace Partition

/-- The number of elements. -/
def size (p : Partition) : Nat := p.labels.length

/-- The elements with a label, ascending. -/
def members (p : Partition) (label : Nat) : List Nat :=
  (p.labels.zipIdx.filter (·.1 = label)).map (·.2)

/-- The parts. -/
def parts (p : Partition) : List (List Nat) := p.labels.eraseDups.map p.members

/-- The partition whose labels are the values of a function. -/
def ofFunction (n : Nat) (label : Nat → Nat) : Partition := ⟨(List.range n).map label⟩

/-- The place of the first list that has the element. -/
def placeOf (parts : List (List Nat)) (i : Nat) : Nat := parts.findIdx (·.contains i)

/-- The partition of disjoint parts; numbers in none of them are parts of their own. -/
def ofDisjoint (n : Nat) (parts : List (List Nat)) : Partition :=
  ofFunction n fun i => if parts.any (·.contains i) then placeOf parts i else parts.length + i

/-- The partition with the given parts, each number below `n` in exactly one of them. A number out
of range is named first, in the order of the ascending parts, then the least one with another
count. -/
def ofParts? (n : Nat) (parts : List (List Nat)) : Except StructureError Partition :=
  let all := (parts.map ascending).flatten
  match all.find? (n ≤ ·), (List.range n).find? fun i => all.count i ≠ 1 with
  | some i, _ => .error (.notAPartition i 0)
  | none, some i => .error (.notAPartition i (all.count i))
  | none, none => .ok (ofDisjoint n parts)

end Partition

end CircuitEquiv
