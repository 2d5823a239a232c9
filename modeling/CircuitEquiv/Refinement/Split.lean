-- SUMMARY: Splitting classes whose members disagree on a key, and issuing labels to the parts.
import CircuitEquiv.Data.SortedMap
import CircuitEquiv.Label

/-!
# Splitting classes

A round of refinement keys the members of some classes and groups them by class label and key. A
class all of whose members share one key keeps its label. The parts of any other class get fresh
labels, in key order, so the labels do not depend on how the items are numbered.
-/

namespace CircuitEquiv

/-- A group of items: the label of their class, their common key and the items. -/
abbrev Group (κ α : Type) := (ClassLabel × κ) × List α

/-- Groups items by label and key, ascending. -/
def groupItems {κ α : Type} [Ord κ] [Std.TransOrd κ] (label : α → ClassLabel) (key : α → κ)
    (items : List α) : List (Group κ α) :=
  (SortedMap.groupValues (items.map fun i => ((label i, key i), i))).entries

/-- The groups of the classes that fall into several groups. -/
def splitParts {κ α : Type} (groups : List (Group κ α)) : List (Group κ α) :=
  groups.filter fun g => 1 < groups.countP fun h => h.1.1 = g.1.1

/-- Fresh labels: how many classes are settled, and how many labels the round has issued. -/
structure LabelSupply where
  nSingular : Nat
  nFresh : Nat

/-- The next label, of a settled class or of an open class of the round. -/
def LabelSupply.next (supply : LabelSupply) (round : Nat) (settled : Bool) :
    ClassLabel × LabelSupply :=
  if settled then (.singular supply.nSingular, { supply with nSingular := supply.nSingular + 1 })
  else (.at round supply.nFresh, { supply with nFresh := supply.nFresh + 1 })

/-- Labels groups in order. -/
def labelParts {κ α : Type} (round : Nat) (settled : List α → Bool) (supply : LabelSupply) :
    List (Group κ α) → List (ClassLabel × List α) × LabelSupply
  | [] => ([], supply)
  | g :: rest =>
    let (label, supply) := supply.next round (settled g.2)
    let (parts, supply) := labelParts round settled supply rest
    ((label, g.2) :: parts, supply)

/-- Splits the classes of a round: the parts with their new labels, and the number of settled
classes afterwards. -/
def splitGroups {κ α : Type} (round : Nat) (settled : List α → Bool) (nSingular : Nat)
    (groups : List (Group κ α)) : List (ClassLabel × List α) × Nat :=
  let (parts, supply) := labelParts round settled ⟨nSingular, 0⟩ (splitParts groups)
  (parts, supply.nSingular)

end CircuitEquiv
