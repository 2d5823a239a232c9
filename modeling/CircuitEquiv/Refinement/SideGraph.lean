-- SUMMARY: The incidence of signals and normalized constraints of one circuit, and labellings of both.
import CircuitEquiv.Circuit

/-!
# Incidence graphs

Refinement looks at a circuit as a bipartite graph: a norm and a signal are adjacent when the signal
occurs in the norm. Several circuits can be refined side by side, so an item is named by its side
and its index.
-/

namespace CircuitEquiv

/-- The bipartite graph of norms and signals of one circuit. -/
structure SideGraph where
  norms : Array Constraint
  /-- The role of every signal. -/
  roles : Array SignalRole
  /-- For every norm, its signals. -/
  normSignals : Array (List Signal)
  /-- For every signal, the norms in which it occurs, ascending. -/
  signalNorms : Array (List Nat)

/-- The graph of a circuit and its norms. -/
def SideGraph.ofCircuit (circuit : Circuit) (norms : Array Norm) : SideGraph :=
  let normSignals := norms.map fun n => n.constraint.signals.toList
  let pairs := normSignals.toList.zipIdx.flatMap fun (signals, n) => signals.map fun s => (s, n)
  { norms := norms.map (·.constraint)
    roles := Array.ofFn fun s : Fin circuit.nSignals => circuit.role s
    normSignals
    signalNorms := (pairs.foldl (fun table (s, n) => table.modify s (n :: ·))
      (Array.replicate circuit.nSignals [])).map List.reverse }

/-- A norm or a signal of one of the sides. -/
structure Item where
  side : Nat
  index : Nat
deriving DecidableEq, Inhabited

/-- A labelling of the items of every side. -/
abbrev Labelling := Array (Array ClassLabel)

namespace Labelling

/-- The labelling with one label everywhere; `sizes` are the numbers of items of the sides. -/
def constant (sizes : List Nat) (label : ClassLabel) : Labelling :=
  (sizes.map fun n => Array.replicate n label).toArray

/-- The label of an item. -/
def label (l : Labelling) (i : Item) : ClassLabel := (l[i.side]?.getD #[])[i.index]?.getD default

/-- Changes the label of an item. -/
def set (l : Labelling) (i : Item) (label : ClassLabel) : Labelling :=
  l.modify i.side fun side => side.setIfInBounds i.index label

/-- Gives every listed item the label of its list. -/
def relabel (l : Labelling) (parts : List (ClassLabel × List Item)) : Labelling :=
  parts.foldl (fun l (label, items) => items.foldl (fun l i => l.set i label) l) l

/-- All items, side by side. -/
def items (l : Labelling) : List Item :=
  l.toList.zipIdx.flatMap fun (side, k) => (List.range side.size).map fun i => ⟨k, i⟩

/-- The classes: the items of each label, per side and ascending. -/
def classes (l : Labelling) : SortedMap ClassLabel (List (List Nat)) :=
  (SortedMap.groupValues (l.items.map fun i => (l.label i, i))).mapValues fun _ members =>
    (List.range l.size).map fun k => (members.filter (·.side = k)).map (·.index)

end Labelling

end CircuitEquiv
