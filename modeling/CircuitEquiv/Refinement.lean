-- SUMMARY: Alternating refinement of norm and signal classes, for one circuit or for two in lockstep.
import CircuitEquiv.Data.Total
import CircuitEquiv.Difference
import CircuitEquiv.Refinement.SideGraph
import CircuitEquiv.Refinement.Split

/-!
# Refinement

Norms start as one class and signals as one class per role. Rounds alternate: a norm round keys
norms by their shape under the current signal labels, a signal round keys signals by the labels of
their norms beside the part they play there. Classes whose members disagree are split. Only classes
beside something that was split are looked at again, and the run stops when nothing splits any more.

Two circuits can be refined in lockstep with one set of labels; a class whose sizes differ between
the sides then shows that the circuits are not equivalent. The keys and class sizes met on the way
form a trace that does not depend on the numbering of signals or the order of constraints.
-/

namespace CircuitEquiv

/-- The key of a signal in a round: the labels of its norms and its part in them, ascending. -/
abbrev SignalKey := List (ClassLabel × Characteristic)

/-- What one group contributed to a run: its key and its sizes on the sides. -/
inductive TraceEntry where
  | signalSeed (role : SignalRole) (sizes : List Nat)
  | normSeed (sizes : List Nat)
  | norm (round : Nat) (label : ClassLabel) (key : NormShape) (sizes : List Nat)
  | signal (round : Nat) (label : ClassLabel) (key : SignalKey) (sizes : List Nat)
deriving DecidableEq

/-- The labels of one kind of items and the labels of the classes to look at in its next round. -/
structure RefinementMode where
  labels : Labelling
  frontier : SortedSet ClassLabel

/-- The state between two rounds. -/
structure RefinementState where
  norms : RefinementMode
  signals : RefinementMode
  nSingular : Nat
  round : Nat
  trace : List TraceEntry

/-- The outcome of a run. -/
structure Refinement where
  normLabels : Labelling
  /-- The labels of the signals; the constant signal is settled. -/
  signalLabels : Labelling
  /-- The number of rounds. -/
  rounds : Nat
  trace : List TraceEntry

namespace RefinementState

-- ---------------------------------------------------------------------------
-- Class sizes
-- ---------------------------------------------------------------------------

/-- The number of items on each of `n` sides. -/
def sizes (n : Nat) (items : List Item) : List Nat :=
  (List.range n).map fun k => items.countP (·.side = k)

/-- Whether there is one item on every side. -/
def isSettled (n : Nat) (items : List Item) : Bool := (sizes n items).all (· == 1)

/-- Refuses a class of two sides with different sizes. -/
def checkSizes (kind : ItemKind) (label : ClassLabel) (round : Nat) (sizes : List Nat) :
    Except Difference Unit :=
  match sizes with
  | [left, right] =>
    if left = right then .ok () else .error (.classSizes kind label round left right)
  | _ => .ok ()

-- ---------------------------------------------------------------------------
-- Seeds
-- ---------------------------------------------------------------------------

/-- Labels the seed classes of one kind by rank; a settled one draws from the settled labels. -/
def seedLabels (n : Nat) : Nat → Nat → List (List Item) → List (ClassLabel × List Item) × Nat
  | _, nSingular, [] => ([], nSingular)
  | rank, nSingular, items :: rest =>
    if isSettled n items then
      let (parts, last) := seedLabels n (rank + 1) (nSingular + 1) rest
      ((.singular nSingular, items) :: parts, last)
    else
      let (parts, last) := seedLabels n (rank + 1) nSingular rest
      ((.initial rank, items) :: parts, last)

/-- The mode with the given seed classes, all of them to be looked at. -/
def seedMode (l : Labelling) (parts : List (ClassLabel × List Item)) : RefinementMode :=
  ⟨l.relabel parts, SortedSet.ofList (parts.map (·.1))⟩

/-- The state before the first round: signals classed by role, norms in one class. -/
def start (graphs : Array SideGraph) : Except Difference RefinementState := do
  let n := graphs.size
  let signals := Labelling.constant (graphs.toList.map (·.roles.size)) (.initial 0)
  let norms := Labelling.constant (graphs.toList.map (·.norms.size)) (.initial 0)
  let roleOf (i : Item) : SignalRole :=
    (graphs[i.side]?.bind (·.roles[i.index]?)).getD .internal
  let byRole := ([.constant, .output, .input, .internal] : List SignalRole).filterMap fun role =>
    let members := signals.items.filter fun i => roleOf i = role
    if members.isEmpty then none else some (role, members)
  let (signalParts, nSingular) := seedLabels n 0 0 (byRole.map (·.2))
  signalParts.forM fun (label, items) => checkSizes .signal label 0 (sizes n items)
  let (normParts, nSingular) :=
    seedLabels n 0 nSingular (if norms.items.isEmpty then [] else [norms.items])
  normParts.forM fun (label, items) => checkSizes .norm label 0 (sizes n items)
  return {
    norms := seedMode norms normParts
    signals := seedMode signals signalParts
    nSingular
    round := 0
    trace := (byRole.map fun (role, items) => .signalSeed role (sizes n items)) ++
      normParts.map fun (_, items) => .normSeed (sizes n items) }

-- ---------------------------------------------------------------------------
-- Rounds
-- ---------------------------------------------------------------------------

/-- The groups of one kind that a round looks at. -/
def frontierGroups {κ : Type} [Ord κ] [Std.TransOrd κ] (mode : RefinementMode) (key : Item → κ) :
    List (Group κ Item) :=
  groupItems mode.labels.label key
    (mode.labels.items.filter fun i => mode.labels.label i ∈ mode.frontier)

/-- The labels of the given items that are not settled. -/
def openLabels (l : Labelling) (items : List Item) : List ClassLabel :=
  (items.map l.label).filter (!·.isSingular)

/-- The shape of a norm under the current signal labels. -/
def normKey (graphs : Array SideGraph) (signals : Labelling) (i : Item) : NormShape :=
  ((graphs[i.side]?.bind (·.norms[i.index]?)).getD default).shape fun s => signals.label ⟨i.side, s⟩

/-- The norms in which a signal occurs. -/
def normsOf (graphs : Array SideGraph) (i : Item) : List Item :=
  ((graphs[i.side]?.bind (·.signalNorms[i.index]?)).getD []).map fun n => ⟨i.side, n⟩

/-- The signals that occur in a norm. -/
def signalsOf (graphs : Array SideGraph) (i : Item) : List Item :=
  ((graphs[i.side]?.bind (·.normSignals[i.index]?)).getD []).map fun s => ⟨i.side, s⟩

/-- The norms of a signal under the current labels, each with the part that the signal plays. -/
def signalKey (graphs : Array SideGraph) (norms signals : Labelling) (i : Item) : SignalKey :=
  ascending ((normsOf graphs i).map fun n =>
    let constraint := (graphs[n.side]?.bind (·.norms[n.index]?)).getD default
    (norms.label n, constraint.characteristic i.index fun s => signals.label ⟨i.side, s⟩))

/-- A norm round: the next state, and whether a class was split. -/
def normRound (graphs : Array SideGraph) (s : RefinementState) :
    Except Difference (RefinementState × Bool) := do
  let n := graphs.size
  let round := s.round + 1
  let groups := frontierGroups s.norms (normKey graphs s.signals.labels)
  groups.forM fun g => checkSizes .norm g.1.1 round (sizes n g.2)
  let (parts, nSingular) := splitGroups round (isSettled n) s.nSingular groups
  let touched := parts.flatMap fun (_, items) => items.flatMap (signalsOf graphs)
  let next : RefinementState := {
    norms := ⟨s.norms.labels.relabel parts, SortedSet.empty⟩
    signals := { s.signals with
      frontier := s.signals.frontier.insertAll (openLabels s.signals.labels touched) }
    nSingular, round
    trace := s.trace ++ groups.map fun g => .norm round g.1.1 g.1.2 (sizes n g.2) }
  return (next, !parts.isEmpty)

/-- A signal round: the next state, and whether a class was split. -/
def signalRound (graphs : Array SideGraph) (s : RefinementState) :
    Except Difference (RefinementState × Bool) := do
  let n := graphs.size
  let round := s.round + 1
  let groups := frontierGroups s.signals (signalKey graphs s.norms.labels s.signals.labels)
  groups.forM fun g => checkSizes .signal g.1.1 round (sizes n g.2)
  let (parts, nSingular) := splitGroups round (isSettled n) s.nSingular groups
  let touched := parts.flatMap fun (_, items) => items.flatMap (normsOf graphs)
  let next : RefinementState := {
    norms := { s.norms with
      frontier := s.norms.frontier.insertAll (openLabels s.norms.labels touched) }
    signals := ⟨s.signals.labels.relabel parts, SortedSet.empty⟩
    nSingular, round
    trace := s.trace ++ groups.map fun g => .signal round g.1.1 g.1.2 (sizes n g.2) }
  return (next, !parts.isEmpty)

/-- Runs rounds, of the given kind first, until no class is left to look at or a round of each kind
in succession has split nothing. `quiet` says that the last round split nothing. -/
def run (graphs : Array SideGraph) :
    Nat → ItemKind → Bool → RefinementState → Except Difference RefinementState
  | 0, _, _, s => .ok s
  | fuel + 1, kind, quiet, s =>
    if s.norms.frontier.isEmpty && s.signals.frontier.isEmpty then .ok s
    else do
      let (s, split) ← match kind with
        | .norm => s.normRound graphs
        | .signal => s.signalRound graphs
      let other : ItemKind := match kind with
        | .norm => .signal
        | .signal => .norm
      if split then run graphs fuel other false s
      else if quiet then return s
      else run graphs fuel other true s

end RefinementState

namespace Refinement

-- ---------------------------------------------------------------------------
-- Runs
-- ---------------------------------------------------------------------------

/-- A bound on the number of rounds: each class is split once at most, and after every round that
splits there is at most one that does not. -/
def roundBound (graphs : Array SideGraph) : Nat :=
  2 * total (graphs.toList.map fun g => g.norms.size + g.roles.size) + 3

/-- Refines the given sides in lockstep. -/
def ofGraphs (graphs : Array SideGraph) : Except Difference Refinement := do
  let s ← RefinementState.start graphs
  let s ← s.run graphs (roundBound graphs) .norm false
  return ⟨s.norms.labels, s.signals.labels, s.round, s.trace⟩

/-- Refines two circuits in lockstep, unless a class tells them apart. -/
def pair (left : Circuit) (leftNorms : Array Norm) (right : Circuit) (rightNorms : Array Norm) :
    Except Difference Refinement :=
  ofGraphs #[.ofCircuit left leftNorms, .ofCircuit right rightNorms]

/-- Refines one circuit. A single side never differs from itself. -/
def single (circuit : Circuit) (norms : Array Norm) : Refinement :=
  match ofGraphs #[.ofCircuit circuit norms] with
  | .ok r => r
  | .error _ => ⟨#[], #[], 0, []⟩

/-! ## Classes -/

/-- The norm classes with their members per side, in label order. -/
def normClasses (r : Refinement) : SortedMap ClassLabel (List (List Nat)) := r.normLabels.classes

/-- The signal classes with their members per side, in label order. -/
def signalClasses (r : Refinement) : SortedMap ClassLabel (List (List Nat)) :=
  r.signalLabels.classes

/-- The classes that are not settled. -/
def residual (classes : SortedMap ClassLabel (List (List Nat))) :
    SortedMap ClassLabel (List (List Nat)) :=
  classes.filter fun label _ => !label.isSingular

/-- Whether every class is settled. -/
def isDiscrete (r : Refinement) : Bool :=
  (residual r.normClasses).isEmpty && (residual r.signalClasses).isEmpty

end Refinement

end CircuitEquiv
