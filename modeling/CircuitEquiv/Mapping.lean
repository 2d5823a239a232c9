-- SUMMARY: Maps of signals and constraints from one circuit to another, their algebra, and the check that one is an equivalence.
import CircuitEquiv.Refinement

/-!
# Mappings

A mapping sends signals and constraints of a left circuit to those of a right one. It witnesses an
equivalence when it is injective, defined everywhere, keeps the roles of signals, and turns every
constraint, its signals renamed, into a scalar multiple of its image. A partial mapping can be
checked on the constraints that it maps.
-/

namespace CircuitEquiv

/-- A left-to-right map of signals and of constraint indices. -/
structure Mapping where
  signals : SortedMap Signal Signal
  constraints : SortedMap Nat Nat
deriving DecidableEq

namespace Mapping

/-- The mapping of nothing. -/
def empty : Mapping := ⟨SortedMap.empty, SortedMap.empty⟩

instance : Inhabited Mapping := ⟨empty⟩

/-- Maps a signal, over any older image. -/
def insertSignal (m : Mapping) (left right : Signal) : Mapping :=
  { m with signals := m.signals.insert left right }

/-- Maps a constraint that has no image yet. -/
def insertConstraint (m : Mapping) (left right : Nat) : Mapping :=
  { m with constraints := m.constraints.upsert left fun old => old.getD right }

-- ---------------------------------------------------------------------------
-- Reading off a refinement
-- ---------------------------------------------------------------------------

/-- The members of the classes of two sides, when each class has one on either side. -/
def settledPairs? (classes : SortedMap ClassLabel (List (List Nat))) : Option (List (Nat × Nat)) :=
  classes.values.mapM fun
    | [[l], [r]] => some (l, r)
    | _ => none

/-- The constraint map of a matching of norms, when all norms of a constraint agree on its image. -/
def ofNormPairs? (m : Mapping) : List (Nat × Nat) → Option Mapping
  | [] => some m
  | (left, right) :: rest =>
    let m := m.insertConstraint left right
    if m.constraints.get? left = some right then ofNormPairs? m rest else none

/-- The only mapping that a refinement leaves, when all its classes are settled. -/
def ofRefinement? (r : Refinement) (leftNorms rightNorms : Array Norm) : Option Mapping := do
  let signals ← settledPairs? r.signalClasses
  let norms ← settledPairs? r.normClasses
  let origin (norms : Array Norm) (n : Nat) : Nat := (norms[n]?.getD default).origin
  ofNormPairs? ⟨SortedMap.ofList signals, SortedMap.empty⟩
    (norms.map fun (l, r) => (origin leftNorms l, origin rightNorms r))

-- ---------------------------------------------------------------------------
-- Algebra
-- ---------------------------------------------------------------------------

/-- Keeps the signals of the mapped constraints of `left`, and the constant signal. -/
def restrictToConstraints (m : Mapping) (left : Circuit) : Mapping :=
  let used := m.constraints.keys.foldl
    (fun used k => used.union (left.constraints[k]?.getD default).signals)
    (SortedSet.ofList [constantSignal])
  { m with signals := m.signals.filter fun s _ => s ∈ used }

/-- The entries of a map turned round; of two entries with one image the later one counts. -/
def inverseMap (m : SortedMap Nat Nat) : SortedMap Nat Nat :=
  SortedMap.ofList (m.entries.map fun (l, r) => (r, l))

/-- The entries whose image `next` maps, sent on. -/
def composeMaps (m next : SortedMap Nat Nat) : SortedMap Nat Nat :=
  SortedMap.ofList (m.entries.filterMap fun (l, x) => (next.get? x).map fun r => (l, r))

/-- The right-to-left mapping. -/
def inverse (m : Mapping) : Mapping := ⟨inverseMap m.signals, inverseMap m.constraints⟩

/-- First `m`, then `next`. -/
def andThen (m next : Mapping) : Mapping :=
  ⟨composeMaps m.signals next.signals, composeMaps m.constraints next.constraints⟩

end Mapping

-- ---------------------------------------------------------------------------
-- Defects
-- ---------------------------------------------------------------------------

/-- Why a mapping is no equivalence. -/
inductive MappingError where
  | unmappedSignal (signal : Signal)
  | signalCollision (image : Signal)
  | roleMismatch (left right : Signal)
  | unmappedConstraint (constraint : Nat)
  | constraintCollision (image : Nat)
  | outOfRange (constraint : Nat)
  | constraintMismatch (left right : Nat)
deriving DecidableEq

/-- The message of a defect. -/
def MappingError.message : MappingError → String
  | .unmappedSignal s => s!"left signal {s} is not mapped"
  | .signalCollision s => s!"right signal {s} is the image of several left signals"
  | .roleMismatch l r => s!"left signal {l} is mapped to right signal {r} of a different role"
  | .unmappedConstraint k => s!"left constraint {k} is not mapped"
  | .constraintCollision k => s!"right constraint {k} is the image of several left constraints"
  | .outOfRange k => s!"constraint index {k} is out of range"
  | .constraintMismatch l r =>
    s!"left constraint {l} is not a multiple of right constraint {r} under the mapping"

namespace Mapping

-- ---------------------------------------------------------------------------
-- Checking
-- ---------------------------------------------------------------------------

/-- The first element that occurs earlier in the list. -/
def firstRepeated? (seen : SortedSet Nat) : List Nat → Option Nat
  | [] => none
  | x :: rest => if x ∈ seen then some x else firstRepeated? (seen.insert x) rest

/-- Checks one signal: it has an image, of the same role. -/
def checkSignal (left right : Circuit) (m : Mapping) (s : Signal) : Except MappingError Unit :=
  match m.signals.get? s with
  | none => .error (.unmappedSignal s)
  | some image =>
    if image < right.nSignals ∧ left.role s = right.role image then .ok ()
    else .error (.roleMismatch s image)

/-- Checks one mapped constraint: its renamed form is a multiple of its image. -/
def checkConstraint (left right : Circuit) (m : Mapping) (l r : Nat) : Except MappingError Unit :=
  match left.constraints[l]?, right.constraints[r]? with
  | none, _ => .error (.outOfRange l)
  | _, none => .error (.outOfRange r)
  | some c, some d =>
    match c.signals.toList.find? fun s => !m.signals.contains s with
    | some s => .error (.unmappedSignal s)
    | none =>
      match c.signalMap fun s => m.signals.getD s constantSignal with
      | .error _ => .error (.constraintMismatch l r)
      | .ok renamed =>
        if renamed.isScalarMultipleOf left.field d then .ok () else .error (.constraintMismatch l r)

/-- Checks mapped constraints in order; `seen` holds the images of the earlier ones. -/
def checkConstraints (left right : Circuit) (m : Mapping) (seen : SortedSet Nat) :
    List (Nat × Nat) → Except MappingError Unit
  | [] => .ok ()
  | (l, r) :: rest =>
    if r ∈ seen then .error (.constraintCollision r)
    else do
      checkConstraint left right m l r
      checkConstraints left right m (seen.insert r) rest

/-- Checks the constraints that are mapped, and that no two signals have one image. -/
def checkMatched (left right : Circuit) (m : Mapping) : Except MappingError Unit :=
  match firstRepeated? SortedSet.empty m.signals.values with
  | some image => .error (.signalCollision image)
  | none => checkConstraints left right m SortedSet.empty m.constraints.entries

/-- Checks that the mapping is an equivalence of the circuits. -/
def sanityCheck (left right : Circuit) (m : Mapping) : Except MappingError Unit := do
  (List.range left.nSignals).forM fun s => checkSignal left right m s
  (List.range left.nConstraints).forM fun k =>
    if m.constraints.contains k then .ok () else .error (.unmappedConstraint k)
  checkMatched left right m

/-- Whether the mapping is an equivalence of the circuits. -/
def isEquivalence (left right : Circuit) (m : Mapping) : Bool :=
  match m.sanityCheck left right with
  | .ok _ => true
  | .error _ => false

end Mapping

end CircuitEquiv
