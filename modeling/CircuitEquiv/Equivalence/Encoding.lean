-- SUMMARY: The formula whose models are the equivalences that a refinement leaves open, and the mapping of a model.
import CircuitEquiv.Equivalence.Deadline
import CircuitEquiv.Equivalence.Policy
import CircuitEquiv.Matching.Candidates
import CircuitEquiv.Matching.Draft

/-!
# Encoding what refinement leaves open

Every norm and every signal is matched to exactly one item of its class on the other side. A matched
norm pair demands the signal pairs of its shape, and the norms of one constraint move together. What
is settled becomes an assumption, and so do the pairs that propagation has ruled out. The policies
differ in when they narrow the candidates of signals by what the norm classes allow.
-/

namespace CircuitEquiv

/-- The members of a class on both sides. -/
abbrev ClassMembers := List (List Nat)

/-- The norms of two circuits and the refinement of both. -/
structure Residual where
  leftNorms : Array Norm
  rightNorms : Array Norm
  refinement : Refinement

/-- What refinement leaves open between two circuits, unless it tells them apart. -/
def Residual.ofCircuits (left right : Circuit) : Except Difference Residual := do
  let leftNorms := left.normalize
  let rightNorms := right.normalize
  return ⟨leftNorms, rightNorms, ← Refinement.pair left leftNorms right rightNorms⟩

/-- Clauses, assumptions and the meaning of the variables. -/
structure Encoding where
  clauses : List Clause
  assumptions : List Literal
  vars : Numbering PairVariable

/-- The state of encoding. -/
structure Encoder where
  candidates : Candidates
  draft : Draft
  assumptions : List Literal

namespace ClassMembers

/-- The left members. -/
def left (m : ClassMembers) : List Nat := m[0]?.getD []

/-- The right members. -/
def right (m : ClassMembers) : List Nat := m[1]?.getD []

end ClassMembers

namespace Residual

variable (res : Residual)

/-- The left norm of an index. -/
def leftNorm (n : Nat) : Constraint := (res.leftNorms[n]?.getD default).constraint

/-- The right norm of an index. -/
def rightNorm (n : Nat) : Constraint := (res.rightNorms[n]?.getD default).constraint

/-- The classes of norms, smallest first, those of one size in label order. -/
def normClasses : List ClassMembers :=
  res.refinement.normClasses.values.mergeSort fun m n =>
    ClassMembers.left m |>.length.ble (ClassMembers.left n).length

-- ---------------------------------------------------------------------------
-- Feasible pairs
-- ---------------------------------------------------------------------------

/-- The pairs of a class that some signal map within the candidates can match, with their shapes.
Every member needs one. -/
def feasiblePairs (c : Candidates) (m : ClassMembers) :
    Except Difference (List ((Nat × Nat) × PairShape)) :=
  let left := ClassMembers.left m
  let right := ClassMembers.right m
  let pairs := left.flatMap fun l => right.filterMap fun r =>
    (PairShape.ofNorms? c.isLive (res.leftNorm l) (res.rightNorm r)).map fun shape => ((l, r), shape)
  match left.find? fun l => !pairs.any (·.1.1 = l), right.find? fun r => !pairs.any (·.1.2 = r) with
  | some l, _ => .error (.noFeasiblePartner .left l)
  | none, some r => .error (.noFeasiblePartner .right r)
  | none, none => .ok pairs

/-- The partners of a signal that some of the shapes allow, unless one leaves it open. -/
def allowedBySome? (shapes : List PairShape) (s : Signal) : Option (SortedSet Signal) :=
  (shapes.mapM (PairShape.allowed? · s)).map fun sets =>
    sets.foldl SortedSet.union SortedSet.empty

/-- Restricts the candidates of the signals of one left norm to what its feasible partners allow. -/
def narrowByNorm (pairs : List ((Nat × Nat) × PairShape)) (c : Candidates) (l : Nat) : Candidates :=
  let shapes := (pairs.filter (·.1.1 = l)).map (·.2)
  (res.leftNorm l).signals.toList.foldl
    (fun c s =>
      match allowedBySome? shapes s with
      | some allowed => c.restrict .left s allowed
      | none => c) c

/-- Restricts the candidates of signals by the feasible pairs of a class. -/
def narrow (c : Candidates) (m : ClassMembers) : Except Difference Candidates := do
  let pairs ← res.feasiblePairs c m
  return (ClassMembers.left m).foldl (res.narrowByNorm pairs) c

end Residual

-- ---------------------------------------------------------------------------
-- Encoding classes and signals
-- ---------------------------------------------------------------------------

/-- How at-most-one constraints of `n` literals are spelled out under a policy. -/
def Policy.atMostOne (policy : Policy) (threshold n : Nat) : AtMostOne :=
  match policy with
  | .reducedNatural => .pairwise
  | _ => .bySize n threshold

/-- Propagates candidates, or names the signal that is left without any. -/
def Candidates.propagated (c : Candidates) : Except Difference Candidates :=
  match c.propagate with
  | (c, none) => .ok c
  | (_, some difference) => .error difference

namespace Encoder

variable (res : Residual) (policy : Policy) (threshold : Nat)

/-- Adds the literals of feasible pairs, each with the demands of its shape. -/
def addPairs (e : Encoder) : List ((Nat × Nat) × PairShape) → List ((Nat × Nat) × Literal) × Encoder
  | [] => ([], e)
  | ((l, r), shape) :: rest =>
    let (lit, draft) := e.draft.addNormPair l r shape
    let (lits, e) := addPairs { e with draft } rest
    (((l, r), lit) :: lits, e)

/-- Lets exactly one of the literals hold. -/
def addExactlyOne (e : Encoder) (lits : List Literal) : Encoder :=
  { e with draft := e.draft.addExactlyOne (policy.atMostOne threshold lits.length) lits }

/-- Encodes a class: every member is matched exactly once. -/
def addClass (e : Encoder) (m : ClassMembers) : Except Difference Encoder := do
  let pairs ← res.feasiblePairs e.candidates m
  let (lits, e) := e.addPairs pairs
  if m.all (·.length = 1) then
    return { e with assumptions := e.assumptions ++ lits.map (·.2) }
  let byLeft := SortedMap.groupValues (lits.map fun ((l, _), lit) => (l, lit))
  let byRight := SortedMap.groupValues (lits.map fun ((_, r), lit) => (r, lit))
  return (byLeft.values ++ byRight.values).foldl (addExactlyOne policy threshold) e

/-- Narrows the candidates by some classes, propagates, and encodes some classes. -/
def round (e : Encoder) (narrowed encoded : List ClassMembers) : Except Difference Encoder := do
  let candidates ← narrowed.foldlM res.narrow e.candidates
  let candidates ← candidates.propagated
  encoded.foldlM (addClass res policy threshold) { e with candidates }

/-- The pair variables of a signal with its live partners. -/
def signalPairs (c : Candidates) (side : Side) (s : Signal) : List PairVariable :=
  (c.live side s).map fun partner =>
    match side with
    | .left => .signal s partner
    | .right => .signal partner s

/-- Encodes one signal: a single partner is assumed, of several exactly one holds. -/
def addSignal (e : Encoder) (pairs : List PairVariable) : Encoder :=
  let (lits, draft) := e.draft.literals pairs
  let e := { e with draft }
  match lits with
  | [lit] => { e with assumptions := e.assumptions ++ [lit] }
  | lits => addExactlyOne policy threshold e lits

/-- Encodes all signals, left ones first, and assumes that the pairs ruled out do not hold. -/
def addSignals (e : Encoder) : Encoder :=
  let pairs := [Side.left, .right].flatMap fun side =>
    (e.candidates.signals side).map (signalPairs e.candidates side)
  let e := pairs.foldl (addSignal policy threshold) e
  let ruledOut := e.candidates.removedPairs.filterMap fun (l, r) =>
    (e.draft.vars.get? (.signal l r)).map Literal.negative
  { e with assumptions := e.assumptions ++ ruledOut }

/-- The finished encoding; the assumptions are ascending and without repetition. -/
def finish (e : Encoder) : Encoding :=
  let e := { e with draft := e.draft.addSiblings res.leftNorms res.rightNorms }
  let e := addSignals policy threshold e
  ⟨e.draft.clauses.toList, (SortedSet.ofList e.assumptions).toList, e.draft.vars⟩

end Encoder

-- ---------------------------------------------------------------------------
-- Policies
-- ---------------------------------------------------------------------------

/-- The classes that a policy narrows by before it encodes any. -/
def Policy.preliminary (policy : Policy) (classes : List ClassMembers) : List ClassMembers :=
  match policy with
  | .reducedNatural | .reducedPseudoBoolean | .maxSat =>
    classes.filter fun m => (ClassMembers.left m).length = 1
  | .onlineInfoPassing | .batchedInfoPassing => []

/-- The rounds of a policy: in each, the classes to narrow by and the classes to encode. -/
def Policy.rounds (policy : Policy) (classes : List ClassMembers) :
    List (List ClassMembers × List ClassMembers) :=
  match policy with
  | .reducedNatural | .reducedPseudoBoolean | .maxSat => classes.map fun m => ([], [m])
  | .onlineInfoPassing => classes.map fun m => ([m], [m])
  | .batchedInfoPassing =>
    (classes.splitBy fun m n => (ClassMembers.left m).length == (ClassMembers.left n).length).map
      fun batch => (batch, batch)

/-- An attempt that fails with a difference. -/
def orDiffer {α : Type} : Except Difference α → Attempt EquivalenceError α
  | .ok a => return a
  | .error difference => throw (.notEquivalent difference)

/-- Encodes what a refinement leaves open. The deadline is checked before every round. -/
def encode (res : Residual) (policy : Policy) (threshold : Nat) (deadline : Deadline) :
    Attempt EquivalenceError Encoding := do
  let candidates ← orDiffer (Candidates.ofClasses res.refinement.signalClasses.values).propagated
  let classes := res.normClasses
  let start : Encoder := ⟨candidates, Draft.empty, []⟩
  let e ← orDiffer (start.round res policy threshold (policy.preliminary classes) [])
  let e ← (policy.rounds classes).foldlM
    (fun e (narrowed, encoded) => do
      deadline.check .encoding
      orDiffer (e.round res policy threshold narrowed encoded)) e
  return e.finish res policy threshold

-- ---------------------------------------------------------------------------
-- Decoding
-- ---------------------------------------------------------------------------

/-- Adds a matched pair to a mapping; a constraint keeps the first image that a norm gives it. -/
def Mapping.insertPair (leftNorms rightNorms : Array Norm) (m : Mapping) : PairVariable → Mapping
  | .signal l r => m.insertSignal l r
  | .norm l r =>
    m.insertConstraint (leftNorms[l]?.getD default).origin (rightNorms[r]?.getD default).origin

/-- The mapping of the pairs that hold in a model; the constant signal maps to itself. -/
def Mapping.decode (vars : Numbering PairVariable) (model : Model)
    (leftNorms rightNorms : Array Norm) : Mapping :=
  ((vars.bindings.filter fun b => model.isTrue b.1).map (·.2)).foldl
    (Mapping.insertPair leftNorms rightNorms)
    (Mapping.empty.insertSignal constantSignal constantSignal)

end CircuitEquiv
