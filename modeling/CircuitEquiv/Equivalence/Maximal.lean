-- SUMMARY: The search for the largest set of constraints that two circuits have in common.
import CircuitEquiv.Equivalence.Encoding
import CircuitEquiv.Sat.Formula
import CircuitEquiv.Sat.Search
import CircuitEquiv.Sat.Totalizer

/-!
# The largest common part

Norms can be matched when they have the same shape under the roles of their signals, signals when
they have the same role; each is matched at most once. A literal per left constraint says that all
its norms are matched, and a counter over these literals demands more matched constraints than the
best mapping so far until no model is left.
-/

namespace CircuitEquiv

/-- A largest common part. -/
structure MaximalMatch where
  mapping : Mapping
  /-- The number of matched constraints. -/
  matched : Nat
  /-- The number of constraints of the larger circuit. -/
  total : Nat

/-- The fraction of matched constraints; nothing is a full match of nothing. -/
def matchRatio (matched total : Nat) : Float :=
  if total = 0 then 1.0 else matched.toFloat / total.toFloat

/-- The fraction of matched constraints. -/
def MaximalMatch.ratio (m : MaximalMatch) : Float := matchRatio m.matched m.total

/-- The formula of the search. -/
structure MaximalFormula where
  hard : List Clause
  /-- The clauses of the counter. -/
  bounds : List Clause
  /-- The literal of every left constraint that says it is matched. -/
  matched : List Literal
  /-- The outputs of the counter. -/
  counter : List Literal
  vars : Numbering PairVariable

/-- The place of a role in the order of roles. -/
def SignalRole.rank : SignalRole → Nat
  | .constant => 0
  | .output => 1
  | .input => 2
  | .internal => 3

namespace MaximalFormula

/-- The shape of a norm under the roles of its signals. -/
def roleShape (circuit : Circuit) (norm : Norm) : NormShape :=
  norm.constraint.shape fun s => .initial (circuit.role s).rank

/-- The norms of both sides by their shape under the roles. -/
def coarseClasses (left right : Circuit) (leftNorms rightNorms : Array Norm) :
    List (List Nat × List Nat) :=
  let side (circuit : Circuit) (norms : Array Norm) : List (NormShape × Nat) :=
    norms.toList.zipIdx.map fun (norm, n) => (roleShape circuit norm, n)
  let onLeft := SortedMap.groupValues (side left leftNorms)
  let onRight := SortedMap.groupValues (side right rightNorms)
  onLeft.entries.map fun (shape, norms) => (norms, onRight.getD shape [])

/-- The norm pairs that can be matched, with their shapes. -/
def matchablePairs (left right : Circuit) (leftNorms rightNorms : Array Norm) :
    List ((Nat × Nat) × PairShape) :=
  let constraint (norms : Array Norm) (n : Nat) : Constraint := (norms[n]?.getD default).constraint
  let sameRole (s t : Signal) : Bool := t < right.nSignals && left.role s = right.role t
  (coarseClasses left right leftNorms rightNorms).flatMap fun (ls, rs) =>
    ls.flatMap fun l => rs.filterMap fun r =>
      (PairShape.ofNorms? sameRole (constraint leftNorms l) (constraint rightNorms r)).map
        fun shape => ((l, r), shape)

/-- Lets at most one literal of each group hold. -/
def addGroups (threshold : Nat) (d : Draft) (groups : List (List Literal)) : Draft :=
  groups.foldl (fun d lits => d.addAtMostOne (.bySize lits.length threshold) lits) d

/-- The literals of norm pairs, each with the demands of its shape. -/
def addPairs (d : Draft) : List ((Nat × Nat) × PairShape) → List ((Nat × Nat) × Literal) × Draft
  | [] => ([], d)
  | ((l, r), shape) :: rest =>
    let (lit, d) := d.addNormPair l r shape
    let (lits, d) := addPairs d rest
    (((l, r), lit) :: lits, d)

/-- The literals of the left constraints: one that holds has a matched pair for each of its norms. -/
def addMatched (leftNorms : Array Norm) (byLeft : SortedMap Nat (List Literal)) (d : Draft) :
    List Nat → List Literal × Draft
  | [] => ([], d)
  | k :: rest =>
    let (lit, d) := d.auxiliary
    let d := d.addClauses ((Draft.siblings leftNorms k).map fun n => lit.negate :: byLeft.getD n [])
    let (lits, d) := addMatched leftNorms byLeft d rest
    (lit :: lits, d)

/-- The formula of two circuits. -/
def ofCircuits (left right : Circuit) (leftNorms rightNorms : Array Norm) (threshold : Nat) :
    MaximalFormula :=
  let (pairs, d) := addPairs Draft.empty (matchablePairs left right leftNorms rightNorms)
  let byLeft := SortedMap.groupValues (pairs.map fun ((l, _), lit) => (l, lit))
  let byRight := SortedMap.groupValues (pairs.map fun ((_, r), lit) => (r, lit))
  let d := addGroups threshold d (byLeft.values ++ byRight.values)
  let signals := d.vars.bindings.filterMap fun
    | (id, .signal s t) => some ((s, t), Literal.positive id)
    | _ => none
  let byLeftSignal := SortedMap.groupValues (signals.map fun ((s, _), lit) => (s, lit))
  let byRightSignal := SortedMap.groupValues (signals.map fun ((_, t), lit) => (t, lit))
  let d := addGroups threshold d (byLeftSignal.values ++ byRightSignal.values)
  let (matched, d) := addMatched leftNorms byLeft d (List.range left.nConstraints)
  let (counter, bounds, next) := Totalizer.ofLiterals matched d.vars.nextId
  let d := { d with vars := d.vars.skipTo next }
  let d := d.addSiblings leftNorms rightNorms
  ⟨d.clauses.toList, bounds, matched, counter, d.vars⟩

/-- The weighted formula that is written out: matched constraints count one each. -/
def weighted (f : MaximalFormula) : WeightedFormula := ⟨f.hard, f.matched.map fun l => ([l], 1)⟩

/-- The mapping of a model, restricted to the constraints whose literals hold. -/
def decode (f : MaximalFormula) (model : Model) (left : Circuit) (leftNorms rightNorms : Array Norm) :
    Mapping :=
  let m := Mapping.decode f.vars model leftNorms rightNorms
  let kept := m.constraints.filter fun k _ => (f.matched[k]?.map model.value).getD false
  { m with constraints := kept }.restrictToConstraints left

end MaximalFormula

-- ---------------------------------------------------------------------------
-- Search
-- ---------------------------------------------------------------------------

/-- Asks for mappings of more and more constraints until there is no larger one. The deadline is
checked before every call of the solver. -/
def improve (solve : Solver) (f : MaximalFormula) (decode : Model → Mapping) (deadline : Deadline) :
    Nat → Option Mapping → List Literal → Attempt EquivalenceError (Option Mapping)
  | 0, best, _ => return best
  | fuel + 1, best, assumptions => do
    if ← deadline.isExpired then throw (.timeout .maximalEquivalence best)
    match solve (f.hard ++ f.bounds) assumptions with
    | none => return best
    | some model =>
      let mapping := decode model
      match Totalizer.atLeast? f.counter (mapping.constraints.size + 1) with
      | none => return some mapping
      | some bound => improve solve f decode deadline fuel (some mapping) [bound]

/-- Refuses circuits of different dialects or fields. -/
def checkComparable (left right : Circuit) : Except Difference Unit :=
  if left.dialect ≠ right.dialect then .error (.dialects left.dialect right.dialect)
  else if left.field ≠ right.field then .error .fields
  else .ok ()

/-- Writes a formula to a file, if one is named. -/
def dumpFormula (path : Option String) (text : String) : Attempt EquivalenceError Unit := do
  match path with
  | none => return ()
  | some path => if !(← Interaction.write path text) then throw (.dump path)

/-- The largest common part of two circuits, if it reaches the tolerance. -/
def maximalEquivalence (solve : Solver) (left right : Circuit) (options : MaximalOptions) :
    Attempt EquivalenceError MaximalMatch := do
  orDiffer (checkComparable left right)
  let deadline ← Deadline.after options.timeout
  let leftNorms := left.normalize
  let rightNorms := right.normalize
  let f := MaximalFormula.ofCircuits left right leftNorms rightNorms options.pairwiseThreshold
  dumpFormula options.dumpPath f.weighted.text
  let best ← improve solve f (f.decode · left leftNorms rightNorms) deadline
    (left.nConstraints + 1) none []
  let mapping := best.getD Mapping.empty
  let matched := mapping.constraints.size
  let total := max left.nConstraints right.nConstraints
  if matchRatio matched total < options.tolerance then
    throw (.notEquivalent (.belowTolerance matched total options.tolerance))
  return ⟨mapping, matched, total⟩

end CircuitEquiv
