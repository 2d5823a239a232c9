-- SUMMARY: The comparison of two circuits up to renaming signals, reordering and scaling constraints.
import CircuitEquiv.Equivalence.Maximal
import CircuitEquiv.Equivalence.Outcome

/-!
# Comparing circuits

Two circuits are equivalent when one becomes the other by renaming signals, reordering constraints
and scaling constraints. The comparison goes from cheap to expensive: sizes, numbers of norms,
refinement, and last a search for a model of what refinement leaves open.
-/

namespace CircuitEquiv

/-- The options of the search that decides equivalence by the largest common part. -/
def EquivalenceOptions.forMaximal (options : EquivalenceOptions) : MaximalOptions where
  timeout := options.timeout
  tolerance := 1.0
  pairwiseThreshold := options.pairwiseThreshold
  dumpPath := options.dumpPath

namespace Comparison

/-- Steps of a comparison that record times and can fail. -/
abbrev Steps := ExceptT EquivalenceError (Timed Phase)

/-- A step that counts as no phase. -/
def untimed {α : Type} (x : Attempt EquivalenceError α) : Steps α :=
  (fun timings => do return (← x.run, timings) : Timed Phase (Except EquivalenceError α))

/-- A step whose time is recorded under a phase. -/
def inPhase {α : Type} (phase : Phase) (x : Unit → Attempt EquivalenceError α) : Steps α :=
  (timed phase fun _ => (x ()).run : Timed Phase (Except EquivalenceError α))

/-- Refuses circuits that differ in dialect, field or size. -/
def checkSizes (left right : Circuit) : Except Difference Unit := do
  checkComparable left right
  let counts := [
    ("constraints", left.nConstraints, right.nConstraints),
    ("signals", left.nSignals, right.nSignals),
    ("inputs", left.inputs.size, right.inputs.size),
    ("outputs", left.outputs.size, right.outputs.size)]
  counts.forM fun (what, l, r) => if l = r then .ok () else .error (.counts what l r)

/-- Refuses a mapping that is no equivalence, where that is asked for. -/
def checkSanity (options : EquivalenceOptions) (left right : Circuit) (m : Mapping) :
    Except EquivalenceError Unit :=
  if options.sanityCheck then (m.sanityCheck left right).mapError .insane else .ok ()

/-- Pairs the signals of each role that a mapping leaves out, in ascending order. -/
def pairUnused (left right : Circuit) (m : Mapping) : Mapping :=
  let images := SortedSet.ofList m.signals.values
  let unmapped (circuit : Circuit) (isMapped : Signal → Bool) (role : SignalRole) : List Signal :=
    (List.range circuit.nSignals).filter fun s => !isMapped s && circuit.role s = role
  let pairs := [SignalRole.constant, .output, .input, .internal].flatMap fun role =>
    (unmapped left m.signals.contains role).zip (unmapped right (· ∈ images) role)
  pairs.foldl (fun m (l, r) => m.insertSignal l r) m

/-- Decides equivalence by the largest common part. -/
def searchMaximal (solve : Solver) (left right : Circuit) (options : EquivalenceOptions) :
    Steps Mapping := do
  let best ← inPhase .maximalEquivalence fun _ =>
    maximalEquivalence solve left right options.forMaximal
  let m := pairUnused left right best.mapping
  untimed (checkSanity options left right m)
  return m

/-- The mapping that a discrete refinement determines, if it is an equivalence. -/
def settledMapping? (left right : Circuit) (res : Residual) : Option Mapping :=
  if res.refinement.isDiscrete then
    (Mapping.ofRefinement? res.refinement res.leftNorms res.rightNorms).filter
      (Mapping.isEquivalence left right)
  else none

/-- The mappings that models of an encoding stand for, each once and in order. Every item has one
partner in a model, so no model makes more pairs true than another. -/
def encodedMappings (solve : Solver) (encoding : Encoding) (res : Residual) : List Mapping :=
  let found := incomparableModels solve (encoding.vars.bindings.map (·.1)) encoding.clauses
    encoding.assumptions
  let decoded := found.map fun m => Mapping.decode encoding.vars m res.leftNorms res.rightNorms
  (SortedMap.ofList (decoded.map fun m => ((m.signals.entries, m.constraints.entries), m))).values

/-- Encodes what refinement leaves open and searches for a model. -/
def searchResidual (solve : Solver) (left right : Circuit) (options : EquivalenceOptions)
    (deadline : Deadline) (res : Residual) : Steps Mapping := do
  let encoding ← inPhase .encoding fun _ =>
    encode res options.policy options.pairwiseThreshold deadline
  untimed (dumpFormula options.dumpPath (formulaText encoding.clauses encoding.assumptions))
  untimed (deadline.check .encoding)
  match ← inPhase .solving fun _ => return solve encoding.clauses encoding.assumptions with
  | none => throw (.notEquivalent .unsatisfiable)
  | some model =>
    let m := Mapping.decode encoding.vars model res.leftNorms res.rightNorms
    untimed (checkSanity options left right m)
    return m

/-- Decides equivalence by refinement, and by a search where that leaves classes open. -/
def searchRefined (solve : Solver) (left right : Circuit) (options : EquivalenceOptions)
    (deadline : Deadline) : Steps Mapping := do
  let (leftNorms, rightNorms) ← inPhase .normalization fun _ =>
    return (left.normalize, right.normalize)
  if leftNorms.size ≠ rightNorms.size then
    throw (.notEquivalent (.counts "norms" leftNorms.size rightNorms.size))
  untimed (deadline.check .normalization)
  let refinement ← inPhase .fingerprinting fun _ =>
    orDiffer (Refinement.pair left leftNorms right rightNorms)
  untimed (deadline.check .fingerprinting)
  let res : Residual := ⟨leftNorms, rightNorms, refinement⟩
  match settledMapping? left right res with
  | some m => return m
  | none => searchResidual solve left right options deadline res

/-- Finds a mapping between two circuits. -/
def search (solve : Solver) (left right : Circuit) (options : EquivalenceOptions) :
    Steps Mapping := do
  let deadline ← untimed (Deadline.after options.timeout)
  untimed (orDiffer (checkSizes left right))
  match options.policy with
  | .maxSat => searchMaximal solve left right options
  | _ => searchRefined solve left right options deadline

/-- Compares two circuits. -/
def ofCircuits (solve : Solver) (left right : Circuit) (options : EquivalenceOptions) :
    Attempt EquivalenceError Comparison := do
  let (result, timings) ← (search solve left right options).run SortedMap.empty
  match Outcome.ofResult result with
  | .ok outcome => return ⟨outcome, timings⟩
  | .error e => throw e

end Comparison

end CircuitEquiv
