-- SUMMARY: The command that compares two circuits.
import CircuitEquiv.Circuit.Statistics
import CircuitEquiv.CommandLine.Command
import CircuitEquiv.Report.Verdict

/-!
# Comparing two circuits
-/

namespace CircuitEquiv

/-- The settings of the command. -/
structure CompareSettings where
  left : String := ""
  right : String := ""
  dialects : DialectFlags := {}
  equivalence : EquivalenceOptions := {}
  /-- Whether to search for the largest common part instead of an equivalence. -/
  isMaximal : Bool := false
  maximal : MaximalOptions := {}
  output : Option String := none
  statistics : Bool := false

namespace CompareSettings

/-- Changes the options of the comparison. -/
def mapEquivalence (f : EquivalenceOptions → EquivalenceOptions) (s : CompareSettings) :
    CompareSettings := { s with equivalence := f s.equivalence }

/-- Changes the options of the search for the largest common part. -/
def mapMaximal (f : MaximalOptions → MaximalOptions) (s : CompareSettings) : CompareSettings :=
  { s with maximal := f s.maximal }

/-- The arguments of the command. -/
def grammar : Grammar CompareSettings where
  name := "compare"
  description := "Decide whether two circuits are equal up to renaming signals, reordering " ++
    "constraints and scaling each constraint."
  positionals := [
    ⟨"LEFT", fun path s => { s with left := path }, "The left circuit"⟩,
    ⟨"RIGHT", fun path s => { s with right := path }, "The right circuit"⟩]
  options := dialectOptions (fun f s => { s with dialects := f s.dialects }) ++ [
    ⟨"policy", none,
      .choosing Policy.ofName? Policy.unknownMessage fun policy =>
        mapEquivalence ({ · with policy }),
      "How residual ambiguity is encoded for the solver"⟩,
    ⟨"timeout", none,
      .reading readSeconds fun t => mapEquivalence ({ · with timeout := some t }),
      "Time budget in seconds"⟩,
    ⟨"maximal-equivalence", none, .flag ({ · with isMaximal := true }),
      "Search for the largest common part instead of a full equivalence"⟩,
    ⟨"maxequiv-timeout", none,
      .reading readSeconds fun t => mapMaximal ({ · with timeout := some t }),
      "Time budget of the search for the largest common part in seconds"⟩,
    ⟨"maxequiv-tolerance", none,
      .reading readFraction fun tolerance => mapMaximal ({ · with tolerance }),
      "Smallest fraction of matched constraints that is accepted"⟩,
    ⟨"sanity-check", none, .flag (mapEquivalence ({ · with sanityCheck := true })),
      "Check the mapping against both circuits before reporting it"⟩,
    ⟨"output", some 'o', .reading readPath fun path s => { s with output := some path },
      "Where to write the JSON report"⟩,
    ⟨"stat", none, .flag ({ · with statistics := true }), "Print statistics of both circuits"⟩]
  conflicts := dialectConflicts
  requirements := []

/-- The settings before any argument is read. -/
def initial (dumpPath : Option String) : CompareSettings where
  equivalence := { dumpPath }
  maximal := { dumpPath }

end CompareSettings

/-- Prints the statistics of an input file. -/
def printStatistics (path : String) (circuit : Circuit) : ExceptT CommandError Interaction Unit :=
  printLine s!"{path}:\n{(Statistics.ofCircuit circuit).text}"

/-- The verdict of a search for the largest common part. -/
def Verdict.ofCommonPart (solve : Solver) (left right : Circuit) (options : MaximalOptions) :
    Attempt EquivalenceError Verdict := do
  let start ← Interaction.clock
  let result ← ExceptT.lift (maximalEquivalence solve left right options).run
  let finish ← Interaction.clock
  match result with
  | .ok found => return .commonPart found (finish - start)
  | .error e =>
    match Outcome.ofResult (.error e) with
    | .ok outcome =>
      return .compared outcome (SortedMap.empty.insert .maximalEquivalence (finish - start))
    | .error e => throw e

/-- The verdict that the settings ask for. -/
def CompareSettings.verdict (s : CompareSettings) (solve : Solver) (left right : Circuit) :
    Attempt EquivalenceError Verdict :=
  if s.isMaximal then Verdict.ofCommonPart solve left right s.maximal
  else Verdict.ofComparison <$> Comparison.ofCircuits solve left right s.equivalence

/-- Runs the command with settings. -/
def CompareSettings.run (solve : Solver) (s : CompareSettings) : Command := do
  let left ← loadCircuit s.dialects s.left
  let right ← loadCircuit s.dialects s.right
  if s.statistics then
    printStatistics s.left left
    printStatistics s.right right
  let verdict ← (s.verdict solve left right).adapt .equivalence
  printLine verdict.line
  match s.output with
  | none => pure ()
  | some path => (writeReport path verdict.toJson).adapt .write
  return verdict.outcome.exitCode

/-- The command that compares two circuits. -/
def compareCommand (solve : Solver) (dumpPath : Option String) (arguments : List String) : Command :=
  CompareSettings.grammar.run (.initial dumpPath) arguments (CompareSettings.run solve)

end CircuitEquiv
