-- SUMMARY: The command that takes a circuit apart.
import CircuitEquiv.Circuit.Statistics
import CircuitEquiv.CommandLine.Command
import CircuitEquiv.Report.NodeReport

/-!
# Taking a circuit apart
-/

namespace CircuitEquiv

/-- The settings of the command. -/
structure ClusterSettings where
  input : String := ""
  output : String := "."
  dialects : DialectFlags := {}
  options : DecompositionOptions := {}
  /-- Whether to look for near matches between classes. -/
  isMaximal : Bool := false
  maximal : MaximalOptions := {}
  includeMappings : Bool := false
  singleFile : Bool := false
  statistics : Bool := false

namespace ClusterSettings

/-- Changes the options of the decomposition. -/
def mapOptions (f : DecompositionOptions → DecompositionOptions) (s : ClusterSettings) :
    ClusterSettings := { s with options := f s.options }

/-- Changes the options of modularity optimisation. -/
def mapModularity (f : ModularityOptions → ModularityOptions) : ClusterSettings → ClusterSettings :=
  mapOptions fun o => { o with modularity := f o.modularity }

/-- Changes the options of the merge passes. -/
def mapMerges (f : MergeOptions → MergeOptions) : ClusterSettings → ClusterSettings :=
  mapOptions fun o => { o with merges := f o.merges }

/-- Changes the options of the classes. -/
def mapClasses (f : ClassOptions → ClassOptions) : ClusterSettings → ClusterSettings :=
  mapOptions fun o => { o with classes := f o.classes }

/-- Changes the options of the comparisons. -/
def mapEquivalence (f : EquivalenceOptions → EquivalenceOptions) :
    ClusterSettings → ClusterSettings :=
  mapClasses fun o => { o with equivalence := f o.equivalence }

/-- Changes the options of the search for near matches. -/
def mapMaximal (f : MaximalOptions → MaximalOptions) (s : ClusterSettings) : ClusterSettings :=
  { s with maximal := f s.maximal }

/-- The options about the files. -/
def fileOptions : List (CommandOption ClusterSettings) := [
  ⟨"output", some 'o', .reading readPath fun path s => { s with output := path },
    "Directory the JSON output is written to"⟩,
  ⟨"include-mappings", none, .flag ({ · with includeMappings := true }),
    "Write the mappings between class members"⟩,
  ⟨"single-json", none, .flag ({ · with singleFile := true }),
    "Write one JSON file instead of separate node and class files"⟩,
  ⟨"stat", none, .flag ({ · with statistics := true }), "Print statistics of the circuit"⟩]

/-- The options about clusters and merges. -/
def clusterOptions : List (CommandOption ClusterSettings) := [
  ⟨"clustering", some 'c',
    .choosing ClusteringStrategy.ofName? ClusteringStrategy.unknownMessage fun strategy =>
      mapOptions ({ · with strategy }),
    "Clustering strategy"⟩,
  ⟨"seed", none, .reading readWord fun seed => mapModularity ({ · with seed }),
    "Seed of the modularity optimiser"⟩,
  ⟨"leiden-iterations", none,
    .reading (readBounded 1 (UInt32.size - 1)) fun iterations => mapModularity ({ · with iterations }),
    "Passes of the iterated modularity optimiser"⟩,
  ⟨"resolution", none,
    .reading readNumber fun r => mapModularity ({ · with resolution := some r }),
    "Modularity resolution; defaults to the square root of the number of constraints"⟩,
  ⟨"automerge-only-nonlinear", none, .flag (mapMerges ({ · with onlyNonlinear := true })),
    "Merge adjacent nodes that are both purely nonlinear"⟩,
  ⟨"dont-automerge-passthrough", none, .flag (mapMerges ({ · with passthrough := false })),
    "Keep nodes whose signals only pass through"⟩,
  ⟨"automerge-single-linear", none, .flag (mapMerges ({ · with singleLinear := true })),
    "Merge nodes holding a single linear constraint into a neighbour"⟩]

/-- The options about classes. -/
def classOptions : List (CommandOption ClusterSettings) := [
  ⟨"equivalence", some 'e',
    .choosing EquivalenceDepth.ofName? EquivalenceDepth.unknownMessage fun depth =>
      mapClasses ({ · with depth }),
    "How far node classes are computed"⟩,
  ⟨"timeout", none, .reading readSeconds fun t => mapEquivalence ({ · with timeout := some t }),
    "Time budget of each pairwise equivalence check in seconds"⟩,
  ⟨"minimum-circuit-size", none,
    .reading (readBounded 0 (UInt64.size - 1)) fun minimumSize => mapClasses ({ · with minimumSize }),
    "Nodes with fewer constraints are never grouped with others"⟩,
  ⟨"policy", none,
    .choosing Policy.ofName? Policy.unknownMessage fun policy => mapEquivalence ({ · with policy }),
    "How pairwise checks encode residual ambiguity"⟩,
  ⟨"dont-undo-mapping", none, .flag (mapClasses ({ · with undoMapping := false })),
    "Report mappings in sub-circuit numbering instead of circuit signals"⟩,
  ⟨"sanity-check", none, .flag (mapEquivalence ({ · with sanityCheck := true })),
    "Check every mapping against both sub-circuits"⟩,
  ⟨"maximal-equivalence", none, .flag ({ · with isMaximal := true }),
    "Look for large common parts between non-equivalent classes"⟩,
  ⟨"maxequiv-timeout", none, .reading readSeconds fun t => mapMaximal ({ · with timeout := some t }),
    "Time budget of each search for a common part in seconds"⟩,
  ⟨"maxequiv-tolerance", none,
    .reading readFraction fun tolerance => mapMaximal ({ · with tolerance }),
    "Smallest fraction of matched constraints that counts as a near match"⟩,
  ⟨"maxequiv-merge", none, .flag (mapClasses ({ · with maximalMerge := true })),
    "Fold classes joined by a near match into one class"⟩]

/-- The arguments of the command. -/
def grammar : Grammar ClusterSettings where
  name := "cluster"
  description := "Split a circuit into a graph of sub-circuits and group the equivalent ones."
  positionals := [⟨"INPUT", fun path s => { s with input := path }, "The circuit to cluster"⟩]
  options := dialectOptions (fun f s => { s with dialects := f s.dialects }) ++ fileOptions ++
    clusterOptions ++ classOptions
  conflicts := dialectConflicts
  requirements := [("maxequiv-merge", "maximal-equivalence")]

/-- The settings before any argument is read. -/
def initial (dumpPath : Option String) : ClusterSettings where
  options := { classes := { equivalence := { dumpPath } } }
  maximal := { dumpPath }

/-- The options of the decomposition, with near matches if they are asked for. -/
def decomposition (s : ClusterSettings) : DecompositionOptions :=
  { s.options with
    classes := { s.options.classes with maximal := if s.isMaximal then some s.maximal else none } }

/-- Runs the command with settings. -/
def run (solve : Solver) (s : ClusterSettings) : Command := do
  let circuit ← loadCircuit s.dialects s.input
  if s.statistics then printLine (Statistics.ofCircuit circuit).text
  let found ← (Decomposition.ofCircuit solve circuit s.decomposition).adapt .decomposition
  let stem := (Path.stem? s.input).getD "circuit"
  let written ← (found.write s.includeMappings s.singleFile s.output stem).adapt .write
  let nLocal := found.classes.localClasses.length
  let nStructural := found.classes.structuralClasses.length
  printLine s!"{found.dag.size} nodes, {nLocal} local classes, {nStructural} structural classes"
  written.forM fun path => printLine s!"wrote {path}"
  return 0

end ClusterSettings

/-- The command that takes a circuit apart. -/
def clusterCommand (solve : Solver) (dumpPath : Option String) (arguments : List String) : Command :=
  ClusterSettings.grammar.run (.initial dumpPath) arguments (ClusterSettings.run solve)

end CircuitEquiv
