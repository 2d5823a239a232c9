-- SUMMARY: What the commands share: errors, exit codes, the dialect of an input file, and reading it.
import CircuitEquiv.CommandLine.Grammar
import CircuitEquiv.CommandLine.Value
import CircuitEquiv.Dag.Error
import CircuitEquiv.File.CircuitFile
import CircuitEquiv.File.Path
import CircuitEquiv.Report.Writing

/-!
# Commands
-/

namespace CircuitEquiv

/-- Why a command fails. -/
inductive CommandError where
  | usage (e : UsageError)
  | read (path : String) (dialect : Dialect) (e : ReadError)
  | equivalence (e : EquivalenceError)
  | decomposition (e : StructureError)
  | write (e : WriteError)

namespace CommandError

/-- The message of an error. -/
def message : CommandError → String
  | usage e => e.message
  | read path dialect e => s!"Failed to read {dialect.name} circuit from {path}: {e.message}"
  | equivalence e => s!"Equivalence check failed: {e.message}"
  | decomposition e => s!"Clustering failed: {e.message}"
  | write e => s!"Failed to write the report: {e.message}"

/-- The exit code of every error. -/
def exitCode : Nat := 3

end CommandError

/-- A command: it ends with an exit code or an error. -/
abbrev Command := ExceptT CommandError Interaction Nat

/-- The exit code of a command that ended. -/
def exitCodeOf : Except CommandError Nat → Nat
  | .ok code => code
  | .error _ => CommandError.exitCode

-- ---------------------------------------------------------------------------
-- Input files
-- ---------------------------------------------------------------------------

/-- The flags that fix the dialect of the input files. -/
structure DialectFlags where
  r1cs : Bool := false
  acir : Bool := false

/-- The dialect of an input file: the one that is fixed, or else the one its extension stands for. -/
def DialectFlags.dialect (flags : DialectFlags) (path : String) : Dialect :=
  if flags.acir then .acir
  else if flags.r1cs then .r1cs
  else if Path.extension? path = some "json" then .acir
  else .r1cs

/-- Reads the circuit of an input file. -/
def loadCircuit (flags : DialectFlags) (path : String) : ExceptT CommandError Interaction Circuit := do
  let dialect := flags.dialect path
  (ExceptT.mk (Circuit.load dialect path)).adapt (.read path dialect)

/-- The options that fix the dialect. -/
def dialectOptions {σ : Type} (set : (DialectFlags → DialectFlags) → σ → σ) :
    List (CommandOption σ) :=
  [⟨"r1cs", none, .flag (set fun flags => { flags with r1cs := true }), "Read binary R1CS files"⟩,
   ⟨"acir", none, .flag (set fun flags => { flags with acir := true }), "Read ACIR JSON files"⟩]

/-- The two options exclude each other. -/
def dialectConflicts : List (String × String) := [("r1cs", "acir")]

/-- Prints a line. -/
def printLine (text : String) : ExceptT CommandError Interaction Unit :=
  ExceptT.lift (Interaction.say (text ++ "\n"))

/-- Reads the arguments and goes on with the settings, or prints the help text. -/
def Grammar.run {σ : Type} (g : Grammar σ) (settings : σ) (arguments : List String)
    (body : σ → Command) : Command :=
  match g.read settings arguments with
  | .ok settings => body settings
  | .error .help => do
    ExceptT.lift (Interaction.say g.helpText)
    return 0
  | .error (.refused e) => throw (.usage e)

end CircuitEquiv
