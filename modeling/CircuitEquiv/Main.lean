-- SUMMARY: The program: it carries interactions out and chooses the command by its name.
import CircuitEquiv.CommandLine.Cluster
import CircuitEquiv.CommandLine.Compare
import CircuitEquiv.Sat.Search

/-!
# The program

The first argument names a command, `compare` or `cluster`; the others are its own.
-/

namespace CircuitEquiv

/-- Whether an action ends without an error. -/
def succeeds (action : IO Unit) : IO Bool :=
  tryCatch (do action; return true) fun _ => return false

/-- Carries an interaction out. -/
def Interaction.carryOut {α : Type} : Interaction α → IO α
  | .done a => return a
  | .readClock next => do (next (← IO.monoNanosNow)).carryOut
  | .readFile path next => do
    let content ← tryCatch (some <$> IO.FS.readBinFile path) fun _ => return none
    (next (content.map (·.data.toList))).carryOut
  | .writeFile path content next => do
    (next (← succeeds (IO.FS.writeFile path content))).carryOut
  | .makeDirectory path next => do (next (← succeeds (IO.FS.createDirAll path))).carryOut
  | .print text next => do
    IO.print text
    next.carryOut

/-- The environment variable that names the file formulas are written to. -/
def dumpVariable : String := "CIRCUIT_EQUIV_DUMP_CNF"

/-- The command of a name. -/
def commandOfName? (name : String) : Option (Option String → List String → Command) :=
  if name = "compare" then some (compareCommand Search.solve)
  else if name = "cluster" then some (clusterCommand Search.solve)
  else none

/-- Runs the command that the arguments begin with. -/
def runProgram (arguments : List String) : IO UInt32 := do
  let dumpPath ← IO.getEnv dumpVariable
  match arguments with
  | [] => refuse
  | name :: rest =>
    match commandOfName? name with
    | none => refuse
    | some command =>
      let result ← (command dumpPath rest).run.carryOut
      match result with
      | .ok _ => pure ()
      | .error e => IO.eprintln s!"Error: {e.message}"
      return (exitCodeOf result).toUInt32
where
  /-- Reports that there is no such command. -/
  refuse : IO UInt32 := do
    IO.eprintln "Error: the first argument has to be compare or cluster"
    return CommandError.exitCode.toUInt32

end CircuitEquiv

/-- Runs the program. -/
def main (arguments : List String) : IO UInt32 := CircuitEquiv.runProgram arguments
