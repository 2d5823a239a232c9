-- SUMMARY: What all reports have in common: mappings and times in JSON, and writing to files.
import CircuitEquiv.Interaction.Stopwatch
import CircuitEquiv.Mapping
import CircuitEquiv.Text.Json

/-!
# Writing reports

A report is a JSON document, indented, with a line break at its end.
-/

namespace CircuitEquiv

/-- Why a report is not written. -/
inductive WriteError where
  | unwritable (path : String)
deriving DecidableEq

/-- The message of an error. -/
def WriteError.message : WriteError → String
  | .unwritable path => s!"failed to write {path}"

/-- The object of a map between indices. -/
def indexMapJson (m : SortedMap Nat Nat) : Json :=
  .ofFields (m.entries.map fun (k, v) => (toString k, .nat v))

/-- The object of a mapping. -/
def Mapping.toJson (m : Mapping) : Json :=
  .ofFields [("coni", indexMapJson m.constraints), ("sig", indexMapJson m.signals)]

/-- The seconds of a time: whole ones and a fraction, each rounded. -/
def secondsOf (nanoseconds : Nat) : Float :=
  (nanoseconds / 1000000000).toFloat + (nanoseconds % 1000000000).toFloat / 1e9

/-- The object of named times, in the order of names. -/
def timesJson (times : List (String × Nat)) : Json :=
  .ofFields ((times.mergeSort fun x y => x.1 ≤ y.1).map fun (name, t) => (name, .ofFloat (secondsOf t)))

/-- The object of the times of stages. -/
def Timings.toJson {κ : Type} [Ord κ] (timings : Timings κ) (name : κ → String) : Json :=
  timesJson (timings.entries.map fun (stage, t) => (name stage, t))

/-- The text of a report. -/
def reportText (report : Json) : String := report.pretty ++ "\n"

/-- Writes a report to a file. -/
def writeReport (path : String) (report : Json) : ExceptT WriteError Interaction Unit := do
  if !(← Interaction.write path (reportText report)) then throw (.unwritable path)

end CircuitEquiv
