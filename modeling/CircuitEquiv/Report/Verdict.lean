-- SUMMARY: The report on a pair of circuits.
import CircuitEquiv.Equivalence
import CircuitEquiv.Equivalence.Maximal
import CircuitEquiv.Report.Writing

/-!
# Verdicts
-/

namespace CircuitEquiv

/-- What is reported on a pair of circuits. -/
inductive Verdict where
  /-- The outcome of a comparison with the times of its phases. -/
  | compared (outcome : Outcome) (timings : Timings Phase)
  /-- A largest common part with the time of the search. -/
  | commonPart (found : MaximalMatch) (elapsed : Nat)

namespace Verdict

/-- The verdict of a comparison. -/
def ofComparison (c : Comparison) : Verdict := compared c.outcome c.timings

/-- The outcome that a verdict stands for; a large common part counts as an equivalence. -/
def outcome : Verdict → Outcome
  | compared outcome _ => outcome
  | commonPart found _ => .equivalent found.mapping

/-- The explanation of a verdict. -/
def explanation : Verdict → String
  | compared outcome _ => outcome.explanation
  | commonPart found _ => s!"{found.matched} of {found.total} constraints matched"

/-- The times of a verdict. -/
def timings : Verdict → Timings Phase
  | compared _ timings => timings
  | commonPart _ elapsed => SortedMap.empty.insert .maximalEquivalence elapsed

/-- The numbers of matched and of all constraints. -/
def counts : Verdict → List (String × Json)
  | compared .. => []
  | commonPart found _ => [("matched", .nat found.matched), ("total", .nat found.total)]

/-- The report. -/
def toJson (v : Verdict) : Json :=
  .ofFields ([("result", .text v.outcome.name), ("result_explanation", .text v.explanation),
      ("timing", v.timings.toJson Phase.name)] ++
    v.counts ++ v.outcome.mapping?.toList.map fun m => ("mapping", m.toJson))

/-- The line that is printed. -/
def line (v : Verdict) : String := s!"{v.outcome.name}: {v.explanation}"

end Verdict

end CircuitEquiv
