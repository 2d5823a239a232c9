-- SUMMARY: What a solver is, and when it is correct.
import CircuitEquiv.Sat.Literal

/-!
# Solvers
-/

namespace CircuitEquiv

/-- A procedure that finds a model of clauses under assumptions if there is one. -/
abbrev Solver := List Clause → List Literal → Option Model

/-- A solver is correct when its models are models, and it finds none only where there is none. -/
structure Solver.Correct (solve : Solver) : Prop where
  sound : ∀ clauses assumptions model, solve clauses assumptions = some model →
    Clause.allHold clauses model.isTrue ∧ ∀ l ∈ assumptions, l.holds model.isTrue
  complete : ∀ clauses assumptions, solve clauses assumptions = none →
    ∀ v : Nat → Bool, ¬(Clause.allHold clauses v ∧ ∀ l ∈ assumptions, l.holds v)

end CircuitEquiv
