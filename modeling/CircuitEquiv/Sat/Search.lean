-- SUMMARY: The solver: learning from conflicts, with branching as the last resort; and the listing of all models.
import CircuitEquiv.Sat.Branching
import CircuitEquiv.Sat.Learning
import CircuitEquiv.Sat.Renumbering
import CircuitEquiv.Sat.Solver

/-!
# Searching for models

The search that learns is fast, but nothing is proved about it besides what it refutes. Where it
neither refutes the clauses nor finds an assignment that makes them hold, branching decides.
-/

namespace CircuitEquiv

namespace Search

/-- A model of clauses, if there is one, by branching alone. -/
def branchForModel (clauses : List Clause) : Option Model :=
  (Branching.findAssignment clauses).map PartialAssignment.toModel

/-- The model of an assignment of numbers, if each of the true ones belongs to one variable. -/
def modelOfNumbers? (r : Renumbering) (a : PartialAssignment) : Option Model :=
  let numbers := (List.range a.size).filter a.isTrue
  if numbers.all fun n => r.numberOf (r.variableOf n) == n then
    some (.ofTrueVars (numbers.map r.variableOf))
  else none

/-- A model of clauses, if there is one. -/
def findModel (clauses : List Clause) : Option Model :=
  let r := Renumbering.ofClauses clauses
  let numbered := r.apply clauses
  if r.restore numbered = clauses then
    match Learning.search numbered with
    | .refuted _ => none
    | .assigned a =>
      if Clause.allHold numbered a.isTrue then
        match modelOfNumbers? r a with
        | some model => some model
        | none => branchForModel clauses
      else branchForModel clauses
    | .undecided => branchForModel clauses
  else branchForModel clauses

/-- Finds a model of clauses under assumptions, if there is one. -/
def solve : Solver := fun clauses assumptions =>
  findModel (assumptions.map ([·]) ++ clauses)

end Search

/-! ## All models -/

/-- The literals of the given variables that hold in a model. -/
def Model.project (m : Model) (vars : List Nat) : List Literal :=
  vars.map fun v => ⟨v, m.isTrue v⟩

/-- Finds models one after the other, each time adding the clause that rules the last one out;
`fuel` bounds their number. -/
def modelsFrom (solve : Solver) (ruleOut : Model → Clause) (assumptions : List Literal) :
    Nat → List Clause → List Model
  | 0, _ => []
  | fuel + 1, clauses =>
    match solve clauses assumptions with
    | none => []
    | some m => m :: modelsFrom solve ruleOut assumptions fuel (ruleOut m :: clauses)

/-- One model for each assignment of the given variables that can be extended to a model. -/
def models (solve : Solver) (vars : List Nat) (clauses : List Clause)
    (assumptions : List Literal) : List Model :=
  modelsFrom solve (fun m => (m.project vars).map Literal.negate) assumptions (Nat.pow 2 vars.length)
    clauses

/-- Models that do not make true all of the given variables that an earlier one does. Where no model
makes more of them true than another, these are the `models`, and the clauses are shorter. -/
def incomparableModels (solve : Solver) (vars : List Nat) (clauses : List Clause)
    (assumptions : List Literal) : List Model :=
  modelsFrom solve (fun m => ((m.project vars).filter (·.isPositive)).map Literal.negate)
    assumptions (Nat.pow 2 vars.length) clauses

end CircuitEquiv
