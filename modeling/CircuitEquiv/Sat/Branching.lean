-- SUMMARY: A complete search for assignments that make clauses hold, by propagation and branching.
import CircuitEquiv.Data.Total
import CircuitEquiv.Sat.PartialAssignment

/-!
# Branching

The search keeps the values of some variables. It first propagates: a clause of one literal forces
that literal, and a clause without literals ends the branch. Where every clause that is left has a
negation, all of them hold when the other variables are false. Otherwise the search picks a shortest
clause without negations and tries its first literal, then the opposite one.
-/

namespace CircuitEquiv.Branching

-- ---------------------------------------------------------------------------
-- Propagation
-- ---------------------------------------------------------------------------

/-- Goes through the clauses once: drops those that hold, shortens the others, and lets the literal
of a clause of one literal hold. None stands for a clause without literals. -/
def sweep (a : PartialAssignment) : List Clause → Option (PartialAssignment × List Clause)
  | [] => some (a, [])
  | c :: rest =>
    if c.any (a.value? · = some true) then sweep a rest
    else
      match c.filter (a.value? · = none) with
      | [] => none
      | [l] => sweep (a.assign l) rest
      | shorter => (sweep a rest).map fun (a, rest) => (a, shorter :: rest)

/-- Sweeps until no clause is dropped any more. -/
def propagate : Nat → PartialAssignment → List Clause → Option (PartialAssignment × List Clause)
  | 0, a, clauses => some (a, clauses)
  | fuel + 1, a, clauses =>
    match sweep a clauses with
    | none => none
    | some (a, rest) =>
      if rest.length = clauses.length then some (a, rest) else propagate fuel a rest

-- ---------------------------------------------------------------------------
-- Branching
-- ---------------------------------------------------------------------------

/-- The first of the shortest clauses. -/
def shortest? : List Clause → Option Clause
  | [] => none
  | c :: rest =>
    match shortest? rest with
    | none => some c
    | some d => if c.length ≤ d.length then some c else some d

/-- The literal to branch on: the first one of a shortest clause without negations. -/
def branch? (clauses : List Clause) : Option Literal :=
  (shortest? (clauses.filter fun c => c.all (·.isPositive))).bind List.head?

/-- The number of literals and clauses; every branch makes it smaller. -/
def weight (clauses : List Clause) : Nat := total (clauses.map (·.length + 1))

/-- Searches for an assignment that makes all clauses hold. -/
def run : Nat → PartialAssignment → List Clause → Option PartialAssignment
  | 0, _, _ => none
  | fuel + 1, a, clauses =>
    match propagate (clauses.length + 1) a clauses with
    | none => none
    | some (a, clauses) =>
      match branch? clauses with
      | none => some a
      | some l =>
        match run fuel (a.assign l) clauses with
        | some found => some found
        | none => run fuel (a.assign l.negate) clauses

/-- Searches for an assignment that makes all clauses hold, from an empty one. -/
def findAssignment (clauses : List Clause) : Option PartialAssignment :=
  run (weight clauses + 1) (.empty clauses) clauses

end CircuitEquiv.Branching
