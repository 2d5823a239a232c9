-- SUMMARY: Numbering the variables of clauses without gaps.
import CircuitEquiv.Sat.Literal
import Std.Data.HashMap

/-!
# Renumbering

The variables of clauses can be far apart. A renumbering counts the variables that occur, so that
tables over them stay small.
-/

namespace CircuitEquiv

/-- Renames the variable of a literal. -/
def Literal.rename (f : Nat → Nat) (l : Literal) : Literal := ⟨f l.var, l.isPositive⟩

/-- Renames the variables of clauses. -/
def Clause.renameAll (f : Nat → Nat) (clauses : List Clause) : List Clause :=
  clauses.map fun c => c.map (·.rename f)

/-- Renamed clauses hold where the clauses do under the renamed assignment. -/
theorem Clause.allHold_renameAll (f : Nat → Nat) (clauses : List Clause) (v : Nat → Bool) :
    Clause.allHold (renameAll f clauses) v = Clause.allHold clauses fun x => v (f x) := by
  simp only [allHold, renameAll, List.all_map]
  congr 1
  funext c
  simp only [Function.comp, Clause.holds, List.any_map]
  rfl

/-- A numbering of variables. -/
structure Renumbering where
  /-- The variable of a number. -/
  vars : Array Nat
  /-- The number of a variable. -/
  numbers : Std.HashMap Nat Nat

namespace Renumbering

/-- Gives a variable the next number, unless it has one. -/
def add (r : Renumbering) (v : Nat) : Renumbering :=
  match r with
  | ⟨vars, numbers⟩ =>
    if numbers.contains v then ⟨vars, numbers⟩
    else
      let n := vars.size
      ⟨vars.push v, numbers.insert v n⟩

/-- Numbers the variables of clauses in the order in which they occur. -/
def ofClauses (clauses : List Clause) : Renumbering :=
  clauses.foldl (fun r c => c.foldl (fun r l => r.add l.var) r) ⟨#[], ∅⟩

/-- The number of a variable. -/
def numberOf (r : Renumbering) (v : Nat) : Nat := r.numbers.getD v 0

/-- The variable of a number. -/
def variableOf (r : Renumbering) (n : Nat) : Nat := r.vars.getD n 0

/-- The clauses over numbers. -/
def apply (r : Renumbering) (clauses : List Clause) : List Clause :=
  Clause.renameAll r.numberOf clauses

/-- The clauses over variables. -/
def restore (r : Renumbering) (clauses : List Clause) : List Clause :=
  Clause.renameAll r.variableOf clauses

end Renumbering

end CircuitEquiv
