-- SUMMARY: The texts in which formulas are exchanged, with and without weights.
import CircuitEquiv.Sat.Literal

/-!
# Formula texts

A formula is written as a header line and one line per clause, each closed by a zero. Assumptions
are written as clauses of one literal, so the text stands on its own. In a weighted formula every
line begins with a weight; the hard clauses carry one more than all soft weights together, in 64 bits.
-/

namespace CircuitEquiv

/-- The line of a clause. -/
def Clause.line (c : Clause) : String := String.join (c.map fun l => l.text ++ " ") ++ "0\n"

/-- The text of the clauses together with the assumptions. -/
def formulaText (clauses : List Clause) (assumptions : List Literal) : String :=
  let all := clauses ++ assumptions.map ([·])
  s!"p cnf {Clause.maxVar all} {all.length}\n" ++ String.join (all.map Clause.line)

/-- Clauses that must hold, and clauses of which as many as possible are to hold, by weight. Weights
    are words: their sum starts again at zero when it outgrows 64 bits. -/
structure WeightedFormula where
  hard : List Clause
  soft : List (Clause × UInt64)

namespace WeightedFormula

/-- The weight that marks a hard clause. -/
def top (w : WeightedFormula) : UInt64 := w.soft.foldl (fun sum (_, weight) => sum + weight) 1

/-- The largest variable. -/
def maxVar (w : WeightedFormula) : Nat := Clause.maxVar (w.hard ++ w.soft.map (·.1))

/-- The text of a weighted formula. -/
def text (w : WeightedFormula) : String :=
  s!"p wcnf {w.maxVar} {w.hard.length + w.soft.length} {w.top}\n" ++
    String.join (w.hard.map fun c => s!"{w.top} " ++ c.line) ++
    String.join (w.soft.map fun (c, weight) => s!"{weight} " ++ Clause.line c)

end WeightedFormula

end CircuitEquiv
