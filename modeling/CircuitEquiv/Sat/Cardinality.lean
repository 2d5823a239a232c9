-- SUMMARY: Clauses saying that at most one, or exactly one, of some literals holds.
import CircuitEquiv.Sat.Literal

/-!
# Cardinality constraints

The clauses that let at most one of a list of literals hold. Auxiliary variables are numbered from
the given id on, and every function returns the next id that is free.
-/

namespace CircuitEquiv

/-- How an at-most-one constraint is spelled out. -/
inductive AtMostOne where
  /-- One clause for each pair of literals. -/
  | pairwise
  /-- A counter that runs along the literals: an auxiliary variable for each but the last one says
  that a literal up to there holds. -/
  | sequential
deriving DecidableEq

namespace AtMostOne

/-- The name of an encoding. -/
def name : AtMostOne → String
  | pairwise => "Pairwise"
  | sequential => "Sequential"

/-- Pairwise up to `threshold` literals, sequential above. -/
def bySize (n threshold : Nat) : AtMostOne := if n ≤ threshold then pairwise else sequential

/-- A clause for each pair of literals. -/
def pairClauses : List Literal → List Clause
  | [] => []
  | l :: rest => rest.map (fun m => [l.negate, m.negate]) ++ pairClauses rest

/-- The clauses of the counter behind its first variable: `previous` says that an earlier literal
holds, and the ids of the variables of the literals but the last begin at `next`. -/
def counterClauses (previous : Nat) (next : Nat) : List Literal → List Clause
  | [] => []
  | [last] => [[last.negate, .negative previous]]
  | l :: rest =>
    [l.negate, .positive next] :: [.negative previous, .positive next] ::
      [l.negate, .negative previous] :: counterClauses next (next + 1) rest

/-- The clauses of an at-most-one constraint, and the next free id. -/
def clauses (encoding : AtMostOne) (lits : List Literal) (next : Nat) : List Clause × Nat :=
  match lits, encoding with
  | [], _ => ([], next)
  | [_], _ => ([], next)
  | lits, pairwise => (pairClauses lits, next)
  | l :: rest, sequential =>
    ([l.negate, .positive next] :: counterClauses next (next + 1) rest, next + rest.length)

/-- The clauses that let exactly one of the literals hold, and the next free id. -/
def exactlyOne (encoding : AtMostOne) (lits : List Literal) (next : Nat) : List Clause × Nat :=
  let (amo, next) := encoding.clauses lits next
  (lits :: amo, next)

end AtMostOne

end CircuitEquiv
