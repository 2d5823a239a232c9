-- SUMMARY: A unary counter over literals, built by merging counters of parts.
import CircuitEquiv.Sat.Literal

/-!
# Totalizer

The outputs of a totalizer are literals that count the inputs in unary: the `k`-th one holds exactly
when at least `k` inputs hold. Counters of single literals are merged in the order of a queue.
-/

namespace CircuitEquiv.Totalizer

/-- The `k`-th output of a counter, which says that at least `k` inputs hold; none for `k = 0` and
past the end. -/
def atLeast? (outputs : List Literal) (k : Nat) : Option Literal :=
  match k with
  | 0 => none
  | k + 1 => outputs[k]?

/-- The clauses that tie outputs `i` of `a` and `j` of `b` to the outputs `out` of the sum: at least
`i` and at least `j` make at least `i + j`, and at most `i` and at most `j` make at most `i + j`. -/
def sumClauses (a b out : List Literal) (i j : Nat) : List Clause :=
  let lower := (atLeast? a i).toList.map Literal.negate ++ (atLeast? b j).toList.map Literal.negate ++
    (atLeast? out (i + j)).toList
  let upper := (atLeast? a (i + 1)).toList ++ (atLeast? b (j + 1)).toList ++
    (atLeast? out (i + j + 1)).toList.map Literal.negate
  (if 0 < i + j then [lower] else []) ++ (if i + j < a.length + b.length then [upper] else [])

/-- The counter of two counters, with fresh outputs from `next` on. -/
def merge (a b : List Literal) (next : Nat) : List Literal × List Clause :=
  let out := (List.range (a.length + b.length)).map fun k => Literal.positive (next + k)
  (out, (List.range (a.length + 1)).flatMap fun i =>
    (List.range (b.length + 1)).flatMap fun j => sumClauses a b out i j)

/-- Merges the first two counters of a queue and puts the result at its end, until one is left.
`clauses` holds the clauses so far. -/
def mergeAll (queue : List (List Literal)) (clauses : List Clause) (next : Nat) :
    List Literal × List Clause × Nat :=
  match queue with
  | [] => ([], clauses, next)
  | [outputs] => (outputs, clauses, next)
  | a :: b :: rest =>
    let (out, added) := merge a b next
    mergeAll (rest ++ [out]) (clauses ++ added) (next + out.length)
termination_by queue.length
decreasing_by simp

/-- The outputs of the counter of a list of literals, its clauses, and the next free id. -/
def ofLiterals (lits : List Literal) (next : Nat) : List Literal × List Clause × Nat :=
  mergeAll (lits.map ([·])) [] next

end CircuitEquiv.Totalizer
