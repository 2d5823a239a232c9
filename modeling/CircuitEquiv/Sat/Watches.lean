-- SUMMARY: Clauses watched by two of their literals, and propagation along the watches.
import CircuitEquiv.Sat.Trail

/-!
# Watches

A clause forces nothing as long as two of its literals are not false. So it is looked at only when
one of the two literals that watch it becomes false, and then another literal takes over the watch
if there is one. Literals are given by their codes, clauses by their numbers.
-/

namespace CircuitEquiv

/-- Clauses and the literals that watch them. -/
structure Watches where
  /-- The literals of the clauses. -/
  table : Array (Array Nat)
  /-- The sum of the two literals that watch a clause. -/
  sums : Array Nat
  /-- The clauses that a literal watches, each followed by another literal of the clause, its
  guard: as long as that one holds, the clause need not be looked at. -/
  lists : Array (Array Nat)

namespace Watches

/-- No clauses, for so many variables. -/
def empty (nVars : Nat) : Watches := ⟨#[], #[], Array.replicate (2 * nVars) #[]⟩

/-- Adds a clause that is watched by the given literals. -/
def add (w : Watches) (codes : Array Nat) (x y : Nat) : Watches :=
  let i := w.table.size
  let lists := w.lists.modify x fun list => (list.push i).push y
  let lists := lists.modify y fun list => (list.push i).push x
  { table := w.table.push codes, sums := w.sums.push (x + y), lists }

/-- The first so many pairs of a list of watches, less those whose clauses are not to be kept. -/
def keepPairs (keep : Nat → Bool) (list : Array Nat) : Nat → Array Nat → Array Nat
  | 0, kept => kept
  | k + 1, kept =>
    let i := list.getD (2 * k) 0
    keepPairs keep list k (if keep i then (kept.push i).push (list.getD (2 * k + 1) 0) else kept)

/-- Takes clauses out. -/
def drop (w : Watches) (gone : List Nat) : Watches :=
  let isGone := gone.foldl (fun a i => a.setIfInBounds i true) (Array.replicate w.table.size false)
  { w with
    table := gone.foldl (fun table i => table.setIfInBounds i #[]) w.table
    lists := w.lists.map fun list =>
      keepPairs (fun i => !isGone.getD i false) list (list.size / 2) #[] }

-- ---------------------------------------------------------------------------
-- Propagation
-- ---------------------------------------------------------------------------

/-- One of the last so many literals of a clause that is neither false nor `other`; if there is none,
`other`. -/
def openLiteral (fails : Array Bool) (other : Nat) (codes : Array Nat) : Nat → Nat
  | 0 => other
  | k + 1 =>
    let x := codes.getD k other
    if x != other && !fails.getD x false then x else openLiteral fails other codes k

/-- What the visit of the clauses that a literal watches came to. -/
structure Visit where
  sums : Array Nat
  lists : Array (Array Nat)
  trail : Trail
  /-- A clause that has only false literals. -/
  conflict : Option Nat

/-- Writes a pair of a list of watches. -/
@[inline]
def setPair (list : Array Nat) (place i guard : Nat) : Array Nat :=
  (list.setIfInBounds place i).setIfInBounds (place + 1) guard

/-- Moves the last `n` pairs of a list of watches from `source` to `target`, and ends the list. -/
def closeGap : Nat → Nat → Nat → Array Nat → Array Nat
  | 0, _, target, list => list.shrink target
  | n + 1, source, target, list =>
    closeGap n (source + 2) (target + 2)
      (setPair list target (list.getD source 0) (list.getD (source + 1) 0))

/-- Goes through the last `n` pairs of the list of the false literal `x`. Each clause gets another
watch, or forces its other watch, or is the conflict that ends the visit. The pairs that stay move
from `source` to `target`. -/
def visit (table : Array (Array Nat)) (x : Nat) : Nat → Nat → Nat → Array Nat → Array Nat →
    Array (Array Nat) → Trail → Visit
  | 0, _, target, list, sums, lists, trail =>
    ⟨sums, lists.setIfInBounds x (list.shrink target), trail, none⟩
  | n + 1, source, target, list, sums, lists, trail =>
    let i := list.getD source 0
    let guard := list.getD (source + 1) 0
    if trail.isTrue guard then
      visit table x n (source + 2) (target + 2) (setPair list target i guard) sums lists trail
    else
      let other := sums.getD i 0 - x
      if trail.isTrue other then
        visit table x n (source + 2) (target + 2) (setPair list target i other) sums lists trail
      else
        let codes := table.getD i #[]
        let y := openLiteral trail.fails other codes codes.size
        if y != other then
          visit table x n (source + 2) target list (sums.setIfInBounds i (other + y))
            (lists.modify y fun list => (list.push i).push other) trail
        else if trail.isFalse other then
          ⟨sums, lists.setIfInBounds x (closeGap (n + 1) source target list), trail, some i⟩
        else
          visit table x n (source + 2) (target + 2) (setPair list target i other) sums lists
            (trail.assign other (i + 1))

/-- Propagates the literals of the trail from the given place on, at most so many. Stops at a clause
that has only false literals. -/
def propagate : Nat → Nat → Watches → Trail → Watches × Trail × Option Nat
  | 0, _, w, trail => (w, trail, none)
  | fuel + 1, place, ⟨table, sums, lists⟩, trail =>
    if place < trail.size then
      let x := Literal.oppositeCode (trail.literals.getD place 0)
      let list := lists.getD x #[]
      match visit table x (list.size / 2) 0 0 list sums (lists.setIfInBounds x #[]) trail with
      | ⟨sums, lists, trail, none⟩ => propagate fuel (place + 1) ⟨table, sums, lists⟩ trail
      | ⟨sums, lists, trail, some i⟩ => (⟨table, sums, lists⟩, trail, some i)
    else (⟨table, sums, lists⟩, trail, none)

end Watches

end CircuitEquiv
