-- SUMMARY: A search for assignments that learns a consequence from every conflict.
import CircuitEquiv.Sat.Derivation
import CircuitEquiv.Sat.PartialAssignment
import CircuitEquiv.Sat.VariableHeap
import CircuitEquiv.Sat.Watches

/-!
# Learning from conflicts

The search decides on the value of one variable after the other and propagates. When a clause has
only false literals left, the reasons of these values are resolved with it until one literal is left
that became false with or after the last decision. The result is kept, and the search goes back to
the earliest decision after which this literal is forced. From time to time the search takes all
decisions back, and lets go of consequences that were of no use lately.

What is learned is a consequence of the given clauses by its type, so nothing else about the search
matters for a refutation. An assignment that it finds still has to be checked.
-/

namespace CircuitEquiv.Learning

open Literal (oppositeCode)

variable {clauses : List Clause}

-- ---------------------------------------------------------------------------
-- State
-- ---------------------------------------------------------------------------

/-- When the search takes its decisions back, and when it lets consequences go. -/
structure Schedule where
  nConflicts : Nat := 0
  restartAt : Nat := 50
  /-- The number of the stretch between restarts, and its length in units. -/
  stretch : Nat × Nat := (1, 1)
  reduceAt : Nat := 2000

/-- The next stretch between restarts. The lengths are 1, 1, 2, 1, 1, 2, 4, … -/
def Schedule.nextStretch : Nat × Nat → Nat × Nat
  | (n, length) => if n % (2 * length) = length then (n + 1, 1) else (n, 2 * length)

/-- The schedule after a restart. -/
def Schedule.restarted (s : Schedule) : Schedule :=
  let stretch := nextStretch s.stretch
  { s with restartAt := s.nConflicts + 50 * stretch.2, stretch }

/-- The schedule after consequences were let go. -/
def Schedule.reduced (s : Schedule) : Schedule :=
  { s with reduceAt := s.nConflicts + 2000 + s.nConflicts / 16 }

/-- A learned clause in use. -/
structure Learned where
  number : Nat
  /-- The number of levels at which its literals became false. -/
  spread : Nat

/-- The state of the search. -/
structure State (clauses : List Clause) where
  nVars : Nat
  /-- The clauses by their numbers. -/
  consequences : Array (Consequence clauses)
  watches : Watches
  trail : Trail
  /-- The number of literals on the trail that were propagated. -/
  propagated : Nat
  /-- The variables without a value, and others. -/
  heap : VariableHeap
  facts : Facts clauses
  /-- The number of literals on the trail that were made facts. -/
  settled : Nat
  learned : List Learned
  /-- The last conflict in whose analysis a clause was used. -/
  lastUses : Array Nat
  schedule : Schedule

/-- How the search ended. -/
inductive Ending (clauses : List Clause) where
  | refuted (h : ∀ v, Clause.allHold clauses v = false)
  | assigned (a : PartialAssignment)
  | undecided

namespace State

/-- The state in which nothing is given. -/
def empty (nVars : Nat) : State clauses where
  nVars
  consequences := #[]
  watches := .empty nVars
  trail := .empty nVars
  propagated := 0
  heap := .ofSize nVars
  facts := .none (2 * nVars)
  settled := 0
  learned := []
  lastUses := #[]
  schedule := {}

/-- Adds a clause that is watched by the given literals. -/
def addClause (s : State clauses) (c : Consequence clauses) (codes : Array Nat) (x y : Nat) :
    State clauses :=
  { s with
    consequences := s.consequences.push c
    watches := s.watches.add codes x y
    lastUses := s.lastUses.push s.schedule.nConflicts }

/-- Lets a literal hold because of the clause that was added last. -/
def force (s : State clauses) (x : Nat) : State clauses :=
  let n := s.consequences.size
  { s with trail := s.trail.assign x n }

/-- The clause that forced a literal or its opposite. -/
@[inline]
def reason? (s : State clauses) (x : Nat) : Option (Consequence clauses) :=
  match s.trail.reason? x with
  | some i => if h : i < s.consequences.size then some s.consequences[i] else none
  | none => none

/-- Propagates the literals that were not propagated yet. -/
def propagate (s : State clauses) : State clauses × Option Nat :=
  match s with
  | { nVars, consequences, watches, trail, propagated, heap, facts, settled, learned, lastUses,
      schedule } =>
    match watches.propagate (nVars + 1) propagated trail with
    | (watches, trail, conflict) =>
      let propagated := trail.size
      ({ nVars, consequences, watches, trail, propagated, heap, facts, settled, learned, lastUses,
         schedule }, conflict)

-- ---------------------------------------------------------------------------
-- Facts
-- ---------------------------------------------------------------------------

/-- Makes the next literals of the trail facts, at most so many. -/
def settleNext : Nat → State clauses → State clauses
  | 0, s => s
  | fuel + 1, s =>
    if s.settled < s.trail.size then
      let x := s.trail.literals.getD s.settled 0
      match s.reason? x with
      | some c => settleNext fuel { s with settled := s.settled + 1, facts := s.facts.learn c x }
      | none => s
    else s

/-- Makes the literals of the trail facts. Without decisions all of them are. -/
def settle (s : State clauses) : State clauses := s.settleNext (s.trail.size - s.settled)

/-- The end of a search in which all literals of a clause are false without decisions. -/
def conclude (s : State clauses) (c : Consequence clauses) : Ending clauses :=
  let facts := s.settle.facts
  if h : c.codes.all facts.refutes = true then .refuted (Facts.allHold_eq_false h) else .undecided

-- ---------------------------------------------------------------------------
-- Explaining conflicts
-- ---------------------------------------------------------------------------

/-- A conflict resolved with reasons. -/
structure Explanation (clauses : List Clause) where
  derivation : Derivation clauses
  /-- The literal that became false with or after the last decision. -/
  pivot : Nat
  /-- The clauses that were resolved. -/
  used : List Nat

/-- Resolves with reasons along the first so many literals of the trail, the last one first, until
one literal of the current level is left. `recent` counts the literals of that level. -/
def explain (s : State clauses) (level : Nat) :
    Nat → Nat → List Nat → Derivation clauses → Explanation clauses
  | 0, _, used, d => ⟨d, 0, used⟩
  | k + 1, recent, used, d =>
    let x := oppositeCode (s.trail.literals.getD k 0)
    if d.marked.isMarked x then
      if recent ≤ 1 then ⟨d, x, used⟩
      else
        match s.reason? x with
        | some c =>
          let (d, recent) := d.resolve s.facts (s.trail.levelOf · == level) (recent - 1) x c
          explain s level k recent ((s.trail.reason? x).toList ++ used) d
        | none => ⟨d, x, used⟩
    else explain s level k recent used d

/-- Goes on along the first so many literals of the trail and resolves those whose reasons bring in
nothing new. The other ones are put in front of `kept`; `left` literals are still to come. -/
def shorten (s : State clauses) :
    Nat → Nat → List Nat → Derivation clauses → List Nat × Derivation clauses
  | 0, _, kept, d => (kept, d)
  | _, 0, kept, d => (kept, d)
  | k + 1, left + 1, kept, d =>
    let x := oppositeCode (s.trail.literals.getD k 0)
    if d.marked.isMarked x then
      match s.reason? x with
      | some c =>
        if c.codes.all fun y => y == oppositeCode x || d.marked.isMarked y || s.facts.refutes y then
          shorten s k left kept (d.resolve s.facts (fun _ => false) 0 x c).1
        else shorten s k left (x :: kept) d
      | none => shorten s k left (x :: kept) d
    else shorten s k (left + 1) kept d

/-- The number of levels at which literals became false, the latest ones first. -/
def countLevels (trail : Trail) (level n : Nat) : List Nat → Nat
  | [] => n
  | x :: rest =>
    let next := trail.levelOf x
    countLevels trail next (if next = level then n else n + 1) rest

/-- What is learned from a conflict. -/
structure Lesson (clauses : List Clause) where
  consequence : Consequence clauses
  /-- Its literals, in the order in which they became false. -/
  codes : Array Nat
  /-- The last literal of these. -/
  pivot : Nat
  /-- The last literal before it, or itself. -/
  second : Nat
  /-- The level at which the pivot is forced. -/
  target : Nat
  spread : Nat
  /-- The literals of the clauses that were resolved. -/
  involved : List Nat
  /-- The clauses that were resolved. -/
  used : List Nat

/-- What is learned from a conflict. -/
def lesson (s : State clauses) (i : Nat) (conflict : Consequence clauses) : Lesson clauses :=
  let level := s.trail.level
  let (d, recent) :=
    Derivation.start s.facts (s.trail.levelOf · == level) (2 * s.nVars) conflict
  let ⟨d, pivot, used⟩ := s.explain level s.trail.size recent [i] d
  let involved := d.marked.listed
  let (kept, d) := s.shorten s.trail.sizeBelow (d.marked.toList.length - 1) [] d
  let latest := kept.reverse
  let second := latest.headD pivot
  { consequence := d.toConsequence
    codes := kept.toArray.push pivot
    pivot, second
    target := if latest.isEmpty then 0 else s.trail.levelOf second
    spread := countLevels s.trail level 1 latest
    involved, used }

-- ---------------------------------------------------------------------------
-- Going back
-- ---------------------------------------------------------------------------

/-- Takes the last `n` literals back. -/
def undo : Nat → Trail → VariableHeap → Trail × VariableHeap
  | 0, trail, heap => (trail, heap)
  | n + 1, trail, heap =>
    let v := trail.literals.back?.getD 0 / 2
    undo n trail.pop (heap.insert v)

/-- Takes the decisions after a level back. -/
def backtrack (s : State clauses) (level : Nat) : State clauses :=
  match s.trail.decisions[level]? with
  | none => s
  | some size =>
    match s with
    | { nVars, consequences, watches, trail, propagated := _, heap, facts, settled, learned,
        lastUses, schedule } =>
      match undo (trail.size - size) trail heap with
      | (trail, heap) =>
        { nVars, consequences, watches
          trail := { trail with decisions := trail.decisions.shrink level }
          propagated := size
          heap, facts, settled, learned, lastUses, schedule }

/-- Takes a lesson in and goes back to the level at which it forces its pivot. -/
def learn (s : State clauses) (lesson : Lesson clauses) : State clauses :=
  let now := s.schedule.nConflicts + 1
  let heap := lesson.involved.foldl (fun heap x => heap.touch (x / 2)) s.heap
  let lastUses := lesson.used.foldl (fun uses i => uses.setIfInBounds i now) s.lastUses
  let s := { s with
    heap := heap.decay
    lastUses
    schedule := { s.schedule with nConflicts := now } }
  let s := s.backtrack lesson.target
  let s := { s with learned := ⟨s.consequences.size, lesson.spread⟩ :: s.learned }
  (s.addClause lesson.consequence lesson.codes lesson.pivot lesson.second).force lesson.pivot

/-- The clauses that force literals of the trail. -/
def forcing (s : State clauses) : Array Bool :=
  s.trail.literals.foldl
    (fun a x =>
      match s.trail.reason? x with
      | some i => a.setIfInBounds i true
      | none => a)
    (Array.replicate s.consequences.size false)

/-- Lets half of the learned clauses go, those that were used longest ago; but none that forces a
literal or spreads over two levels only. -/
def reduce (s : State clauses) : State clauses :=
  let isForcing := s.forcing
  let (strong, weak) := s.learned.partition fun c => c.spread ≤ 2 || isForcing.getD c.number false
  let weak := weak.mergeSort fun c d => s.lastUses.getD d.number 0 ≤ s.lastUses.getD c.number 0
  let half := weak.length / 2
  { s with
    learned := strong ++ weak.take half
    watches := s.watches.drop ((weak.drop half).map (·.number))
    schedule := s.schedule.reduced }

-- ---------------------------------------------------------------------------
-- Search
-- ---------------------------------------------------------------------------

/-- What is due between two decisions: new facts, a restart, a reduction. -/
def tidy (s : State clauses) : State clauses :=
  let s := if s.trail.level = 0 then s.settle else s
  let s :=
    if s.schedule.restartAt ≤ s.schedule.nConflicts then
      { s.backtrack 0 with schedule := s.schedule.restarted }
    else s
  if s.schedule.reduceAt ≤ s.schedule.nConflicts then s.reduce else s

/-- Takes the next variable without a value. -/
def nextVariable (s : State clauses) : Option Nat × State clauses :=
  match s with
  | { nVars, consequences, watches, trail, propagated, heap, facts, settled, learned, lastUses,
      schedule } =>
    match heap.next trail.hasValue (nVars + 1) with
    | (v, heap) =>
      (v, { nVars, consequences, watches, trail, propagated, heap, facts, settled, learned,
            lastUses, schedule })

/-- The values of the variables. -/
def values (s : State clauses) : PartialAssignment :=
  (Array.range s.nVars).map fun v =>
    if s.trail.hasValue v then some (s.trail.isTrue (2 * v + 1)) else none

/-- Searches until the clauses are refuted or all variables have a value, with at most so many
decisions and conflicts. -/
def run : Nat → State clauses → Ending clauses
  | 0, _ => .undecided
  | fuel + 1, s =>
    match s.propagate with
    | (s, some i) =>
      match s.consequences[i]? with
      | none => .undecided
      | some c => if s.trail.level = 0 then s.conclude c else run fuel (s.learn (s.lesson i c))
    | (s, none) =>
      match s.tidy.nextVariable with
      | (none, s) => .assigned s.values
      | (some v, s) => run fuel { s with trail := s.trail.decide v }

/-- Adds clauses and searches. -/
def start : List (Consequence clauses) → Nat → State clauses → Ending clauses
  | [], patience, s => s.run patience
  | c :: rest, patience, s =>
    match c.codes with
    | [] => s.conclude c
    | [x] =>
      if s.trail.isTrue x then start rest patience s
      else if s.trail.isFalse x then s.conclude c
      else start rest patience ((s.addClause c #[x] x x).force x)
    | x :: y :: codes => start rest patience (s.addClause c (x :: y :: codes).toArray x y)

end State

/-- The number of decisions and conflicts after which the search gives up. -/
def patience : Nat := 1000000000

/-- Searches for an assignment or a refutation. -/
def search (clauses : List Clause) : Ending clauses :=
  (State.empty (Clause.maxVar clauses + 1)).start (Consequence.given clauses) patience

end CircuitEquiv.Learning
