-- SUMMARY: The partners that signals can still have on the other side, and their propagation to consistency.
import CircuitEquiv.Data.SortedMap
import CircuitEquiv.Data.Total
import CircuitEquiv.Difference

/-!
# Candidate partners

Every signal of either side has candidates on the other side, some of which may have been removed.
Propagation removes candidates that are not returned and candidates that another signal claims for
itself because it has no other; it stops when nothing changes or when a signal has none left. The
constant signal maps to itself and has no candidates.
-/

namespace CircuitEquiv

/-- The state of one candidate. -/
inductive CandidateState where
  | live
  | removed
deriving DecidableEq

/-- The candidates of the signals of one side. -/
abbrev SidePartners := SortedMap Signal (SortedMap Signal CandidateState)

/-- The candidates of the signals of both sides. -/
structure Candidates where
  left : SidePartners
  right : SidePartners
deriving DecidableEq

namespace Candidates

-- ---------------------------------------------------------------------------
-- Construction and queries
-- ---------------------------------------------------------------------------

/-- Makes `t` a candidate of `s`. -/
def addPartner (p : SidePartners) (s t : Signal) : SidePartners :=
  p.upsert s fun old => (old.getD SortedMap.empty).insert t .live

/-- Every left member of a class is a candidate of every right member. -/
def ofClasses (classes : List (List (List Signal))) : Candidates :=
  let pairs := classes.flatMap fun
    | [left, right] =>
      (left.filter (· ≠ constantSignal)).flatMap fun l =>
        (right.filter (· ≠ constantSignal)).map fun r => (l, r)
    | _ => []
  { left := pairs.foldl (fun p (l, r) => addPartner p l r) SortedMap.empty
    right := pairs.foldl (fun p (l, r) => addPartner p r l) SortedMap.empty }

/-- The candidates of one side. -/
def ofSide (c : Candidates) : Side → SidePartners
  | .left => c.left
  | .right => c.right

/-- The live partners in a candidate list, ascending. -/
def livePartners (p : SortedMap Signal CandidateState) : List Signal :=
  (p.filter fun _ state => state = .live).keys

/-- The live partners of a signal, ascending. -/
def live (c : Candidates) (side : Side) (s : Signal) : List Signal :=
  livePartners ((c.ofSide side).getD s SortedMap.empty)

/-- Whether the left signal `l` can still map to the right signal `r`. -/
def isLive (c : Candidates) (l r : Signal) : Bool :=
  (c.left.getD l SortedMap.empty).get? r = some .live

/-- The signals of a side that have an entry, ascending. -/
def signals (c : Candidates) (side : Side) : List Signal := (c.ofSide side).keys

/-- The pairs, left before right, that were ruled out. -/
def removedPairs (c : Candidates) : List (Signal × Signal) :=
  c.left.entries.flatMap fun (l, partners) =>
    (partners.filter fun _ state => state = .removed).keys.map fun r => (l, r)

/-- The number of live pairs, seen from the left. -/
def nLivePairs (c : Candidates) : Nat :=
  total (c.left.values.map fun partners => (livePartners partners).length)

-- ---------------------------------------------------------------------------
-- Restriction
-- ---------------------------------------------------------------------------

/-- Removes the live partners that do not satisfy `keep`. -/
def retain (p : SortedMap Signal CandidateState) (keep : Signal → Bool) :
    SortedMap Signal CandidateState :=
  p.mapValues fun t state => if keep t then state else .removed

/-- Removes the partners of one signal outside `allowed`, on its own side only. -/
def restrict (c : Candidates) (side : Side) (s : Signal) (allowed : SortedSet Signal) : Candidates :=
  let narrow (p : SidePartners) : SidePartners :=
    p.mapValues fun x partners => if x = s then retain partners (· ∈ allowed) else partners
  match side with
  | .left => { c with left := narrow c.left }
  | .right => { c with right := narrow c.right }

-- ---------------------------------------------------------------------------
-- Propagation
-- ---------------------------------------------------------------------------

/-- The signals of a side that have one live partner left, listed under that partner. -/
def claims (p : SidePartners) : SortedMap Signal (List Signal) :=
  SortedMap.groupValues (p.entries.filterMap fun (s, partners) =>
    match livePartners partners with
    | [only] => some (only, s)
    | _ => none)

/-- Keeps the candidates of `own` that `other` returns and where no third signal of the other side
claims the signal. -/
def consistentPart (own other : SidePartners) : SidePartners :=
  let claimed := claims other
  own.mapValues fun s partners => retain partners fun t =>
    (other.getD t SortedMap.empty).get? s = some .live && (claimed.getD s []).all (· = t)

/-- One round of propagation, on both sides at once. -/
def step (c : Candidates) : Candidates :=
  ⟨consistentPart c.left c.right, consistentPart c.right c.left⟩

/-- The first signal of a side without live partners. -/
def firstEmpty? (p : SidePartners) : Option Signal :=
  (p.entries.find? fun (_, partners) => (livePartners partners).isEmpty).map (·.1)

/-- The difference that shows when a signal has no live partner, left signals first. -/
def emptySignal? (c : Candidates) : Option Difference :=
  match firstEmpty? c.left, firstEmpty? c.right with
  | some s, _ => some (.noCandidate .left s)
  | none, some s => some (.noCandidate .right s)
  | none, none => none

/-- Propagates until nothing changes or a signal has no partner left; the candidates reached are
returned either way. -/
def propagateFrom : Nat → Candidates → Candidates × Option Difference
  | 0, c => (c, none)
  | fuel + 1, c =>
    let next := c.step
    match next.emptySignal? with
    | some difference => (next, some difference)
    | none => if next = c then (next, none) else propagateFrom fuel next

/-- A bound on the number of rounds: all but the last remove a candidate on some side. -/
def roundBound (c : Candidates) : Nat :=
  c.nLivePairs + (Candidates.mk c.right c.left).nLivePairs + 2

/-- Propagates to consistency. -/
def propagate (c : Candidates) : Candidates × Option Difference := propagateFrom c.roundBound c

end Candidates

end CircuitEquiv
