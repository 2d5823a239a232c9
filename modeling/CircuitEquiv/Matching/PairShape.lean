-- SUMMARY: What matching one norm onto another demands of the signal pairs.
import CircuitEquiv.Constraint

/-!
# Matching two norms

A left norm can be matched onto a right norm when every term of the left one finds a term with the
same coefficient in the corresponding part of the right one. So each left term demands one of some
signal pairs. Where the parts can be matched in more than one way, as the factors of an unordered
product or the two orientations of a quadratic term, the ways stay apart as the alternatives of a
choice.
-/

namespace CircuitEquiv

/-- Signal pairs, left before right, of which at least one must hold. -/
abbrev PairDisjunction := List (Signal × Signal)

/-- The conditions under which a left norm matches a right norm. -/
structure PairShape where
  /-- All of these must hold. -/
  common : List PairDisjunction
  /-- Each choice needs one alternative, and an alternative needs all its disjunctions. -/
  choices : List (List (List PairDisjunction))
deriving DecidableEq

namespace PairShape

-- ---------------------------------------------------------------------------
-- Allowed partners
-- ---------------------------------------------------------------------------

/-- The meet of two restrictions, where `none` restricts nothing. -/
def meet : Option (SortedSet Signal) → Option (SortedSet Signal) → Option (SortedSet Signal)
  | none, t => t
  | s, none => s
  | some s, some t => some (s.inter t)

/-- The partners of `s` in a disjunction that is about `s` alone. -/
def partners? (s : Signal) (d : PairDisjunction) : Option (SortedSet Signal) :=
  if d.isEmpty ∨ !d.all (·.1 = s) then none else some (SortedSet.ofList (d.map (·.2)))

/-- The partners of `s` that all disjunctions allow. -/
def partnersInAll? (s : Signal) (ds : List PairDisjunction) : Option (SortedSet Signal) :=
  ds.foldl (fun allowed d => meet allowed (partners? s d)) none

/-- The partners of `s` that some alternative allows, unless an alternative does not restrict it. -/
def partnersInSome? (s : Signal) (alternatives : List (List PairDisjunction)) :
    Option (SortedSet Signal) :=
  (alternatives.mapM (partnersInAll? s)).map fun sets => sets.foldl SortedSet.union SortedSet.empty

/-- The right signals that `s` can map to when the pair holds, unless the pair leaves it open. -/
def allowed? (shape : PairShape) (s : Signal) : Option (SortedSet Signal) :=
  shape.choices.foldl (fun allowed choice => meet allowed (partnersInSome? s choice))
    (partnersInAll? s shape.common)

-- ---------------------------------------------------------------------------
-- Construction
-- ---------------------------------------------------------------------------

variable (isCandidate : Signal → Signal → Bool)

/-- One disjunction per term of `p`, matching it into `q`; the coefficients of the constant signal
have to agree. -/
def matchTerms? (p q : Terms) : Option (List PairDisjunction) :=
  if p.size ≠ q.size ∨ p.get? constantSignal ≠ q.get? constantSignal then none
  else
    (p.erase constantSignal).entries.mapM fun (s, value) =>
      let options := (q.erase constantSignal).entries.filterMap fun (t, other) =>
        if other = value ∧ isCandidate s t then some (s, t) else none
      if options.isEmpty then none else some options

/-- Adds a choice; one with a single alternative is no choice, and one without any fails. -/
def addChoice? (shape : PairShape) (alternatives : List (List PairDisjunction)) :
    Option PairShape :=
  match alternatives.eraseReps with
  | [] => none
  | [only] => some { shape with common := shape.common ++ only }
  | several => some { shape with choices := shape.choices ++ [several] }

/-- The shape of matching rank-one constraints. -/
def ofR1cs? (l r : R1csConstraint) : Option PairShape := do
  let c ← matchTerms? isCandidate l.c r.c
  match l.isUnordered, r.isUnordered with
  | true, true =>
    let factors (ra rb : Terms) : Option (List PairDisjunction) := do
      return (← matchTerms? isCandidate l.a ra) ++ (← matchTerms? isCandidate l.b rb)
    addChoice? ⟨c, []⟩ ([factors r.a r.b, factors r.b r.a].filterMap id)
  | false, false =>
    return ⟨c ++ (← matchTerms? isCandidate l.a r.a) ++ (← matchTerms? isCandidate l.b r.b), []⟩
  | _, _ => none

/-- The ways of matching two signal pairs: a square only onto a square, any other pair in both
orientations. -/
def orientations (x u : Signal × Signal) : List PairDisjunction :=
  match decide (x.1 = x.2), decide (u.1 = u.2) with
  | true, true => [[(x.1, u.1)]]
  | false, false => [[(x.1, u.1), (x.2, u.2)], [(x.1, u.2), (x.2, u.1)]]
  | _, _ => []

/-- The alternatives for one quadratic term. -/
def multAlternatives (r : AcirConstraint) (x : Signal × Signal) (value : Nat) :
    List (List PairDisjunction) :=
  (r.mult.entries.filter (·.2 = value)).flatMap fun (u, _) =>
    ((orientations x u).filter fun pairs => pairs.all fun (s, t) => isCandidate s t).map
      fun pairs => pairs.map ([·])

/-- The shape of matching polynomial constraints. -/
def ofAcir? (l r : AcirConstraint) : Option PairShape :=
  if l.constant ≠ r.constant ∨ l.mult.size ≠ r.mult.size then none
  else do
    let linear ← matchTerms? isCandidate l.linear r.linear
    l.mult.entries.foldlM
      (fun shape (x, value) => addChoice? shape (multAlternatives isCandidate r x value))
      ⟨linear, []⟩

/-- The shape of matching `l` onto `r`, unless no signal map within the candidates does it. -/
def ofNorms? (l r : Constraint) : Option PairShape :=
  match l, r with
  | .r1cs l, .r1cs r => ofR1cs? isCandidate l r
  | .acir l, .acir r => ofAcir? isCandidate l r
  | _, _ => none

end PairShape

end CircuitEquiv
