-- SUMMARY: The divisors that bring the coefficients of one part of a constraint into normal form.
import CircuitEquiv.Data.SortedSet
import CircuitEquiv.Data.Tally
import CircuitEquiv.Field

/-!
# Normalizing divisors

A constraint is fixed up to a nonzero factor only. Each part is divided by a divisor that is chosen
among its own coefficients in a way that follows every rescaling, so that rescaled copies become
identical.

Where the coefficients do not sum to zero the divisor is the coefficient `v` that minimizes the
representative of `sum / v`. Where they do, the distinct coefficients are thinned out by their
ratios: those that take part in a ratio of least frequency stay, until nothing changes. Several may
be left, and each of them is then a candidate.
-/

namespace CircuitEquiv.PrimeField

/-- The members of a list with their inverses, if all have one. -/
def inverses? (F : PrimeField) (l : List Nat) : Option (List (Nat × Nat)) :=
  l.mapM fun b => (F.inv? b).map (b, ·)

/-- The ratios of `a` to the other members. -/
def ratiosOf (F : PrimeField) (inverses : List (Nat × Nat)) (a : Nat) : List Nat :=
  (inverses.filter (·.1 ≠ a)).map fun b => F.mul a b.2

/-- The members that are numerators of a ratio of least frequency; all of them where a member has no
inverse. -/
def rarestNumerators (F : PrimeField) (l : List Nat) : List Nat :=
  match F.inverses? l with
  | none => l
  | some inverses =>
    let occurrences := tally (l.flatMap (F.ratiosOf inverses))
    let frequencies (a : Nat) : List Nat := (F.ratiosOf inverses a).map (occurrences.getD · 0)
    match (l.flatMap frequencies).min? with
    | none => l
    | some least => l.filter fun a => least ∈ frequencies a

theorem length_rarestNumerators_le (F : PrimeField) (l : List Nat) :
    (F.rarestNumerators l).length ≤ l.length := by
  simp only [rarestNumerators]
  split
  · exact Nat.le_refl _
  · split
    · exact Nat.le_refl _
    · exact List.length_filter_le _ _

/-- Keeps the numerators of the rarest ratios until every member is one. -/
def thinOut (F : PrimeField) (l : List Nat) : List Nat :=
  let kept := F.rarestNumerators l
  if _h : kept.length < l.length then thinOut F kept else l
termination_by l.length

/-- The candidate divisors for a list of nonzero values, ascending; `[1]` for the empty list. -/
def divisorCandidates (F : PrimeField) (values : List Nat) : List Nat :=
  let total := F.sum values
  if values.isEmpty then [1]
  else if total ≠ 0 then
    (values.minOn? fun v => (F.div? total v).getD 0).toList
  else F.thinOut (SortedSet.ofList values).toList

end CircuitEquiv.PrimeField
