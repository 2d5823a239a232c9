-- SUMMARY: Assignments of some of the variables, and the models they become.
import CircuitEquiv.Sat.Literal

/-!
# Partial assignments
-/

namespace CircuitEquiv

/-- The values of the variables that have one. -/
abbrev PartialAssignment := Array (Option Bool)

namespace PartialAssignment

/-- No values, with room for the variables of clauses. -/
def empty (clauses : List Clause) : PartialAssignment :=
  Array.replicate (Clause.maxVar clauses + 1) none

/-- The value of a literal whose variable has one. -/
def value? (a : PartialAssignment) (l : Literal) : Option Bool :=
  (a[l.var]?.join).map (· == l.isPositive)

/-- Whether a variable is true; one without a value is false. -/
def isTrue (a : PartialAssignment) (v : Nat) : Bool := a[v]? == some (some true)

/-- Lets a literal hold. -/
def assign (a : PartialAssignment) (l : Literal) : PartialAssignment :=
  a.setIfInBounds l.var (some l.isPositive)

/-- The model of an assignment: variables without a value are false. -/
def toModel (a : PartialAssignment) : Model := .ofTrueVars ((List.range a.size).filter a.isTrue)

end PartialAssignment

end CircuitEquiv
