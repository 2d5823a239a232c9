-- SUMMARY: The values that a search has given to variables, in order, with what they depend on.
import CircuitEquiv.Sat.LiteralCode

/-!
# Trails

A trail lists the literals that hold in the order in which they came to hold. Some of them are
decisions; the level of a literal is the number of decisions up to it. The others were forced by a
clause. Literals are given by their codes, clauses by their numbers.
-/

namespace CircuitEquiv

open Literal (oppositeCode)

/-- The literals that hold, and why. -/
structure Trail where
  /-- Whether a literal holds. -/
  holds : Array Bool
  /-- Whether the opposite of a literal holds. -/
  fails : Array Bool
  /-- The literals that hold, in order. -/
  literals : Array Nat
  /-- The number of literals before each decision. -/
  decisions : Array Nat
  /-- The level at which a variable got its value. -/
  levels : Array Nat
  /-- One more than the number of the clause that forced a variable, zero for a decision. -/
  reasons : Array Nat
  /-- The last value of a variable. -/
  phases : Array Bool

namespace Trail

/-- The trail on which nothing holds, for so many variables. -/
def empty (nVars : Nat) : Trail where
  holds := Array.replicate (2 * nVars) false
  fails := Array.replicate (2 * nVars) false
  literals := #[]
  decisions := #[]
  levels := Array.replicate nVars 0
  reasons := Array.replicate nVars 0
  phases := Array.replicate nVars true

/-- Whether a literal holds. -/
@[inline]
def isTrue (t : Trail) (x : Nat) : Bool := t.holds.getD x false

/-- Whether the opposite of a literal holds. -/
@[inline]
def isFalse (t : Trail) (x : Nat) : Bool := t.fails.getD x false

/-- Whether a variable has a value. -/
@[inline]
def hasValue (t : Trail) (v : Nat) : Bool := t.holds.getD (2 * v) false || t.fails.getD (2 * v) false

/-- The number of literals that hold. -/
@[inline]
def size (t : Trail) : Nat := t.literals.size

/-- The number of decisions in force. -/
@[inline]
def level (t : Trail) : Nat := t.decisions.size

/-- The level at which a literal got its value. -/
@[inline]
def levelOf (t : Trail) (x : Nat) : Nat := t.levels.getD (x / 2) 0

/-- The number of literals before the last decision. -/
def sizeBelow (t : Trail) : Nat := t.decisions.back?.getD 0

/-- The number of the clause that forced a literal or its opposite. -/
@[inline]
def reason? (t : Trail) (x : Nat) : Option Nat :=
  match t.reasons.getD (x / 2) 0 with
  | 0 => none
  | i + 1 => some i

/-- Lets a literal hold; `reason` is one more than the number of the clause that forces it. -/
def assign (t : Trail) (x reason : Nat) : Trail :=
  { t with
    holds := t.holds.setIfInBounds x true
    fails := t.fails.setIfInBounds (oppositeCode x) true
    literals := t.literals.push x
    levels := t.levels.setIfInBounds (x / 2) t.decisions.size
    reasons := t.reasons.setIfInBounds (x / 2) reason }

/-- Decides that a variable has the value that it had last. -/
def decide (t : Trail) (v : Nat) : Trail :=
  let x := 2 * v + (t.phases.getD v true).toNat
  { t with decisions := t.decisions.push t.literals.size }.assign x 0

/-- Takes the last literal back. -/
def pop (t : Trail) : Trail :=
  let x := t.literals.back?.getD 0
  { t with
    holds := t.holds.setIfInBounds x false
    fails := t.fails.setIfInBounds (oppositeCode x) false
    literals := t.literals.pop
    phases := t.phases.setIfInBounds (x / 2) (x % 2 == 1) }

end Trail

end CircuitEquiv
