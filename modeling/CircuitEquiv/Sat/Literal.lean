-- SUMMARY: Propositional literals and clauses, what it means that they hold, and models.
import CircuitEquiv.Data.Order
import Std.Data.HashSet

/-!
# Literals, clauses and models

A clause holds when one of its literals does, a list of clauses when each of them does. A model is
given by its true variables; all others are false.
-/

namespace CircuitEquiv

/-- A variable or its negation. -/
structure Literal where
  var : Nat
  isPositive : Bool
deriving DecidableEq, Inhabited

/-- A disjunction of literals. -/
abbrev Clause := List Literal

namespace Literal

/-- The literal that holds when the variable is true. -/
def positive (var : Nat) : Literal := ⟨var, true⟩

/-- The literal that holds when the variable is false. -/
def negative (var : Nat) : Literal := ⟨var, false⟩

/-- The opposite literal. -/
def negate (l : Literal) : Literal := ⟨l.var, !l.isPositive⟩

/-- The literal of a signed number: the variable, negative where it is negated. -/
def ofSigned (i : Int) : Literal := ⟨i.natAbs, 0 < i⟩

/-- The signed number of a literal. -/
def signed (l : Literal) : Int := if l.isPositive then l.var else -(l.var : Int)

/-- The signed number of a literal as a word of 64 bits. -/
def word (l : Literal) : Int := l.signed.bmod UInt64.size

/-- The text of a literal. -/
def text (l : Literal) : String := toString l.word

/-- Literals are ordered by their signed numbers, negations first where these agree. -/
def key (l : Literal) : Int × Nat := (l.signed, l.isPositive.toNat)

theorem key_injective (a b : Literal) (h : a.key = b.key) : a = b := by
  obtain ⟨v, s⟩ := a
  obtain ⟨w, t⟩ := b
  cases s <;> cases t <;> simp [key, signed] at h ⊢ <;> omega

instance : Ord Literal := ⟨fun a b => compare a.key b.key⟩

instance : Std.TransOrd Literal := transOrd_of_key key fun _ _ => rfl

instance : Std.LawfulEqOrd Literal := lawfulEqOrd_of_key key (fun _ _ => rfl) key_injective

/-- Whether a literal holds under an assignment of the variables. -/
def holds (l : Literal) (v : Nat → Bool) : Bool := v l.var == l.isPositive

@[simp]
theorem holds_negate (l : Literal) (v : Nat → Bool) : l.negate.holds v = !l.holds v := by
  obtain ⟨w, s⟩ := l
  cases s <;> cases h : v w <;> simp [holds, negate, h]

end Literal

/-! ## Clauses -/

/-- Whether some literal of a clause holds. -/
def Clause.holds (c : Clause) (v : Nat → Bool) : Bool := c.any (·.holds v)

/-- Whether every clause of a list holds. -/
def Clause.allHold (cs : List Clause) (v : Nat → Bool) : Bool := cs.all (·.holds v)

/-- The largest variable of a list of clauses, zero without one. -/
def Clause.maxVar (cs : List Clause) : Nat := cs.flatten.foldl (fun n l => max n l.var) 0

/-! ## Models -/

/-- An assignment, given by the variables that are true. -/
structure Model where
  trueVars : Std.HashSet Nat

namespace Model

/-- The model in which the listed variables are true. -/
def ofTrueVars (vars : List Nat) : Model := ⟨Std.HashSet.ofList vars⟩

/-- Whether a variable is true. -/
def isTrue (m : Model) (var : Nat) : Bool := m.trueVars.contains var

@[simp]
theorem isTrue_ofTrueVars (vars : List Nat) (var : Nat) :
    (ofTrueVars vars).isTrue var = vars.contains var := by
  simp [isTrue, ofTrueVars]

/-- Whether a literal holds. -/
def value (m : Model) (l : Literal) : Bool := l.holds m.isTrue

end Model

end CircuitEquiv
