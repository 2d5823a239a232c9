-- SUMMARY: Constraints of either dialect, their common operations, and equality up to scaling.
import CircuitEquiv.Circuit.Error
import CircuitEquiv.Constraint.Acir
import CircuitEquiv.Constraint.R1cs

/-!
# Constraints

A constraint of either dialect. Two constraints over the same signals are scalar multiples of each
other when they have a normal form in common.
-/

namespace CircuitEquiv

/-- A constraint of either dialect. -/
inductive Constraint where
  | r1cs (r : R1csConstraint)
  | acir (p : AcirConstraint)
deriving DecidableEq, Inhabited

namespace Constraint

/-! ## Order -/

/-- The key that constraints are ordered by: rank-one constraints first. -/
def key : Constraint → Nat × R1csConstraint × AcirConstraint
  | .r1cs r => (0, r, default)
  | .acir p => (1, default, p)

theorem key_injective (c d : Constraint) (h : c.key = d.key) : c = d := by
  cases c <;> cases d <;> simp_all [key]

instance : Ord Constraint := ⟨fun c d => compare c.key d.key⟩

instance : Std.TransOrd Constraint := transOrd_of_key key fun _ _ => rfl

instance : Std.LawfulEqOrd Constraint := lawfulEqOrd_of_key key (fun _ _ => rfl) key_injective

/-! ## Form -/

def dialect : Constraint → Dialect
  | .r1cs _ => .r1cs
  | .acir _ => .acir

/-- The signals that occur, the constant signal left out. -/
def signals : Constraint → SortedSet Signal
  | .r1cs r => r.signals
  | .acir p => p.signals

/-- Whether the constraint multiplies signals. -/
def isNonlinear : Constraint → Bool
  | .r1cs r => !r.isLinear
  | .acir p => p.isNonlinear

/-! ## Normal forms -/

/-- The normal forms, ascending and without repetition. -/
def normalize (F : PrimeField) : Constraint → List Constraint
  | .r1cs r => (r.normalize F).map .r1cs
  | .acir p => (p.normalize F).map .acir

/-- Whether two constraints have a normal form in common. -/
def isScalarMultipleOf (F : PrimeField) (c d : Constraint) : Bool :=
  let forms := c.normalize F
  (d.normalize F).any (· ∈ forms)

/-! ## Labelled views -/

/-- The shape under a labelling of the signals. -/
def shape (c : Constraint) (labels : Signal → ClassLabel) : NormShape :=
  match c with
  | .r1cs r => r.shape labels
  | .acir p => p.shape labels

/-- The part that one signal plays. -/
def characteristic (c : Constraint) (s : Signal) (labels : Signal → ClassLabel) : Characteristic :=
  match c with
  | .r1cs r => r.characteristic s
  | .acir p => p.characteristic s labels

/-! ## Meaning -/

/-- Whether the values satisfy the constraint; every signal needs a value. -/
def isSatisfied (F : PrimeField) (c : Constraint) (values : List Nat) : Bool :=
  match c with
  | .r1cs r => r.isSatisfied F values
  | .acir p => p.isSatisfied F values

/-- The two signals that the constraint sets equal, `x - y = 0`; when `relaxed`, also the two that
it sets apart by a constant, `x - y = d`. -/
def signalEquivalence? (F : PrimeField) (relaxed : Bool) (c : Constraint) :
    Option (Signal × Signal) :=
  let (isLinear, terms, hasConstant) := match c with
    | .r1cs r => (r.isLinear, r.c.erase constantSignal, r.c.contains constantSignal)
    | .acir p => (!p.isNonlinear, p.linear, p.constant != 0)
  if !isLinear || (hasConstant && !relaxed) then none
  else
    match terms.entries with
    | [(x, u), (y, v)] => if F.add u v = 0 then some (x, y) else none
    | _ => none

/-! ## Renaming -/

/-- Renames the signals without a check. -/
def rename (c : Constraint) (f : Signal → Signal) : Constraint :=
  match c with
  | .r1cs r => .r1cs (r.rename f)
  | .acir p => .acir (p.rename f)

/-- The first fault, in list order, of a renaming: a signal sent to the constant signal or onto the
image of an earlier one. `seen` holds the earlier signals beside their images. -/
def renamingFault? (f : Signal → Signal) (seen : List (Signal × Signal)) :
    List Signal → Option CircuitError
  | [] => none
  | s :: rest =>
    if f s = constantSignal then some (.mappedToConstant s)
    else
      match seen.find? (·.2 = f s) with
      | some (first, _) => some (.notInjective first s (f s))
      | none => renamingFault? f ((s, f s) :: seen) rest

/-- Renames the signals, the constant signal kept in place. The renaming has to be injective on the
signals that occur and must not send one to the constant signal. -/
def signalMap (c : Constraint) (f : Signal → Signal) : Except CircuitError Constraint :=
  match renamingFault? f [] c.signals.toList with
  | some fault => .error fault
  | none => .ok (c.rename fun s => if s = constantSignal then constantSignal else f s)

end Constraint

end CircuitEquiv
