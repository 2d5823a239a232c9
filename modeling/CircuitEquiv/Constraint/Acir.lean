-- SUMMARY: Quadratic polynomial constraints: construction, normal forms, labelled shapes, satisfaction and renaming.
import CircuitEquiv.Constraint.Divisor
import CircuitEquiv.Constraint.Shape
import CircuitEquiv.Constraint.Terms

/-!
# Polynomial constraints

The constraint `∑ q_xy * x * y + ∑ l_x * x + k = 0` on signal values. Terms of the constant signal
belong to a lower degree, so a constraint built from terms mentions other signals only, each pair
in ascending order.
-/

namespace CircuitEquiv

/-- A quadratic polynomial that has to vanish. -/
structure AcirConstraint where
  mult : SortedMap (Signal × Signal) Nat
  linear : Terms
  constant : Nat
deriving DecidableEq, Inhabited

namespace AcirConstraint

/-! ## Construction and order -/

/-- Adds a quadratic term; a factor that is the constant signal lowers the degree. -/
def addMult (F : PrimeField) (p : AcirConstraint) (x y : Signal) (value : Nat) : AcirConstraint :=
  if max x y = constantSignal then { p with constant := F.add p.constant value }
  else if min x y = constantSignal then
    { p with linear := Terms.accumulate F p.linear (max x y) value }
  else { p with mult := Terms.accumulate F p.mult (min x y, max x y) value }

/-- Adds a linear term; one of the constant signal is a constant. -/
def addLinear (F : PrimeField) (p : AcirConstraint) (x : Signal) (value : Nat) : AcirConstraint :=
  if x = constantSignal then { p with constant := F.add p.constant value }
  else { p with linear := Terms.accumulate F p.linear x value }

/-- The polynomial with the given terms, the coefficients of equal monomials added up. -/
def ofTerms (F : PrimeField) (mult : List ((Signal × Signal) × Nat)) (linear : List (Signal × Nat))
    (constant : Nat) : AcirConstraint :=
  let start : AcirConstraint := ⟨SortedMap.empty, SortedMap.empty, F.element constant⟩
  let p := mult.foldl (fun p t => p.addMult F t.1.1 t.1.2 t.2) start
  let p := linear.foldl (fun p t => p.addLinear F t.1 t.2) p
  ⟨Terms.dropZeros p.mult, Terms.dropZeros p.linear, p.constant⟩

/-- The key that constraints are ordered by. -/
def key (p : AcirConstraint) : SortedMap (Signal × Signal) Nat × Terms × Nat :=
  (p.mult, p.linear, p.constant)

theorem key_injective (p q : AcirConstraint) (h : p.key = q.key) : p = q := by
  cases p; cases q; simp_all [key]

instance : Ord AcirConstraint := ⟨fun p q => compare p.key q.key⟩

instance : Std.TransOrd AcirConstraint := transOrd_of_key key fun _ _ => rfl

instance : Std.LawfulEqOrd AcirConstraint := lawfulEqOrd_of_key key (fun _ _ => rfl) key_injective

/-! ## Form -/

/-- The signals that occur. -/
def signals (p : AcirConstraint) : SortedSet Signal :=
  SortedSet.ofList ((p.mult.keys.flatMap fun k => [k.1, k.2]) ++ p.linear.keys)

/-- Whether there is a quadratic term. -/
def isNonlinear (p : AcirConstraint) : Bool := !p.mult.isEmpty

/-! ## Normal forms -/

/-- The divisors that lead to normal forms: the constant unless it is zero, else those of the
quadratic terms, else those of the linear terms. -/
def divisors (F : PrimeField) (p : AcirConstraint) : List Nat :=
  if p.constant ≠ 0 then [p.constant]
  else if p.isNonlinear then F.divisorCandidates p.mult.values
  else F.divisorCandidates p.linear.values

/-- Divides every coefficient, unless the divisor has no inverse. -/
def divide? (F : PrimeField) (p : AcirConstraint) (divisor : Nat) : Option AcirConstraint := do
  let mult ← Terms.divide? F p.mult divisor
  let linear ← Terms.divide? F p.linear divisor
  let constant ← F.div? p.constant divisor
  return ⟨mult, linear, constant⟩

/-- The normal forms, ascending and without repetition. -/
def normalize (F : PrimeField) (p : AcirConstraint) : List AcirConstraint :=
  (SortedSet.ofList ((p.divisors F).filterMap (p.divide? F))).toList

/-! ## Labelled views -/

/-- The shape under a labelling of the signals. -/
def shape (p : AcirConstraint) (labels : Signal → ClassLabel) : NormShape :=
  let mult := p.mult.entries.map fun ((x, y), value) => (ascendingPair (labels x) (labels y), value)
  let linear := p.linear.entries.map fun (x, value) => (labels x, value)
  .polynomial
    ((SortedMap.groupValues mult).mapValues fun _ values => ascending values).entries
    ((SortedMap.groupValues linear).mapValues fun _ values => ascending values).entries
    p.constant

/-- The signal that shares a quadratic term with `s`. -/
def partner? (s : Signal) (pair : Signal × Signal) : Option Signal :=
  if pair.1 = s then some pair.2 else if pair.2 = s then some pair.1 else none

/-- The part that one signal plays, with its partners seen through labels. -/
def characteristic (p : AcirConstraint) (s : Signal) (labels : Signal → ClassLabel) :
    Characteristic :=
  .polynomial
    (ascending (p.mult.entries.filterMap fun (pair, value) =>
      (partner? s pair).map fun t => (labels t, value)))
    (Terms.coefficient p.linear s)

/-! ## Meaning and renaming -/

/-- The value of the polynomial under an assignment, unless a signal has no value. -/
def eval? (F : PrimeField) (p : AcirConstraint) (values : List Nat) : Option Nat := do
  let total ← p.mult.entries.foldlM (fun total term => do
    let x ← values[term.1.1]?
    let y ← values[term.1.2]?
    return F.add total (F.mul term.2 (F.mul x y))) p.constant
  p.linear.entries.foldlM (fun total term => do
    let x ← values[term.1]?
    return F.add total (F.mul term.2 x)) total

/-- Whether the values satisfy the constraint; every signal needs a value. -/
def isSatisfied (F : PrimeField) (p : AcirConstraint) (values : List Nat) : Bool :=
  p.eval? F values == some 0

/-- Renames the signals. -/
def rename (p : AcirConstraint) (f : Signal → Signal) : AcirConstraint where
  mult := SortedMap.ofList (p.mult.entries.map fun ((x, y), value) =>
    ((min (f x) (f y), max (f x) (f y)), value))
  linear := Terms.rename p.linear f
  constant := p.constant

end AcirConstraint

end CircuitEquiv
