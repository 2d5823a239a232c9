-- SUMMARY: Rank-one constraints: normal forms, labelled shapes, characteristics, satisfaction and renaming.
import CircuitEquiv.Constraint.Divisor
import CircuitEquiv.Constraint.Shape
import CircuitEquiv.Constraint.Terms

/-!
# Rank-one constraints

The constraint `⟨a, x⟩ * ⟨b, x⟩ = ⟨c, x⟩` on the signal values `x`. The two factors may be exchanged
and each part may be scaled, as long as the product of the factors' scales is that of `c`; where a
factor is empty the product vanishes and `c` may be scaled on its own.
-/

namespace CircuitEquiv

/-- A rank-one constraint. -/
structure R1csConstraint where
  a : Terms
  b : Terms
  c : Terms
deriving DecidableEq, Inhabited

namespace R1csConstraint

/-! ## Construction and order -/

/-- The constraint with the given parts, zero coefficients dropped. -/
def ofParts (a b c : Terms) : R1csConstraint :=
  ⟨Terms.dropZeros a, Terms.dropZeros b, Terms.dropZeros c⟩

/-- The constraint with the given term lists; in each a later term of a signal replaces an earlier
one. -/
def ofTerms (a b c : List (Signal × Nat)) : R1csConstraint :=
  ofParts (Terms.ofList a) (Terms.ofList b) (Terms.ofList c)

/-- The constraint with the given term lists, their integers taken into the field. -/
def ofInts (F : PrimeField) (a b c : List (Signal × Int)) : R1csConstraint :=
  ofTerms (Terms.reduceInts F a) (Terms.reduceInts F b) (Terms.reduceInts F c)

/-- The key that constraints are ordered by. -/
def key (r : R1csConstraint) : Terms × Terms × Terms := (r.a, r.b, r.c)

theorem key_injective (r s : R1csConstraint) (h : r.key = s.key) : r = s := by
  cases r; cases s; simp_all [key]

instance : Ord R1csConstraint := ⟨fun r s => compare r.key s.key⟩

instance : Std.TransOrd R1csConstraint := transOrd_of_key key fun _ _ => rfl

instance : Std.LawfulEqOrd R1csConstraint := lawfulEqOrd_of_key key (fun _ _ => rfl) key_injective

/-! ## Form -/

/-- A constraint is linear when its product vanishes. -/
def isLinear (r : R1csConstraint) : Bool := r.a.isEmpty || r.b.isEmpty

/-- The signals that occur, the constant signal left out. -/
def signals (r : R1csConstraint) : SortedSet Signal :=
  SortedSet.ofList ((r.a.keys ++ r.b.keys ++ r.c.keys).filter (· ≠ constantSignal))

/-- Whether the factors have the same coefficients and so cannot be told apart by them. -/
def isUnordered (r : R1csConstraint) : Bool :=
  !r.a.isEmpty && Terms.sortedValues r.a == Terms.sortedValues r.b

/-! ## Normal forms -/

/-- The divisors of the three parts. -/
structure Divisors where
  a : Nat
  b : Nat
  c : Nat
deriving DecidableEq

/-- The candidate divisors of one part: the coefficient of the constant signal where it has one. -/
def partDivisors (F : PrimeField) (t : Terms) : List Nat :=
  match t.get? constantSignal with
  | some value => [value]
  | none => F.divisorCandidates t.values

/-- The divisors that lead to normal forms. That of `c` is the product of the others, unless the
product of the factors vanishes. -/
def divisors (F : PrimeField) (r : R1csConstraint) : List Divisors :=
  (partDivisors F r.a).flatMap fun a =>
    (partDivisors F r.b).flatMap fun b =>
      if r.isLinear then (partDivisors F r.c).map fun c => ⟨a, b, c⟩
      else [⟨a, b, F.mul a b⟩]

/-- Puts the factors into canonical order: by their ascending coefficients, then by their terms. -/
def orderFactors (a b : Terms) : Terms × Terms :=
  if ((compare (Terms.sortedValues a) (Terms.sortedValues b)).then (compare a b)).isLE then (a, b)
  else (b, a)

/-- Divides the parts and orders the factors, unless a divisor has no inverse. -/
def divide? (F : PrimeField) (r : R1csConstraint) (d : Divisors) : Option R1csConstraint := do
  let a ← Terms.divide? F r.a d.a
  let b ← Terms.divide? F r.b d.b
  let c ← Terms.divide? F r.c d.c
  let (a, b) := orderFactors a b
  return ⟨a, b, c⟩

/-- The normal forms, ascending and without repetition. -/
def normalize (F : PrimeField) (r : R1csConstraint) : List R1csConstraint :=
  (SortedSet.ofList ((r.divisors F).filterMap (r.divide? F))).toList

/-! ## Labelled views -/

/-- The shape under a labelling of the signals. -/
def shape (r : R1csConstraint) (labels : Signal → ClassLabel) : NormShape :=
  let c := Terms.labelled r.c labels
  if r.isUnordered then
    let both := r.a.entries.filterMap fun (s, x) =>
      (r.b.get? s).map fun y => (labels s, ascendingPair x y)
    let onlyIn (t u : Terms) : LabelledTerms :=
      (t.entries.filter fun e => !u.contains e.1).map fun e => (labels e.1, e.2)
    .unordered (ascending both) (ascending (onlyIn r.a r.b ++ onlyIn r.b r.a)) c
  else .ordered (Terms.labelled r.a labels) (Terms.labelled r.b labels) c

/-- The part that one signal plays. -/
def characteristic (r : R1csConstraint) (s : Signal) : Characteristic :=
  let x := Terms.coefficient r.a s
  let y := Terms.coefficient r.b s
  let z := Terms.coefficient r.c s
  if !r.isUnordered then .product (x, 0) y z
  else if x ≠ 0 ∧ y ≠ 0 then .product (ascendingPair x y) 0 z
  else .product (0, 0) (x + y) z

/-! ## Meaning and renaming -/

/-- Whether the values satisfy the constraint; every signal needs a value. -/
def isSatisfied (F : PrimeField) (r : R1csConstraint) (values : List Nat) : Bool :=
  match Terms.eval? F r.a values, Terms.eval? F r.b values, Terms.eval? F r.c values with
  | some a, some b, some c => F.mul a b == c
  | _, _, _ => false

/-- Renames the signals. -/
def rename (r : R1csConstraint) (f : Signal → Signal) : R1csConstraint :=
  ⟨Terms.rename r.a f, Terms.rename r.b f, Terms.rename r.c f⟩

end R1csConstraint

end CircuitEquiv
