-- SUMMARY: Arithmetic modulo a prime on natural numbers, with inverses from Bezout coefficients.
import CircuitEquiv.Field.Primality

/-!
# Prime fields

A field is its modulus `p`; its elements are the natural numbers below `p`. Every operation takes
arbitrary natural numbers and returns the representative below `p` of the result.
-/

namespace CircuitEquiv

/-- The prime field of the given modulus. -/
structure PrimeField where
  modulus : Nat
deriving DecidableEq

/-- Bezout coefficients: `a * (bezout a b).1 + b * (bezout a b).2 = gcd a b`. -/
def bezout (a b : Nat) : Int × Int :=
  if _h : b = 0 then (1, 0)
  else
    let (x, y) := bezout b (a % b)
    (y, x - (a / b : Nat) * y)
termination_by b
decreasing_by exact Nat.mod_lt a (Nat.pos_of_ne_zero _h)

namespace PrimeField

/-- The scalar field of the BN254 curve, used where no modulus is named. -/
def bn254 : PrimeField :=
  ⟨21888242871839275222246405745257275088548364400416034343698204186575808495617⟩

/-- The field of the given modulus, unless the modulus is not prime. -/
def ofModulus? (p : Nat) : Option PrimeField := if isPrime p then some ⟨p⟩ else none

/-- The name of the field. -/
def name (F : PrimeField) : String := s!"GF({F.modulus})"

/-! ## Elements -/

/-- The element that a natural number stands for. -/
def element (F : PrimeField) (n : Nat) : Nat := n % F.modulus

/-- The element that an integer stands for; negative integers wrap around the modulus. -/
def ofInt (F : PrimeField) (i : Int) : Nat := (i % (F.modulus : Int)).toNat

/-! ## Operations -/

def add (F : PrimeField) (a b : Nat) : Nat := (a + b) % F.modulus

def sub (F : PrimeField) (a b : Nat) : Nat := (a + F.modulus - b % F.modulus) % F.modulus

def neg (F : PrimeField) (a : Nat) : Nat := (F.modulus - a % F.modulus) % F.modulus

def mul (F : PrimeField) (a b : Nat) : Nat := (a * b) % F.modulus

/-- The sum of a list of elements. -/
def sum (F : PrimeField) (l : List Nat) : Nat := l.foldl F.add 0

/-- The multiplicative inverse; there is none where `a` and the modulus have a common factor. -/
def inv? (F : PrimeField) (a : Nat) : Option Nat :=
  let r := a % F.modulus
  if r ≠ 0 ∧ Nat.gcd r F.modulus = 1 then some (F.ofInt (bezout r F.modulus).1) else none

/-- The quotient `a * b⁻¹`, where `b` has an inverse. -/
def div? (F : PrimeField) (a b : Nat) : Option Nat := (F.inv? b).map (F.mul a)

end PrimeField

end CircuitEquiv
