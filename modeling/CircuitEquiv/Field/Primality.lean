-- SUMMARY: The primality test for field moduli: trial division by small primes, then strong probable-prime rounds.
/-!
# Primality

A modulus is accepted when no small prime divides it and it passes a strong probable-prime round to
each of twenty bases. The test is exact below `3.3 * 10^24`; above that a composite number passes
with probability at most `4^-20`. A prime always passes.
-/

namespace CircuitEquiv

/-- The primes up to 71: trial divisors and bases of the strong probable-prime rounds. -/
def smallPrimes : List Nat :=
  [2, 3, 5, 7, 11, 13, 17, 19, 23, 29, 31, 37, 41, 43, 47, 53, 59, 61, 67, 71]

/-- `a ^ e % n` by squaring. -/
def powMod (n a e : Nat) : Nat :=
  if e = 0 then 1 % n
  else
    let half := powMod n (a * a % n) (e / 2)
    if e % 2 = 1 then half * a % n else half
termination_by e

/-- Splits a positive number into its odd part and the exponent of two. -/
def oddPart (m : Nat) : Nat × Nat :=
  if m = 0 ∨ m % 2 = 1 then (m, 0)
  else
    let (odd, exponent) := oddPart (m / 2)
    (odd, exponent + 1)
termination_by m

/-- Whether squaring `x` fewer than `rounds + 1` times modulo `n` reaches `n - 1`. -/
def reachesMinusOne (n : Nat) : Nat → Nat → Bool
  | 0, x => x == n - 1
  | rounds + 1, x => x == n - 1 || reachesMinusOne n rounds (x * x % n)

/-- One strong probable-prime round: `n - 1 = odd * 2 ^ exponent` and `base` is the base. -/
def passesRound (n odd exponent base : Nat) : Bool :=
  let x := powMod n base odd
  x == 1 || reachesMinusOne n (exponent - 1) x

/-- Whether `n` is taken for a prime. -/
def isPrime (n : Nat) : Bool :=
  if n < 2 then false
  else
    match smallPrimes.find? (fun q => n % q == 0) with
    | some q => n == q
    | none =>
      let (odd, exponent) := oddPart (n - 1)
      smallPrimes.all (passesRound n odd exponent)

end CircuitEquiv
