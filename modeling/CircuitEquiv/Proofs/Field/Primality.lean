-- SUMMARY: The primality test accepts every prime, and rejects numbers below two and proper multiples of small primes.
import CircuitEquiv.Field.Primality
import Mathlib.Algebra.Field.ZMod
import Mathlib.FieldTheory.Finite.Basic
import Mathlib.Tactic.IntervalCases
import Mathlib.Tactic.NormNum.Prime

/-!
# The primality test

Modulo a prime, the power of a base to the number before the prime is one, and one has no square roots but
itself and minus one. So when the power is reached by squaring, either it was one from the start or minus
one comes up before. That is what a round looks for, with as many squarings as there are factors of two.
-/

namespace CircuitEquiv

variable {n : Nat}

theorem powMod_eq (n a e : Nat) : powMod n a e = a ^ e % n := by
  -- the exponent is halved and the base squared
  have hhalf : ∀ {a e : Nat}, powMod n (a * a % n) (e / 2) = (a * a % n) ^ (e / 2) % n →
      powMod n (a * a % n) (e / 2) = a ^ (2 * (e / 2)) % n := fun {a e} ih => by
    rw [ih, ← Nat.pow_mod, ← Nat.pow_two, ← Nat.pow_mul]
  induction a, e using powMod.induct n with
  | case1 a => simp [powMod]
  | case2 a e he hodd ih =>
    rw [powMod, if_neg he, if_pos hodd, hhalf ih, Nat.mod_mul_mod, ← Nat.pow_succ]
    congr 2
    omega
  | case3 a e he heven ih =>
    rw [powMod, if_neg he, if_neg heven, hhalf ih]
    congr 2
    omega

/-- A positive number is its odd part times a power of two. -/
theorem oddPart_spec {m : Nat} (hm : 0 < m) :
    m = (oddPart m).1 * 2 ^ (oddPart m).2 ∧ (oddPart m).1 % 2 = 1 := by
  induction m using oddPart.induct with
  | case1 m h =>
    rw [oddPart, if_pos h]
    exact ⟨(Nat.mul_one m).symm, h.resolve_left hm.ne'⟩
  | case2 m h odd exponent heq ih =>
    obtain ⟨hhalf, hodd⟩ := ih (by omega)
    rw [oddPart, if_neg h, heq]
    rw [heq] at hhalf hodd
    dsimp only at hhalf hodd ⊢
    refine ⟨?_, hodd⟩
    rw [Nat.pow_succ, ← Nat.mul_assoc, ← hhalf]
    omega

theorem exponent_pos {m : Nat} (hm : 0 < m) (heven : m % 2 = 0) : 0 < (oddPart m).2 := by
  obtain ⟨hsplit, hodd⟩ := oddPart_spec hm
  by_contra hzero
  rw [Nat.eq_zero_of_not_pos hzero, Nat.pow_zero, Nat.mul_one] at hsplit
  omega

/-! ## Rounds -/

section Prime

variable [hn : Fact n.Prime]

theorem eq_one_of_cast {x : Nat} (hx : x < n) (h : (x : ZMod n) = 1) : x = 1 := by
  rwa [← Nat.cast_one, ZMod.natCast_eq_natCast_iff', Nat.mod_eq_of_lt hx,
    Nat.mod_eq_of_lt hn.out.one_lt] at h

theorem eq_sub_one_of_cast {x : Nat} (hx : x < n) (h : (x : ZMod n) = -1) : x = n - 1 := by
  have hsucc : ((x + 1 : Nat) : ZMod n) = 0 := by
    rw [Nat.cast_add, h, Nat.cast_one, neg_add_cancel]
  have hle := Nat.le_of_dvd x.succ_pos ((ZMod.natCast_eq_zero_iff _ _).1 hsucc)
  omega

/-- One has no square roots modulo a prime but itself and minus one. -/
theorem eq_one_or_of_sq {x : Nat} (hx : x < n) (h : (x : ZMod n) * x = 1) : x = 1 ∨ x = n - 1 :=
  (mul_self_eq_one_iff.1 h).imp (eq_one_of_cast hx) (eq_sub_one_of_cast hx)

/-- If squaring `rounds + 1` times leads to one, then minus one comes up on the way unless the number is
one from the start. -/
theorem reachesMinusOne_of_pow_eq_one {rounds x : Nat} (hx : x < n)
    (h : (x : ZMod n) ^ 2 ^ (rounds + 1) = 1) : x = 1 ∨ reachesMinusOne n rounds x = true := by
  induction rounds generalizing x with
  | zero =>
    refine (eq_one_or_of_sq hx (by rwa [← sq])).imp_right fun hlast => ?_
    simp [reachesMinusOne, hlast]
  | succ rounds ih =>
    have hsquare : ((x * x % n : Nat) : ZMod n) = (x : ZMod n) * x := by
      rw [ZMod.natCast_mod, Nat.cast_mul]
    have hpow : ((x * x % n : Nat) : ZMod n) ^ 2 ^ (rounds + 1) = 1 := by
      rw [hsquare, ← sq, ← pow_mul, ← pow_succ', h]
    rcases ih (Nat.mod_lt _ hn.out.pos) hpow with hone | hreach
    · rw [hone, Nat.cast_one] at hsquare
      refine (eq_one_or_of_sq hx hsquare.symm).imp_right fun hlast => ?_
      simp [reachesMinusOne, hlast]
    · exact .inr (by simp [reachesMinusOne, hreach])

/-- An odd prime passes the round of every base that it does not divide. -/
theorem passesRound_of_prime (hodd : n % 2 = 1) {base : Nat} (hbase : ¬n ∣ base) :
    passesRound n (oddPart (n - 1)).1 (oddPart (n - 1)).2 base = true := by
  have hpos : 0 < n - 1 := Nat.sub_pos_of_lt hn.out.one_lt
  obtain ⟨hsplit, -⟩ := oddPart_spec hpos
  have hexponent := exponent_pos hpos (by omega)
  have hfermat : (base : ZMod n) ^ (n - 1) = 1 :=
    ZMod.pow_card_sub_one_eq_one fun hz => hbase ((ZMod.natCast_eq_zero_iff _ _).1 hz)
  have hpow : ((powMod n base (oddPart (n - 1)).1 : Nat) : ZMod n) ^
      2 ^ ((oddPart (n - 1)).2 - 1 + 1) = 1 := by
    rw [powMod_eq, ZMod.natCast_mod, Nat.cast_pow, ← pow_mul, Nat.sub_add_cancel hexponent, ← hsplit,
      hfermat]
  have hlt : powMod n base (oddPart (n - 1)).1 < n := by
    rw [powMod_eq]
    exact Nat.mod_lt _ hn.out.pos
  rcases reachesMinusOne_of_pow_eq_one hlt hpow with hone | hreach
  · simp [passesRound, hone]
  · simp [passesRound, hreach]

end Prime

/-! ## The test -/

theorem prime_of_mem_smallPrimes {q : Nat} (hq : q ∈ smallPrimes) : q.Prime := by
  simp only [smallPrimes, List.mem_cons, List.not_mem_nil, or_false] at hq
  rcases hq with rfl | rfl | rfl | rfl | rfl | rfl | rfl | rfl | rfl | rfl | rfl | rfl | rfl | rfl |
    rfl | rfl | rfl | rfl | rfl | rfl <;> norm_num

theorem mem_smallPrimes {q : Nat} (hq : q.Prime) (hle : q ≤ 71) : q ∈ smallPrimes := by
  interval_cases q <;> first | decide | (exact absurd hq (by norm_num))

/-- Every prime is accepted. -/
theorem isPrime_of_prime (hn : n.Prime) : isPrime n = true := by
  have hprime : Fact n.Prime := ⟨hn⟩
  unfold isPrime
  rw [if_neg (Nat.not_lt.2 hn.two_le)]
  cases hfind : smallPrimes.find? (fun q => n % q == 0) with
  | some q =>
    have hq := prime_of_mem_smallPrimes (List.mem_of_find?_eq_some hfind)
    have hdvd : q ∣ n := by simpa [Nat.dvd_iff_mod_eq_zero] using List.find?_some hfind
    simp [(Nat.prime_dvd_prime_iff_eq hq hn).1 hdvd]
  | none =>
    have hndvd : ∀ q ∈ smallPrimes, ¬q ∣ n := by
      simpa [Nat.dvd_iff_mod_eq_zero] using List.find?_eq_none.1 hfind
    have hodd : n % 2 = 1 := by
      have := hndvd 2 (by decide)
      omega
    refine List.all_eq_true.2 fun q hq => passesRound_of_prime hodd fun hdvd => hndvd q hq ?_
    rw [(Nat.prime_dvd_prime_iff_eq hn (prime_of_mem_smallPrimes hq)).1 hdvd]

theorem isPrime_eq_false_of_lt (h : n < 2) : isPrime n = false := if_pos h

/-- A multiple of a small prime is rejected, unless it is the prime itself. -/
theorem isPrime_eq_false_of_dvd {q : Nat} (hq : q.Prime) (hle : q ≤ 71) (hdvd : q ∣ n) (hne : n ≠ q) :
    isPrime n = false := by
  unfold isPrime
  split
  · rfl
  cases hfind : smallPrimes.find? (fun q => n % q == 0) with
  | none =>
    exact absurd (by simp [Nat.mod_eq_zero_of_dvd hdvd])
      (List.find?_eq_none.1 hfind q (mem_smallPrimes hq hle))
  | some r =>
    have hr := prime_of_mem_smallPrimes (List.mem_of_find?_eq_some hfind)
    refine beq_eq_false_iff_ne.2 fun heq => hne ?_
    rw [heq, (Nat.prime_dvd_prime_iff_eq hq hr).1 (heq ▸ hdvd)]

end CircuitEquiv
