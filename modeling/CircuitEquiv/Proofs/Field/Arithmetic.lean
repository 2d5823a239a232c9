-- SUMMARY: The operations of a prime field are those of the integers modulo the prime, each result the one representative below it.
import CircuitEquiv.Field
import Mathlib.Algebra.BigOperators.Ring.Finset
import Mathlib.Algebra.Field.ZMod
import Mathlib.Data.Int.ModEq
import Mathlib.Tactic.FieldSimp
import Mathlib.Tactic.LinearCombination
import Mathlib.Tactic.NormNum.Prime
import Mathlib.Tactic.Ring

/-!
# Arithmetic of prime fields

Elements are compared by casting them into the integers modulo the prime, where they can be
calculated with. The cast is injective on numbers below the modulus.

The operations take arbitrary natural numbers, reduced or not. Each result is the one number below the
modulus that is congruent to the sum, the difference or the product of the arguments, taken as integers.
Inverses and quotients exist for all divisors that the modulus does not divide.
-/

namespace CircuitEquiv

/-- The coefficients of Bezout's identity. -/
theorem bezout_spec (a b : Nat) :
    (a : Int) * (bezout a b).1 + (b : Int) * (bezout a b).2 = (Nat.gcd a b : Int) := by
  induction a, b using bezout.induct with
  | case1 a =>
    rw [bezout]
    simp
  | case2 a b hb x y hxy ih =>
    rw [bezout, dif_neg hb]
    have hgcd : Nat.gcd a b = Nat.gcd b (a % b) := by
      rw [Nat.gcd_comm a b, Nat.gcd_rec b a, Nat.gcd_comm]
    have hdiv : (a : Int) = (b : Int) * (a / b : Nat) + (a % b : Nat) := by
      exact_mod_cast (Nat.div_add_mod a b).symm
    rw [hxy] at ih ⊢
    dsimp only at ih ⊢
    rw [hgcd, ← ih]
    linear_combination y * hdiv

namespace PrimeField

variable {F : PrimeField}

/-- A number that stands for a nonzero element. -/
def IsNonzero (F : PrimeField) (a : Nat) : Prop := 0 < a ∧ a < F.modulus

instance (F : PrimeField) (a : Nat) : Decidable (F.IsNonzero a) :=
  inferInstanceAs (Decidable (0 < a ∧ a < F.modulus))

/-- The representative of the inverse of an element. -/
def inverse (F : PrimeField) (a : Nat) : Nat := F.ofInt (bezout (a % F.modulus) F.modulus).1

/-! ## Casting -/

@[simp]
theorem cast_element (a : Nat) : ((F.element a : Nat) : ZMod F.modulus) = a := by
  simp [element]

@[simp]
theorem cast_add (a b : Nat) : ((F.add a b : Nat) : ZMod F.modulus) = a + b := by
  simp [add]

@[simp]
theorem cast_mul (a b : Nat) : ((F.mul a b : Nat) : ZMod F.modulus) = a * b := by
  simp [mul]

theorem cast_foldl_add (l : List Nat) (a : Nat) :
    ((l.foldl F.add a : Nat) : ZMod F.modulus) = a + (l.map (Nat.cast : Nat → ZMod F.modulus)).sum := by
  induction l generalizing a with
  | nil => simp
  | cons b rest ih => rw [List.foldl_cons, ih, List.map_cons, List.sum_cons, cast_add, add_assoc]

@[simp]
theorem cast_sum (l : List Nat) :
    ((F.sum l : Nat) : ZMod F.modulus) = (l.map (Nat.cast : Nat → ZMod F.modulus)).sum := by
  simp [sum, cast_foldl_add]

/-- Numbers below the modulus are told apart by their casts. -/
theorem eq_of_cast_eq {a b : Nat} (ha : a < F.modulus) (hb : b < F.modulus)
    (h : (a : ZMod F.modulus) = b) : a = b := by
  rw [ZMod.natCast_eq_natCast_iff', Nat.mod_eq_of_lt ha, Nat.mod_eq_of_lt hb] at h
  exact h

theorem cast_eq_zero_iff {a : Nat} (ha : a < F.modulus) : (a : ZMod F.modulus) = 0 ↔ a = 0 := by
  constructor
  · intro h
    exact eq_of_cast_eq ha (Nat.zero_lt_of_lt ha) (by simpa using h)
  · rintro rfl
    simp

theorem IsNonzero.cast_ne_zero {a : Nat} (h : F.IsNonzero a) : (a : ZMod F.modulus) ≠ 0 := by
  rw [Ne, cast_eq_zero_iff h.2]
  exact Nat.pos_iff_ne_zero.1 h.1

theorem isNonzero_of_cast_ne_zero {a : Nat} (ha : a < F.modulus) (h : (a : ZMod F.modulus) ≠ 0) :
    F.IsNonzero a := by
  refine ⟨Nat.pos_of_ne_zero ?_, ha⟩
  rintro rfl
  simp at h

/-! ## Integers -/

/-- A negative integer wraps around the modulus, however far below zero it is. -/
theorem natCast_ofInt (hF : 0 < F.modulus) (i : Int) : (F.ofInt i : Int) = i % F.modulus :=
  Int.toNat_of_nonneg (Int.emod_nonneg i (Int.natCast_pos.2 hF).ne')

theorem ofInt_lt (hF : 0 < F.modulus) (i : Int) : F.ofInt i < F.modulus := by
  have hlt := Int.emod_lt_of_pos i (Int.natCast_pos.2 hF)
  rw [← natCast_ofInt hF] at hlt
  exact Int.ofNat_lt.1 hlt

theorem cast_ofInt (hF : 0 < F.modulus) (i : Int) : ((F.ofInt i : Nat) : ZMod F.modulus) = i := by
  rw [← Int.cast_natCast, natCast_ofInt hF, ZMod.intCast_mod]

/-! ## Bounds -/

section Prime

variable [hp : Fact F.modulus.Prime]

theorem modulus_pos : 0 < F.modulus := hp.out.pos

theorem add_lt (a b : Nat) : F.add a b < F.modulus := Nat.mod_lt _ modulus_pos

theorem mul_lt (a b : Nat) : F.mul a b < F.modulus := Nat.mod_lt _ modulus_pos

theorem sum_lt (l : List Nat) : F.sum l < F.modulus := by
  have h : ∀ a < F.modulus, l.foldl F.add a < F.modulus := by
    induction l with
    | nil => exact fun a ha => ha
    | cons b rest ih => exact fun a _ => ih _ (add_lt a b)
  exact h 0 modulus_pos

theorem isNonzero_one : F.IsNonzero 1 := ⟨Nat.one_pos, hp.out.one_lt⟩

/-! ## Inverses -/

/-- Every element but zero has the inverse that the Bezout coefficients give. -/
theorem inv?_eq_some {a : Nat} (h : (a : ZMod F.modulus) ≠ 0) : F.inv? a = some (F.inverse a) := by
  have hndvd : ¬F.modulus ∣ a := fun hd => h ((ZMod.natCast_eq_zero_iff _ _).2 hd)
  have hmod : a % F.modulus ≠ 0 := fun hz => hndvd (Nat.dvd_of_mod_eq_zero hz)
  have hgcd : Nat.gcd (a % F.modulus) F.modulus = 1 := by
    rw [← Nat.gcd_rec, Nat.gcd_comm]
    exact ((Nat.Prime.coprime_iff_not_dvd hp.out).2 hndvd).symm
  simp [inv?, inverse, hmod, hgcd]

theorem inverse_lt (a : Nat) : F.inverse a < F.modulus := ofInt_lt modulus_pos _

@[simp]
theorem cast_inverse {a : Nat} (h : (a : ZMod F.modulus) ≠ 0) :
    ((F.inverse a : Nat) : ZMod F.modulus) = (a : ZMod F.modulus)⁻¹ := by
  have hndvd : ¬F.modulus ∣ a := fun hd => h ((ZMod.natCast_eq_zero_iff _ _).2 hd)
  have hgcd : Nat.gcd (a % F.modulus) F.modulus = 1 := by
    rw [← Nat.gcd_rec, Nat.gcd_comm]
    exact ((Nat.Prime.coprime_iff_not_dvd hp.out).2 hndvd).symm
  have hcast : ((F.inverse a : Nat) : ZMod F.modulus) =
      (((bezout (a % F.modulus) F.modulus).1 : Int) : ZMod F.modulus) := cast_ofInt modulus_pos _
  have hbezout := congrArg (Int.cast : Int → ZMod F.modulus) (bezout_spec (a % F.modulus) F.modulus)
  rw [hgcd] at hbezout
  simp only [Int.cast_add, Int.cast_mul, Int.cast_natCast, ZMod.natCast_mod, CharP.cast_eq_zero,
    zero_mul, add_zero, Nat.cast_one] at hbezout
  rw [hcast]
  exact eq_inv_of_mul_eq_one_right (by simpa using hbezout)

theorem IsNonzero.inverse {a : Nat} (h : F.IsNonzero a) : F.IsNonzero (F.inverse a) := by
  apply isNonzero_of_cast_ne_zero (inverse_lt a)
  rw [cast_inverse h.cast_ne_zero]
  exact inv_ne_zero h.cast_ne_zero

theorem IsNonzero.mul {a b : Nat} (ha : F.IsNonzero a) (hb : F.IsNonzero b) :
    F.IsNonzero (F.mul a b) := by
  apply isNonzero_of_cast_ne_zero (mul_lt a b)
  rw [cast_mul]
  exact mul_ne_zero ha.cast_ne_zero hb.cast_ne_zero

theorem div?_eq_some {a b : Nat} (h : F.IsNonzero b) : F.div? a b = some (F.mul a (F.inverse b)) := by
  rw [div?, inv?_eq_some h.cast_ne_zero]
  rfl

theorem inverse_mul {a b : Nat} (ha : F.IsNonzero a) (hb : F.IsNonzero b) :
    F.inverse (F.mul a b) = F.mul (F.inverse a) (F.inverse b) := by
  apply eq_of_cast_eq (inverse_lt _) (mul_lt _ _)
  rw [cast_inverse (ha.mul hb).cast_ne_zero, cast_mul, cast_mul,
    cast_inverse ha.cast_ne_zero, cast_inverse hb.cast_ne_zero, mul_inv]

/-! ## Multiplication -/

omit hp in
theorem mul_comm (a b : Nat) : F.mul a b = F.mul b a := by
  rw [PrimeField.mul, PrimeField.mul, Nat.mul_comm]

omit hp in
theorem mul_assoc (a b c : Nat) : F.mul (F.mul a b) c = F.mul a (F.mul b c) := by
  simp [PrimeField.mul, Nat.mul_assoc]

omit hp in
theorem mul_mul_mul_comm (a b c d : Nat) :
    F.mul (F.mul a b) (F.mul c d) = F.mul (F.mul a c) (F.mul b d) := by
  rw [mul_assoc, mul_assoc, ← mul_assoc b, mul_comm b c, mul_assoc c]

omit hp in
theorem mul_one {a : Nat} (h : a < F.modulus) : F.mul a 1 = a := by
  simp [PrimeField.mul, Nat.mod_eq_of_lt h]

theorem mul_inverse {a : Nat} (h : F.IsNonzero a) : F.mul a (F.inverse a) = 1 := by
  apply eq_of_cast_eq (mul_lt _ _) isNonzero_one.2
  rw [cast_mul, cast_inverse h.cast_ne_zero, mul_inv_cancel₀ h.cast_ne_zero, Nat.cast_one]

/-- The factor of numerator and denominator cancels. -/
theorem mul_inverse_mul {a b k : Nat} (hb : F.IsNonzero b) (hk : F.IsNonzero k) :
    F.mul (F.mul a k) (F.inverse (F.mul b k)) = F.mul a (F.inverse b) := by
  have hb0 := hb.cast_ne_zero
  have hk0 := hk.cast_ne_zero
  apply eq_of_cast_eq (mul_lt _ _) (mul_lt _ _)
  rw [cast_mul, cast_mul, cast_mul, cast_inverse (hb.mul hk).cast_ne_zero, cast_mul,
    cast_inverse hb0]
  field_simp

/-- Quotients are equal if the products taken crosswise are. -/
theorem mul_inverse_eq_iff {a b c d : Nat} (hb : F.IsNonzero b) (hd : F.IsNonzero d) :
    F.mul a (F.inverse b) = F.mul c (F.inverse d) ↔ F.mul a d = F.mul c b := by
  have hmul : ∀ x y u v : Nat, F.mul x y = F.mul u v ↔ (x * y : ZMod F.modulus) = u * v := by
    intro x y u v
    rw [← cast_mul, ← cast_mul]
    exact ⟨fun h => h ▸ rfl, eq_of_cast_eq (mul_lt _ _) (mul_lt _ _)⟩
  rw [hmul, hmul, cast_inverse hb.cast_ne_zero, cast_inverse hd.cast_ne_zero, ← div_eq_mul_inv,
    ← div_eq_mul_inv, div_eq_div_iff hb.cast_ne_zero hd.cast_ne_zero]

theorem mul_injective {a b k : Nat} (ha : a < F.modulus) (hb : b < F.modulus) (hk : F.IsNonzero k)
    (h : F.mul a k = F.mul b k) : a = b := by
  apply eq_of_cast_eq ha hb
  have := congrArg (fun n : Nat => (n : ZMod F.modulus)) h
  simp only [cast_mul] at this
  exact mul_right_cancel₀ hk.cast_ne_zero this

end Prime

/-! ## Representatives -/

/-- The number is below the modulus and congruent to the integer. -/
def IsRepresentative (F : PrimeField) (i : Int) (n : Nat) : Prop :=
  n < F.modulus ∧ (n : Int) ≡ i [ZMOD F.modulus]

theorem isRepresentative_iff_cast {i : Int} {n : Nat} :
    F.IsRepresentative i n ↔ n < F.modulus ∧ (n : ZMod F.modulus) = i := by
  rw [IsRepresentative, ← ZMod.intCast_eq_intCast_iff, Int.cast_natCast]

theorem IsRepresentative.unique {i : Int} {m n : Nat} (hm : F.IsRepresentative i m)
    (hn : F.IsRepresentative i n) : m = n := by
  rw [isRepresentative_iff_cast] at hm hn
  exact eq_of_cast_eq hm.1 hn.1 (hm.2.trans hn.2.symm)

/-- What is congruent to the integer and below the modulus is its only representative. -/
theorem isRepresentative_iff_eq {i : Int} {m : Nat} (hlt : m < F.modulus)
    (hcast : (m : ZMod F.modulus) = i) (n : Nat) : F.IsRepresentative i n ↔ n = m := by
  have hm : F.IsRepresentative i m := isRepresentative_iff_cast.2 ⟨hlt, hcast⟩
  exact ⟨fun hn => hn.unique hm, fun h => h ▸ hm⟩

theorem cast_eq_zero_iff_dvd {a : Nat} : (a : ZMod F.modulus) = 0 ↔ F.modulus ∣ a :=
  ZMod.natCast_eq_zero_iff a F.modulus

theorem modEq_iff_cast {a b : Nat} :
    a ≡ b [MOD F.modulus] ↔ (a : ZMod F.modulus) = (b : ZMod F.modulus) :=
  (ZMod.natCast_eq_natCast_iff a b F.modulus).symm

/-! ## Differences -/

/-- What a difference takes away is not more than what it takes it from. -/
theorem mod_le_add (hF : 0 < F.modulus) (a b : Nat) : b % F.modulus ≤ a + F.modulus :=
  (Nat.mod_lt b hF).le.trans (Nat.le_add_left _ _)

theorem cast_sub (hF : 0 < F.modulus) (a b : Nat) :
    ((F.sub a b : Nat) : ZMod F.modulus) = a - b := by
  rw [sub, ZMod.natCast_mod, Nat.cast_sub (mod_le_add hF a b)]
  simp

theorem cast_neg (hF : 0 < F.modulus) (a : Nat) : ((F.neg a : Nat) : ZMod F.modulus) = -a := by
  rw [neg, ZMod.natCast_mod, Nat.cast_sub (Nat.mod_lt a hF).le]
  simp

/-- A negative integer stands for the negative of its magnitude. -/
theorem ofInt_eq_ite (hF : 0 < F.modulus) (i : Int) :
    F.ofInt i = if i < 0 then F.neg (F.element i.natAbs) else F.element i.natAbs := by
  apply eq_of_cast_eq (ofInt_lt hF i)
  · split
    · exact Nat.mod_lt _ hF
    · exact Nat.mod_lt _ hF
  rw [cast_ofInt hF]
  split
  · rename_i hi
    rw [cast_neg hF, cast_element, ← Int.cast_natCast, Int.ofNat_natAbs_of_nonpos hi.le]
    simp
  · rename_i hi
    rw [cast_element, ← Int.cast_natCast, Int.natAbs_of_nonneg (Int.not_lt.1 hi)]

/-! ## Inverses and quotients -/

section Prime

variable [hp : Fact F.modulus.Prime]

theorem inv?_eq_none_iff {a : Nat} : F.inv? a = none ↔ F.modulus ∣ a := by
  constructor
  · intro h
    by_contra hndvd
    rw [inv?_eq_some fun hz => hndvd (cast_eq_zero_iff_dvd.1 hz)] at h
    cases h
  · intro h
    simp [inv?, Nat.mod_eq_zero_of_dvd h]

theorem inv?_eq_some_iff {a x : Nat} : F.inv? a = some x ↔
    ¬F.modulus ∣ a ∧ 0 < x ∧ x < F.modulus ∧ a * x ≡ 1 [MOD F.modulus] := by
  rw [modEq_iff_cast, Nat.cast_mul, Nat.cast_one]
  constructor
  · intro h
    have hndvd : ¬F.modulus ∣ a := fun hd => by
      rw [inv?_eq_none_iff.2 hd] at h
      cases h
    have ha : (a : ZMod F.modulus) ≠ 0 := fun hz => hndvd (cast_eq_zero_iff_dvd.1 hz)
    obtain rfl := Option.some.inj ((inv?_eq_some ha).symm.trans h)
    have hmul : (a : ZMod F.modulus) * (F.inverse a : Nat) = 1 := by
      rw [cast_inverse ha, mul_inv_cancel₀ ha]
    have hnonzero := isNonzero_of_cast_ne_zero (inverse_lt a) (right_ne_zero_of_mul_eq_one hmul)
    exact ⟨hndvd, hnonzero.1, hnonzero.2, hmul⟩
  · rintro ⟨hndvd, -, hlt, hmul⟩
    have ha : (a : ZMod F.modulus) ≠ 0 := fun hz => hndvd (cast_eq_zero_iff_dvd.1 hz)
    rw [inv?_eq_some ha]
    refine congrArg some (eq_of_cast_eq (inverse_lt a) hlt ?_)
    rw [cast_inverse ha]
    exact (eq_inv_of_mul_eq_one_right hmul).symm

theorem div?_eq_none_iff {a b : Nat} : F.div? a b = none ↔ F.modulus ∣ b := by
  rw [div?, Option.map_eq_none_iff, inv?_eq_none_iff]

theorem div?_eq_some_iff {a b q : Nat} : F.div? a b = some q ↔
    ¬F.modulus ∣ b ∧ q < F.modulus ∧ q * b ≡ a [MOD F.modulus] := by
  rw [div?, Option.map_eq_some_iff, modEq_iff_cast, Nat.cast_mul]
  constructor
  · rintro ⟨x, hx, rfl⟩
    obtain ⟨hndvd, -, -, hmul⟩ := inv?_eq_some_iff.1 hx
    rw [modEq_iff_cast, Nat.cast_mul, Nat.cast_one] at hmul
    refine ⟨hndvd, mul_lt a x, ?_⟩
    calc ((F.mul a x : Nat) : ZMod F.modulus) * b = a * (b * x) := by rw [cast_mul]; ring
      _ = a * 1 := by rw [hmul]
      _ = a := by ring
  · rintro ⟨hndvd, hlt, hq⟩
    have hb : (b : ZMod F.modulus) ≠ 0 := fun hz => hndvd (cast_eq_zero_iff_dvd.1 hz)
    refine ⟨F.inverse b, inv?_eq_some hb, eq_of_cast_eq (mul_lt _ _) hlt ?_⟩
    rw [cast_mul, cast_inverse hb, ← hq, mul_inv_cancel_right₀ hb]

end Prime

/-! ## All operations -/

/-- The operations of a prime field are those of the integers modulo the prime, for arguments of any size:
each result is the only representative of the integer that it stands for, and what is subtracted is never
more than what it is subtracted from. There is an inverse of `a`, and a quotient by `a`, unless the prime
divides `a`, and it is the only representative that solves its equation. -/
theorem operations_exact (hp : F.modulus.Prime) :
    (∀ a n : Nat, F.IsRepresentative a n ↔ n = F.element a) ∧
    (∀ a b n : Nat, F.IsRepresentative (a + b) n ↔ n = F.add a b) ∧
    (∀ a b n : Nat, F.IsRepresentative (a - b) n ↔ n = F.sub a b) ∧
    (∀ a n : Nat, F.IsRepresentative (-a) n ↔ n = F.neg a) ∧
    (∀ a b : Nat, b % F.modulus ≤ a + F.modulus ∧ a % F.modulus ≤ F.modulus) ∧
    (∀ a b n : Nat, F.IsRepresentative (a * b) n ↔ n = F.mul a b) ∧
    (∀ (l : List Nat) (n : Nat), F.IsRepresentative (l.map Nat.cast).sum n ↔ n = F.sum l) ∧
    (∀ (i : Int) (n : Nat), F.IsRepresentative i n ↔ n = F.ofInt i) ∧
    (∀ i : Int, F.ofInt i = if i < 0 then F.neg (F.element i.natAbs) else F.element i.natAbs) ∧
    (∀ a x : Nat, F.inv? a = some x ↔
      ¬F.modulus ∣ a ∧ 0 < x ∧ x < F.modulus ∧ a * x ≡ 1 [MOD F.modulus]) ∧
    (∀ a : Nat, F.inv? a = none ↔ F.modulus ∣ a) ∧
    (∀ a b q : Nat, F.div? a b = some q ↔
      ¬F.modulus ∣ b ∧ q < F.modulus ∧ q * b ≡ a [MOD F.modulus]) ∧
    ∀ a b : Nat, F.div? a b = none ↔ F.modulus ∣ b := by
  have hprime : Fact F.modulus.Prime := ⟨hp⟩
  have hF : 0 < F.modulus := hp.pos
  refine ⟨fun a => ?_, fun a b => ?_, fun a b => ?_, fun a => ?_, fun a b => ?_, fun a b => ?_,
    fun l => ?_, fun i => ?_, ofInt_eq_ite hF, fun _ _ => inv?_eq_some_iff, fun _ => inv?_eq_none_iff,
    fun _ _ _ => div?_eq_some_iff, fun _ _ => div?_eq_none_iff⟩
  · exact isRepresentative_iff_eq (Nat.mod_lt a hF) (by simp)
  · exact isRepresentative_iff_eq (add_lt a b) (by simp)
  · exact isRepresentative_iff_eq (Nat.mod_lt _ hF) (by simp [cast_sub hF])
  · exact isRepresentative_iff_eq (Nat.mod_lt _ hF) (by simp [cast_neg hF])
  · exact ⟨mod_le_add hF a b, (Nat.mod_lt a hF).le⟩
  · exact isRepresentative_iff_eq (mul_lt a b) (by simp)
  · refine isRepresentative_iff_eq (sum_lt l) ?_
    have hcast : (Int.cast ∘ Nat.cast : Nat → ZMod F.modulus) = Nat.cast :=
      funext fun n => Int.cast_natCast n
    rw [cast_sum, Int.cast_list_sum, List.map_map, hcast]
  · exact isRepresentative_iff_eq (ofInt_lt hF i) (cast_ofInt hF i)

/-- Modulo 23, the inverse of 28 is 14, 5 less 43 is 8, and the least integer of 64 bits is 20. -/
theorem operations_exact_small : (PrimeField.mk 23).modulus.Prime ∧
    (PrimeField.mk 23).inv? 28 = some 14 ∧ (PrimeField.mk 23).inv? 46 = none ∧
    (PrimeField.mk 23).IsRepresentative (5 - 43) 8 ∧
    (PrimeField.mk 23).IsRepresentative Int64.minValue.toInt 20 := by
  have hp : (PrimeField.mk 23).modulus.Prime := by norm_num
  obtain ⟨-, -, hsub, -, -, -, -, hofInt, -, hinv, hnone, -⟩ := operations_exact hp
  refine ⟨hp, (hinv 28 14).2 ⟨?_, ?_, ?_, ?_⟩, (hnone 46).2 ?_, ?_, ?_⟩
  · decide
  · decide
  · decide
  · decide
  · decide
  · exact (hsub 5 43 8).2 (by decide)
  · exact (hofInt _ 20).2 (by decide)

end PrimeField

end CircuitEquiv
