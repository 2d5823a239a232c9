-- SUMMARY: Ratios of counts as binary64 numbers: when they fall below one.
import Mathlib

/-!
# Ratios of counts in floating point

A count below `2 ^ 53` is a binary64 number. The quotient of two such counts is rounded, but a quotient
below one stays below one: the largest of them lies more than one unit in the last place below one.
-/

namespace CircuitEquiv.Binary64

open Float.Model Float.Model.UnpackedFloat

variable {m m₁ m₂ k s : Nat} {e e₁ e₂ : Int} {accuracy : Accuracy} {sign : Sign}

/-! ## Shifting -/

/-- A mantissa of 53 bits with an exponent that neither underflows nor overflows. -/
structure IsNormal (m : Nat) (e : Int) : Prop where
  le_mantissa : 2 ^ 52 ≤ m
  mantissa_lt : m < 2 ^ 53
  le_exponent : -1074 ≤ e
  exponent_le : e ≤ 971

theorem IsNormal.pos (h : IsNormal m e) : 0 < m :=
  Nat.lt_of_lt_of_le (Nat.two_pow_pos 52) h.le_mantissa

theorem IsNormal.log2 (h : IsNormal m e) : m.log2 = 52 :=
  (Nat.log2_eq_iff h.pos.ne').2 ⟨h.le_mantissa, h.mantissa_lt⟩

theorem log2_mul_two_pow (hm : m ≠ 0) (k : Nat) : (m * 2 ^ k).log2 = m.log2 + k := by
  refine (Nat.log2_eq_iff (by positivity)).2 ⟨?_, ?_⟩
  · rw [Nat.pow_add]
    exact Nat.mul_le_mul_right _ (Nat.log2_self_le hm)
  · rw [Nat.add_right_comm, Nat.pow_add]
    exact Nat.mul_lt_mul_of_pos_right Nat.lt_log2_self (Nat.two_pow_pos k)

theorem log2_le_log2 {x y : Nat} (hx : x ≠ 0) (hle : x ≤ y) : x.log2 ≤ y.log2 :=
  (Nat.le_log2 (by omega)).2 ((Nat.log2_self_le hx).trans hle)

theorem shiftRight_succ (em : ExtendedMantissa) (k : Nat) :
    em >>> (k + 1) = (em >>> k).shiftRightOne := rfl

theorem mantissa_shiftRight (em : ExtendedMantissa) (k : Nat) :
    (em >>> k).mantissa = em.mantissa / 2 ^ k := by
  induction k with
  | zero => simp [HShiftRight.hShiftRight, Nat.repeat]
  | succ k ih =>
    rw [shiftRight_succ, ExtendedMantissa.shiftRightOne, ih, Nat.pow_succ, Nat.div_div_eq_div_mul]

theorem shiftRight_exact (m k : Nat) :
    (⟨m * 2 ^ k, false, false⟩ : ExtendedMantissa) >>> k = ⟨m, false, false⟩ := by
  induction k generalizing m with
  | zero => simp [HShiftRight.hShiftRight, Nat.repeat]
  | succ k ih =>
    rw [shiftRight_succ, Nat.pow_succ', ← Nat.mul_assoc, ih]
    simp [ExtendedMantissa.shiftRightOne]

theorem mantissa_ofMantissaAndAccuracy (m : Nat) (accuracy : Accuracy) :
    (ExtendedMantissa.ofMantissaAndAccuracy m accuracy).mantissa = m := by
  cases accuracy with
  | exact => rfl
  | inexact order => cases order <;> rfl

theorem le_roundedMantissa (em : ExtendedMantissa) :
    em.mantissa ≤ em.roundedMantissa ∧ em.roundedMantissa ≤ em.mantissa + 1 := by
  obtain ⟨m, roundBit, stickyBit⟩ := em
  cases roundBit <;> cases stickyBit <;>
    simp [ExtendedMantissa.roundedMantissa, ExtendedMantissa.accuracy, Accuracy.roundToNearestEven]
  omega

theorem targetExponent_eq (t : Int) : Format.binary64.targetExponent t = max (t - 53) (-1074) := rfl

/-- A mantissa of at least 53 bits is shifted until 53 of them are left. -/
theorem shiftToTargetExponent_eq (hlog : m.log2 = 52 + s) (he : -1074 ≤ e + s) :
    shiftToTargetExponent Format.binary64 m e accuracy =
      (ExtendedMantissa.ofMantissaAndAccuracy m accuracy >>> s, e + s) := by
  have htarget : (Format.binary64.targetExponent (totalExponent m e) - e).toNat = s := by
    rw [targetExponent_eq, totalExponent, hlog]
    omega
  simp only [shiftToTargetExponent, shiftToExponent, htarget]

/-! ## Rounding -/

theorem IsNormal.shiftToTargetExponent_exact (h : IsNormal m e) (k : Nat) :
    shiftToTargetExponent Format.binary64 (m * 2 ^ k) (e - k) .exact = (⟨m, false, false⟩, e) := by
  have hlog : (m * 2 ^ k).log2 = 52 + k := by rw [log2_mul_two_pow h.pos.ne', h.log2]
  rw [shiftToTargetExponent_eq hlog (by have := h.le_exponent; omega), sub_add_cancel]
  exact congrArg (·, e) (shiftRight_exact m k)

theorem IsNormal.shiftToTargetExponent_self (h : IsNormal m e) :
    shiftToTargetExponent Format.binary64 m e .exact = (⟨m, false, false⟩, e) := by
  have hkeep := h.shiftToTargetExponent_exact 0
  rwa [pow_zero, mul_one, Nat.cast_zero, sub_zero] at hkeep

/-- Rounding shifts, rounds, and shifts once more in case that rounding has overflowed the mantissa. -/
theorem roundWithAccuracy_eq {em em' : ExtendedMantissa}
    (hfirst : shiftToTargetExponent Format.binary64 m e accuracy = (em, e₁))
    (hsecond : shiftToTargetExponent Format.binary64 em.roundedMantissa e₁ .exact = (em', e₂))
    (hpos : 0 < em'.mantissa) :
    roundWithAccuracy Format.binary64 sign m e accuracy = .finite sign em'.mantissa e₂ hpos := by
  simp only [roundWithAccuracy, hfirst, hsecond, hpos.ne', dite_false]

/-- A number with more bits than a mantissa has, all but the first 53 of them zero, is kept. -/
theorem IsNormal.roundWithAccuracy_exact (h : IsNormal m e) (k : Nat) :
    roundWithAccuracy Format.binary64 sign (m * 2 ^ k) (e - k) .exact = .finite sign m e h.pos :=
  roundWithAccuracy_eq (h.shiftToTargetExponent_exact k) h.shiftToTargetExponent_self h.pos

/-- Rounding up moves a number by less than one unit in the last place, so what lies further below one
stays below one. -/
theorem roundWithAccuracy_lt_one (hlog : m.log2 = 52 + s) (he : -1074 ≤ e + s)
    (hlt : e + s ≤ -54 ∨ e + s = -53 ∧ m / 2 ^ s + 1 < 2 ^ 53) :
    ∃ m' e' h, roundWithAccuracy Format.binary64 sign m e accuracy = .finite sign m' e' h ∧
      IsNormal m' e' ∧ e' ≤ -53 := by
  have hm : m ≠ 0 := by
    rintro rfl
    rw [Nat.log2_zero] at hlog
    omega
  have hbounds : 2 ^ 52 ≤ m / 2 ^ s ∧ m / 2 ^ s < 2 ^ 53 := by
    rw [Nat.le_div_iff_mul_le (Nat.two_pow_pos s), Nat.div_lt_iff_lt_mul (Nat.two_pow_pos s),
      ← Nat.pow_add, ← Nat.pow_add, ← hlog, show 53 + s = m.log2 + 1 by omega]
    exact ⟨Nat.log2_self_le hm, Nat.lt_log2_self⟩
  have hfirst : shiftToTargetExponent Format.binary64 m e accuracy = _ :=
    shiftToTargetExponent_eq hlog he
  have hround := le_roundedMantissa (ExtendedMantissa.ofMantissaAndAccuracy m accuracy >>> s)
  rw [mantissa_shiftRight, mantissa_ofMantissaAndAccuracy] at hround
  generalize ExtendedMantissa.ofMantissaAndAccuracy m accuracy >>> s = em at hfirst hround
  rcases Nat.lt_or_ge em.roundedMantissa (2 ^ 53) with hlt' | hge
  · have hnormal : IsNormal em.roundedMantissa (e + s) := ⟨by omega, hlt', he, by omega⟩
    exact ⟨_, _, hnormal.pos,
      roundWithAccuracy_eq hfirst hnormal.shiftToTargetExponent_self hnormal.pos, hnormal, by omega⟩
  · -- The mantissa has overflowed to a power of two.
    have hnormal : IsNormal (2 ^ 52) (e + s + 1) := ⟨le_rfl, by norm_num, by omega, by omega⟩
    have hsecond := hnormal.shiftToTargetExponent_exact 1
    rw [Nat.cast_one, add_sub_cancel_right, show 2 ^ 52 * 2 ^ 1 = em.roundedMantissa by omega]
      at hsecond
    exact ⟨_, _, hnormal.pos, roundWithAccuracy_eq hfirst hsecond hnormal.pos, hnormal, by omega⟩

/-! ## Packing -/

theorem unpackSign_packComponents {exponent : BitVec 11} {mantissa : BitVec 52} :
    @unpackSign Format.binary64 (packComponents Format.binary64 sign exponent mantissa) =
      sign.toBitVec := by
  ext i hi
  obtain rfl : i = 0 := by omega
  have happend : (sign.toBitVec ++ exponent ++ mantissa).getLsbD 63 = sign.toBitVec.getLsbD 0 := by
    rw [BitVec.getLsbD_append, BitVec.getLsbD_append]
    rfl
  simp only [unpackSign, packComponents, BitVec.getElem_cast, BitVec.extractLsb,
    BitVec.getElem_extractLsb']
  exact happend.trans (BitVec.getLsbD_eq_getElem hi)

/-- The implicit bit is put back in front of the others. -/
theorem IsNormal.toNat_mantissa (h : IsNormal m e) : (1#1 ++ BitVec.ofNat 52 m).toNat = m := by
  have hlow : m % 2 ^ 52 < 2 ^ 52 := Nat.mod_lt _ (Nat.two_pow_pos 52)
  have hm := h.le_mantissa
  have hm' := h.mantissa_lt
  rw [BitVec.toNat_append, BitVec.toNat_ofNat, BitVec.toNat_ofNat,
    ← Nat.shiftLeft_add_eq_or_of_lt hlow, Nat.shiftLeft_eq]
  omega

theorem IsNormal.unpack_pack (h : IsNormal m e) :
    (Float.Model.pack (.finite .positive m e h.pos)).unpack = .finite .positive m e h.pos := by
  have he := h.le_exponent
  have he' := h.exponent_le
  obtain ⟨b, hb⟩ : ∃ b : Nat, e + 1075 = b := ⟨(e + 1075).toNat, by omega⟩
  have hexponent : (BitVec.ofNat 11 b).toNat = b := Nat.mod_eq_of_lt (by omega)
  have hpack : UnpackedFloat.pack Format.binary64 (.finite .positive m e h.pos) =
      packComponents Format.binary64 .positive (BitVec.ofNat 11 b) (BitVec.ofNat 52 m) := by
    have hbiased : (e + Format.binary64.exponentBias + Format.binary64.mantissaBitsWithoutImplicit).toNat
        = b := by
      show (e + 1023 + 52).toNat = b
      omega
    simp only [UnpackedFloat.pack, hbiased, h.log2]
    rw [if_neg (show ¬ 2 ^ 11 ≤ b + 1 by omega),
      if_pos (show 52 + 1 = Format.binary64.mantissaBits from rfl)]
  have hnotAllOnes : BitVec.ofNat 11 b ≠ -1#11 := by
    intro heq
    rw [← BitVec.toNat_inj, hexponent] at heq
    exact absurd heq (show b ≠ 2047 by omega)
  have hnotZero : BitVec.ofNat 11 b ≠ 0#11 := by
    intro heq
    rw [← BitVec.toNat_inj, hexponent] at heq
    exact absurd heq (show b ≠ 0 by omega)
  show UnpackedFloat.unpack Format.binary64 (UnpackedFloat.pack Format.binary64 _) = _
  rw [hpack]
  simp only [UnpackedFloat.unpack, unpackExponent_packComponents, unpackMantissa_packComponents,
    unpackSign_packComponents, hexponent, h.toNat_mantissa]
  rw [if_neg hnotAllOnes, if_neg hnotZero]
  have hunbiased : (b : Int) - (Format.binary64.exponentBias + Format.binary64.mantissaBitsWithoutImplicit)
      = e := by
    show (b : Int) - (1023 + 52) = e
    omega
  simp only [hunbiased]
  rfl

/-! ## Counts and their quotients -/

/-- The float is the positive number of a mantissa and an exponent. -/
def Reads (x : Float) (m : Nat) (e : Int) : Prop :=
  ∃ h, x.toModel.unpack = .finite .positive m e h

theorem reads_one : Reads 1.0 (2 ^ 52) (-52) := ⟨by decide, rfl⟩

theorem toFloat_eq_mul {n : Nat} (hn : n < 2 ^ 53) :
    n.toFloat = n.toUInt64.toFloat * Float.ofBits 0x3FF0000000000000 := by
  show Float.ofScientific n false 0 = _
  unfold Float.ofScientific
  rw [dif_pos ⟨hn, by decide⟩]
  rfl

/-- The normal mantissa of a count. -/
def countMantissa (n : Nat) : Nat := n * 2 ^ (52 - n.log2)

theorem isNormal_count {n : Nat} (hpos : 0 < n) (hn : n < 2 ^ 53) :
    IsNormal (countMantissa n) (n.log2 - 52) := by
  have hlog : n.log2 < 53 := (Nat.log2_lt hpos.ne').2 hn
  have hbounds : (countMantissa n).log2 = 52 := by
    rw [countMantissa, log2_mul_two_pow hpos.ne']
    omega
  have hne : countMantissa n ≠ 0 := (Nat.mul_pos hpos (Nat.two_pow_pos _)).ne'
  obtain ⟨hlower, hupper⟩ := (Nat.log2_eq_iff hne).1 hbounds
  exact ⟨hlower, hupper, by omega, by omega⟩

/-- A product with one that is rounded. -/
theorem IsNormal.mul_one (h : IsNormal m e) :
    UnpackedFloat.mul Format.binary64 (.finite .positive m e h.pos)
      (.finite .positive (2 ^ 52) (-52) (by decide)) = .finite .positive m e h.pos :=
  h.roundWithAccuracy_exact 52

theorem ofNat_eq {n : Nat} (hpos : 0 < n) (hn : n < 2 ^ 53) :
    UnpackedFloat.ofNat Format.binary64 n =
      .finite .positive (countMantissa n) (n.log2 - 52) (isNormal_count hpos hn).pos := by
  have hlog : n.log2 < 53 := (Nat.log2_lt hpos.ne').2 hn
  have htarget : Format.binary64.targetExponent (totalExponent n 0) = n.log2 - 52 := by
    rw [targetExponent_eq, totalExponent]
    omega
  have hdecrease : decreaseExponent n 0 (n.log2 - 52) = (countMantissa n, (n.log2 - 52 : Int)) := by
    rw [decreaseExponent, show (0 - ((n.log2 : Int) - 52)).toNat = 52 - n.log2 by omega,
      Nat.shiftLeft_eq, countMantissa]
    exact congrArg _ (show (0 : Int) - (52 - n.log2 : Nat) = n.log2 - 52 by omega)
  have hexact : roundWithAccuracy Format.binary64 .positive _ _ .exact = _ :=
    (isNormal_count hpos hn).roundWithAccuracy_exact 0
  rw [pow_zero, Nat.mul_one, Nat.cast_zero, sub_zero] at hexact
  unfold UnpackedFloat.ofNat UnpackedFloat.ofInt UnpackedFloat.normalize
  rw [Int.compare_eq_gt.2 (by omega)]
  simp only [Int.toNat_natCast, UnpackedFloat.round, htarget, hdecrease, hexact]

theorem toModel_mul (x y : Float) : (x * y).toModel =
    Float.Model.pack (UnpackedFloat.mul Format.binary64 x.toModel.unpack y.toModel.unpack) := rfl

theorem toModel_div (x y : Float) : (x / y).toModel =
    Float.Model.pack (UnpackedFloat.div Format.binary64 x.toModel.unpack y.toModel.unpack) := rfl

theorem toModel_toFloat (w : UInt64) :
    w.toFloat.toModel = Float.Model.pack (UnpackedFloat.ofNat Format.binary64 w.toNat) := rfl

theorem reads_toFloat {n : Nat} (hpos : 0 < n) (hn : n < 2 ^ 53) :
    Reads n.toFloat (countMantissa n) (n.log2 - 52) := by
  have hnormal := isNormal_count hpos hn
  have hword : n.toUInt64.toNat = n := Nat.mod_eq_of_lt (by omega)
  have hone : (Float.ofBits 0x3FF0000000000000).toModel.unpack =
      .finite .positive (2 ^ 52) (-52) (by decide) := rfl
  refine ⟨hnormal.pos, ?_⟩
  rw [toFloat_eq_mul hn, toModel_mul, toModel_toFloat, hword, ofNat_eq hpos hn, hnormal.unpack_pack,
    hone, hnormal.mul_one, hnormal.unpack_pack]

/-! ## Quotients of counts -/

theorem divCore_eq (h₁ : IsNormal m₁ e₁) (h₂ : IsNormal m₂ e₂) (he : -1021 ≤ e₁ - e₂) :
    divCore Format.binary64 m₁ e₁ m₂ e₂ = (m₁ * 2 ^ 53 / m₂, e₁ - e₂ - 53,
      accuracyOfFraction (m₁ * 2 ^ 53 % m₂) m₂) := by
  have htarget : min (e₁ - e₂)
      (Format.binary64.targetExponent (totalExponent m₁ e₁ - totalExponent m₂ e₂)) = e₁ - e₂ - 53 := by
    rw [targetExponent_eq, totalExponent, totalExponent, h₁.log2, h₂.log2]
    omega
  simp only [divCore, htarget, show (e₁ - e₂ - (e₁ - e₂ - 53)).toNat = 53 by omega, Nat.shiftLeft_eq]

theorem div_finite (h₁ : IsNormal m₁ e₁) (h₂ : IsNormal m₂ e₂) (he : -1021 ≤ e₁ - e₂) :
    UnpackedFloat.div Format.binary64 (.finite .positive m₁ e₁ h₁.pos)
      (.finite .positive m₂ e₂ h₂.pos) =
      roundWithAccuracy Format.binary64 .positive (m₁ * 2 ^ 53 / m₂) (e₁ - e₂ - 53)
        (accuracyOfFraction (m₁ * 2 ^ 53 % m₂) m₂) := by
  simp only [UnpackedFloat.div, divCore_eq h₁ h₂ he]
  rfl

theorem div_self (h : IsNormal m e) :
    UnpackedFloat.div Format.binary64 (.finite .positive m e h.pos) (.finite .positive m e h.pos) =
      .finite .positive (2 ^ 52) (-52) (by decide) := by
  have hone : IsNormal (2 ^ 52) (-52) := ⟨le_rfl, by norm_num, by norm_num, by norm_num⟩
  rw [div_finite h h (by omega), Nat.mul_div_cancel_left _ h.pos, Nat.mul_mod_right, sub_self]
  exact hone.roundWithAccuracy_exact 1

/-- The quotient of two different counts is at least one unit in the last place below one. -/
theorem quotient_lt {x y : Nat} (hpos : 0 < x) (hlt : x < y) (hy : y < 2 ^ 53) :
    countMantissa x * 2 ^ 53 / countMantissa y < (2 ^ 53 - 1) * 2 ^ (y.log2 - x.log2) := by
  have hlog : x.log2 ≤ y.log2 := log2_le_log2 hpos.ne' hlt.le
  have hlogy : y.log2 < 53 := (Nat.log2_lt (by omega)).2 hy
  have hgap : x * 2 ^ 53 < (2 ^ 53 - 1) * y := by omega
  have hx : countMantissa x = x * 2 ^ (y.log2 - x.log2) * 2 ^ (52 - y.log2) := by
    rw [countMantissa, Nat.mul_assoc, ← Nat.pow_add]
    congr 2
    omega
  rw [Nat.div_lt_iff_lt_mul (isNormal_count (hpos.trans hlt) hy).pos, hx, countMantissa]
  calc x * 2 ^ (y.log2 - x.log2) * 2 ^ (52 - y.log2) * 2 ^ 53
      = x * 2 ^ 53 * (2 ^ (y.log2 - x.log2) * 2 ^ (52 - y.log2)) := by ring
    _ < (2 ^ 53 - 1) * y * (2 ^ (y.log2 - x.log2) * 2 ^ (52 - y.log2)) :=
        Nat.mul_lt_mul_of_pos_right hgap (by positivity)
    _ = (2 ^ 53 - 1) * 2 ^ (y.log2 - x.log2) * (y * 2 ^ (52 - y.log2)) := by ring

theorem div_lt_one {x y : Nat} (hpos : 0 < x) (hlt : x < y) (hy : y < 2 ^ 53) :
    ∃ m e, Reads (x.toFloat / y.toFloat) m e ∧ e ≤ -53 := by
  have hnormal₁ := isNormal_count hpos (hlt.trans hy)
  have hnormal₂ := isNormal_count (hpos.trans hlt) hy
  obtain ⟨_, hx⟩ := reads_toFloat hpos (hlt.trans hy)
  obtain ⟨_, hy'⟩ := reads_toFloat (hpos.trans hlt) hy
  have hlog : x.log2 ≤ y.log2 := log2_le_log2 hpos.ne' hlt.le
  have hlogy : y.log2 < 53 := (Nat.log2_lt (by omega)).2 hy
  obtain ⟨j, hj⟩ : ∃ j, y.log2 = x.log2 + j := ⟨y.log2 - x.log2, by omega⟩
  have hupper := quotient_lt hpos hlt hy
  rw [hj, Nat.add_sub_cancel_left] at hupper
  have hlower : 2 ^ 52 ≤ countMantissa x * 2 ^ 53 / countMantissa y := by
    rw [Nat.le_div_iff_mul_le hnormal₂.pos]
    exact Nat.mul_le_mul hnormal₁.le_mantissa hnormal₂.mantissa_lt.le
  have hround : ∃ m' e' h, roundWithAccuracy Format.binary64 .positive
      (countMantissa x * 2 ^ 53 / countMantissa y) ((x.log2 - 52 : Int) - (y.log2 - 52) - 53)
      (accuracyOfFraction (countMantissa x * 2 ^ 53 % countMantissa y) (countMantissa y)) =
        .finite .positive m' e' h ∧ IsNormal m' e' ∧ e' ≤ -53 := by
    have hupper' : countMantissa x * 2 ^ 53 / countMantissa y < 2 ^ 54 := by
      rw [Nat.div_lt_iff_lt_mul hnormal₂.pos]
      have := hnormal₁.mantissa_lt
      have := hnormal₂.le_mantissa
      omega
    generalize countMantissa x * 2 ^ 53 / countMantissa y = q at hupper hupper' hlower
    rcases Nat.lt_or_ge q (2 ^ 53) with hq | hq
    · have hlogq : q.log2 = 52 + 0 := (Nat.log2_eq_iff (by omega)).2 ⟨hlower, hq⟩
      refine roundWithAccuracy_lt_one hlogq (by omega) ?_
      cases j with
      | zero => exact Or.inr ⟨by omega, by omega⟩
      | succ j => exact Or.inl (by omega)
    · have hlogq : q.log2 = 52 + 1 := (Nat.log2_eq_iff (by omega)).2 ⟨hq, hupper'⟩
      refine roundWithAccuracy_lt_one hlogq (by omega) ?_
      match j with
      | 0 => omega
      | 1 => exact Or.inr ⟨by omega, by omega⟩
      | j + 2 => exact Or.inl (by omega)
  obtain ⟨m', e', hpos', heq, hnormal, hle⟩ := hround
  refine ⟨m', e', ⟨hpos', ?_⟩, hle⟩
  rw [toModel_div, hx, hy', div_finite hnormal₁ hnormal₂ (by omega), heq, hnormal.unpack_pack]

theorem lt_iff (x y : Float) :
    x < y ↔ UnpackedFloat.compare x.toModel.unpack y.toModel.unpack = some .lt := by
  show decide (UnpackedFloat.lt x.toModel.unpack y.toModel.unpack = true) = true ↔ _
  simp [UnpackedFloat.lt]

theorem Reads.lt_one_iff {x : Float} (h : Reads x m e) :
    x < 1.0 ↔ e < -52 ∨ e = -52 ∧ m < 2 ^ 52 := by
  obtain ⟨_, hx⟩ := h
  obtain ⟨_, hone⟩ := reads_one
  rw [lt_iff, hx, hone]
  show some ((compare e (-52)).then (compare m (2 ^ 52))) = some .lt ↔ _
  rw [Option.some_inj, Ordering.then_eq_lt, Int.compare_eq_lt, Int.compare_eq_eq, Nat.compare_eq_lt]

theorem zero_div_lt_one {y : Nat} (hpos : 0 < y) (hy : y < 2 ^ 53) :
    (0 : Nat).toFloat / y.toFloat < 1.0 := by
  obtain ⟨_, hy'⟩ := reads_toFloat hpos hy
  obtain ⟨_, hone⟩ := reads_one
  have hzero : (0 : Nat).toFloat.toModel.unpack = .zero .positive := rfl
  have hdiv : UnpackedFloat.div Format.binary64 (.zero .positive)
      (.finite .positive (countMantissa y) (y.log2 - 52) (isNormal_count hpos hy).pos) =
        .zero .positive := rfl
  have hpack : (Float.Model.pack (.zero .positive)).unpack = .zero .positive := rfl
  rw [lt_iff, toModel_div, hzero, hy', hdiv, hpack, hone]
  rfl

/-- The rounded ratio of a part and the whole is below one exactly when the part is not the whole. -/
theorem toFloat_div_lt_one_iff {x y : Nat} (hle : x ≤ y) (hpos : 0 < y) (hy : y < 2 ^ 53) :
    x.toFloat / y.toFloat < 1.0 ↔ x < y := by
  rcases hle.lt_or_eq with hlt | rfl
  · rw [iff_true_right hlt]
    rcases Nat.eq_zero_or_pos x with rfl | hx
    · exact zero_div_lt_one hpos hy
    · obtain ⟨m, e, hreads, he⟩ := div_lt_one hx hlt hy
      exact hreads.lt_one_iff.2 (Or.inl (by omega))
  · obtain ⟨_, hx⟩ := reads_toFloat hpos hy
    have hreads : Reads (x.toFloat / x.toFloat) (2 ^ 52) (-52) := by
      obtain ⟨hone, hone'⟩ := reads_one
      refine ⟨hone, ?_⟩
      rw [toModel_div, hx, div_self (isNormal_count hpos hy)]
      rfl
    rw [hreads.lt_one_iff]
    omega

end CircuitEquiv.Binary64
