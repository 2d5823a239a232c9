-- SUMMARY: A polynomial that is built from terms has the value of their sum, over any modulus, and is satisfied where that value is zero; its coefficients are the sums over the terms of each monomial.
import CircuitEquiv.Proofs.Constraint.Construction
import CircuitEquiv.Proofs.Constraint.Satisfaction
import Mathlib.Tactic.Ring

/-!
# Values and coefficients of polynomials

Construction sorts terms by what they belong to, adds up what belongs together, moves terms of the constant
signal to a lower degree and drops zeros. None of this changes the value where the constant signal is one,
in any ring of the characteristic of the field. Satisfaction is stated for any modulus, as it takes no
inverses.

What the coefficients are can be told too. A monomial is a pair of signals in ascending order, with the
constant signal for a missing factor: linear terms and the constant are pairs like the others. The
coefficient of a pair is the sum over the terms that belong to it.
-/

namespace CircuitEquiv

variable {F : PrimeField}

namespace PrimeField

theorem foldl_add_lt (hF : 0 < F.modulus) (l : List Nat) {a : Nat} (ha : a < F.modulus) :
    l.foldl F.add a < F.modulus :=
  foldl_invariant (Q := (· < F.modulus)) (fun _ _ _ _ => Nat.mod_lt _ hF) ha

theorem cast_add_of_charP {R : Type} [CommRing R] [CharP R F.modulus] (a b : Nat) :
    ((F.add a b : Nat) : R) = a + b := by
  rw [add, ← CharP.cast_eq_mod R F.modulus, Nat.cast_add]

end PrimeField

/-! ## Collecting terms -/

section Ring

variable {R : Type} [CommRing R]

/-- The sum of the coefficients times the values of what they belong to, in a ring. -/
def Terms.valueIn {κ : Type} [Ord κ] (t : SortedMap κ Nat) (x : κ → R) : R :=
  (t.entries.map fun e => (e.2 : R) * x e.1).sum

/-- The value of a polynomial in a ring. -/
def AcirConstraint.valueIn (p : AcirConstraint) (x : Signal → R) : R :=
  p.constant + Terms.valueIn p.mult (fun k => x k.1 * x k.2) + Terms.valueIn p.linear x

namespace Terms

variable {κ : Type} [Ord κ] {t : SortedMap κ Nat} {x : κ → R}

theorem valueIn_congr {y : κ → R} (h : ∀ k ∈ t.keys, x k = y k) : valueIn t x = valueIn t y := by
  unfold valueIn
  exact congrArg List.sum (List.map_congr_left fun e he => by rw [h e.1 (List.mem_map_of_mem he)])

theorem valueIn_accumulate [Std.TransOrd κ] [Std.LawfulEqOrd κ] [CharP R F.modulus] (k : κ) (v : Nat) :
    valueIn (accumulate F t k v) x = valueIn t x + v * x k := by
  have hentries : ∀ l : List (κ × Nat),
      ((SortedMap.upsertEntry k (fun old => F.add (old.getD 0) v) l).map fun e =>
        (e.2 : R) * x e.1).sum = (l.map fun e => (e.2 : R) * x e.1).sum + v * x k := by
    intro l
    induction l with
    | nil => simp [SortedMap.upsertEntry, PrimeField.cast_add_of_charP]
    | cons e rest ih =>
      obtain ⟨k', old⟩ := e
      rw [SortedMap.upsertEntry]
      split
      · simp [add_comm, PrimeField.cast_add_of_charP]
      · rename_i hcompare
        rw [Std.LawfulEqCmp.eq_of_compare hcompare]
        simp only [Option.getD_some, List.map_cons, List.sum_cons, PrimeField.cast_add_of_charP]
        ring
      · rw [List.map_cons, List.sum_cons, ih, List.map_cons, List.sum_cons, add_assoc]
  exact hentries t.entries

theorem valueIn_foldl_accumulate [Std.TransOrd κ] [Std.LawfulEqOrd κ] [CharP R F.modulus]
    (l : List (κ × Nat)) (t : SortedMap κ Nat) :
    valueIn (l.foldl (fun t term => accumulate F t term.1 term.2) t) x =
      valueIn t x + (l.map fun e => (e.2 : R) * x e.1).sum := by
  induction l generalizing t with
  | nil => simp
  | cons e rest ih =>
    rw [List.foldl_cons, ih, valueIn_accumulate, List.map_cons, List.sum_cons, add_assoc]

theorem valueIn_dropZeros : valueIn (dropZeros t) x = valueIn t x := by
  have hentries : ∀ l : List (κ × Nat), ((l.filter fun e => e.2 != 0).map fun e =>
      (e.2 : R) * x e.1).sum = (l.map fun e => (e.2 : R) * x e.1).sum := by
    intro l
    induction l with
    | nil => rfl
    | cons e rest ih =>
      by_cases he : e.2 = 0
      · simp [he, ih]
      · simp [he, ih]
  exact hentries t.entries

end Terms

/-! ## Building from terms -/

namespace AcirConstraint

variable [CharP R F.modulus] {p : AcirConstraint} {x : Signal → R}

theorem valueIn_addMult (hone : x constantSignal = 1) (a b : Signal) (v : Nat) :
    (p.addMult F a b v).valueIn x = p.valueIn x + v * (x a * x b) := by
  have hproduct : x (min a b) * x (max a b) = x a * x b := by
    rcases Nat.le_total a b with hab | hba
    · rw [min_eq_left hab, max_eq_right hab]
    · rw [min_eq_right hba, max_eq_left hba, mul_comm]
  unfold addMult
  split
  · -- both factors are the constant signal
    rename_i hmax
    have hmin : min a b = constantSignal :=
      Nat.le_zero.1 ((min_le_left a b).trans ((le_max_left a b).trans_eq hmax))
    rw [hmax, hmin, hone] at hproduct
    rw [← hproduct, valueIn, valueIn, PrimeField.cast_add_of_charP]
    ring
  · split
    · -- one factor is
      rename_i hmin
      rw [hmin, hone, one_mul] at hproduct
      rw [← hproduct, valueIn, valueIn, Terms.valueIn_accumulate]
      ring
    · rw [← hproduct, valueIn, valueIn, Terms.valueIn_accumulate]
      ring

theorem valueIn_addLinear (hone : x constantSignal = 1) (a : Signal) (v : Nat) :
    (p.addLinear F a v).valueIn x = p.valueIn x + v * x a := by
  unfold addLinear
  split
  · rename_i ha
    rw [ha, hone, valueIn, valueIn, PrimeField.cast_add_of_charP]
    ring
  · rw [valueIn, valueIn, Terms.valueIn_accumulate]
    ring

/-- The value of a polynomial is the sum of the values of the terms it is built from. -/
theorem valueIn_ofTerms (hone : x constantSignal = 1) (mult : List ((Signal × Signal) × Nat))
    (linear : List (Signal × Nat)) (constant : Nat) :
    (ofTerms F mult linear constant).valueIn x =
      (mult.map fun t => (t.2 : R) * (x t.1.1 * x t.1.2)).sum +
        (linear.map fun t => (t.2 : R) * x t.1).sum + constant := by
  have hmult : ∀ p : AcirConstraint, (mult.foldl (fun p t => p.addMult F t.1.1 t.1.2 t.2) p).valueIn x =
      p.valueIn x + (mult.map fun t => (t.2 : R) * (x t.1.1 * x t.1.2)).sum := by
    induction mult with
    | nil => simp
    | cons t rest ih =>
      intro p
      rw [List.foldl_cons, ih, valueIn_addMult hone, List.map_cons, List.sum_cons, add_assoc]
  have hlinear : ∀ p : AcirConstraint, (linear.foldl (fun p t => p.addLinear F t.1 t.2) p).valueIn x =
      p.valueIn x + (linear.map fun t => (t.2 : R) * x t.1).sum := by
    induction linear with
    | nil => simp
    | cons t rest ih =>
      intro p
      rw [List.foldl_cons, ih, valueIn_addLinear hone, List.map_cons, List.sum_cons, add_assoc]
  have hdrop : (ofTerms F mult linear constant).valueIn x =
      (linear.foldl (fun (p : AcirConstraint) t => p.addLinear F t.1 t.2) (mult.foldl
        (fun (p : AcirConstraint) t => p.addMult F t.1.1 t.1.2 t.2)
        ⟨SortedMap.empty, SortedMap.empty, F.element constant⟩)).valueIn x := by
    rw [valueIn, valueIn, ofTerms, Terms.valueIn_dropZeros, Terms.valueIn_dropZeros]
  have hstart : (⟨SortedMap.empty, SortedMap.empty, F.element constant⟩ : AcirConstraint).valueIn x =
      (constant : R) := by
    simp [valueIn, Terms.valueIn, SortedMap.empty, PrimeField.element, ← CharP.cast_eq_mod]
  rw [hdrop, hlinear, hmult, hstart]
  ring

end AcirConstraint

end Ring

namespace AcirConstraint

variable {p : AcirConstraint} {x : Signal → ZMod F.modulus}

/-- The value of a polynomial in its field is the sum of the values of the terms it is built from. -/
theorem valueAt_ofTerms (hone : x constantSignal = 1) (mult : List ((Signal × Signal) × Nat))
    (linear : List (Signal × Nat)) (constant : Nat) :
    (ofTerms F mult linear constant).valueAt x =
      (mult.map fun t => (t.2 : ZMod F.modulus) * (x t.1.1 * x t.1.2)).sum +
        (linear.map fun t => (t.2 : ZMod F.modulus) * x t.1).sum + constant :=
  valueIn_ofTerms hone mult linear constant

theorem constant_ofTerms_lt (hF : 0 < F.modulus) (mult : List ((Signal × Signal) × Nat))
    (linear : List (Signal × Nat)) (constant : Nat) :
    (ofTerms F mult linear constant).constant < F.modulus := by
  have hmult : ∀ (p : AcirConstraint) (t : (Signal × Signal) × Nat), t ∈ mult →
      p.constant < F.modulus → (p.addMult F t.1.1 t.1.2 t.2).constant < F.modulus := by
    intro p t _ hp
    unfold addMult
    split
    · exact Nat.mod_lt _ hF
    · split
      · exact hp
      · exact hp
  have hlinear : ∀ (p : AcirConstraint) (t : Signal × Nat), t ∈ linear →
      p.constant < F.modulus → (p.addLinear F t.1 t.2).constant < F.modulus := by
    intro p t _ hp
    unfold addLinear
    split
    · exact Nat.mod_lt _ hF
    · exact hp
  exact foldl_invariant (Q := fun p : AcirConstraint => p.constant < F.modulus) hlinear
    (foldl_invariant (Q := fun p : AcirConstraint => p.constant < F.modulus) hmult (Nat.mod_lt _ hF))

/-! ## Satisfaction over any modulus -/

/-- Where every signal has a value, a polynomial is satisfied when its value is zero. -/
theorem isSatisfied_iff_valueAt (hF : 0 < F.modulus) (hconstant : p.constant < F.modulus)
    {values : List Nat} (h : ∀ s ∈ p.signals, s < values.length) :
    p.isSatisfied F values = true ↔ p.valueAt (F.assignment values) = 0 := by
  let total := (Terms.summands F p.linear fun s => values.getD s 0).foldl F.add
    ((Terms.summands F p.mult fun k => F.mul (values.getD k.1 0) (values.getD k.2 0)).foldl F.add
      p.constant)
  have hlt : total < F.modulus :=
    PrimeField.foldl_add_lt hF _ (PrimeField.foldl_add_lt hF _ hconstant)
  have hcast : (total : ZMod F.modulus) = p.valueAt (F.assignment values) := by
    rw [PrimeField.cast_foldl_add, PrimeField.cast_foldl_add, valueAt]
    simp [Terms.summands, Terms.value, PrimeField.assignment, Function.comp_def]
  rw [isSatisfied, eval?_eq h, beq_iff_eq, Option.some_inj, ← hcast,
    PrimeField.cast_eq_zero_iff hlt]

end AcirConstraint

/-! ## Looking up coefficients -/

namespace Terms

variable {κ : Type} [Ord κ] [Std.LawfulEqOrd κ] {t : SortedMap κ Nat} {k j : κ} {v : Nat}

theorem cast_getD_accumulate [Std.TransOrd κ] [DecidableEq κ] :
    ((accumulate F t k v).getD j 0 : ZMod F.modulus) =
      (t.getD j 0 : Nat) + if j = k then (v : ZMod F.modulus) else 0 := by
  rw [SortedMap.getD, accumulate, SortedMap.get?_upsert]
  by_cases hj : j = k
  · rw [if_pos hj, if_pos hj, Option.getD_some, PrimeField.cast_add_of_charP, hj]
    rfl
  · rw [if_neg hj, if_neg hj, add_zero]
    rfl

theorem getD_dropZeros : (dropZeros t).getD j 0 = t.getD j 0 := by
  rw [SortedMap.getD, SortedMap.getD, dropZeros, SortedMap.get?_filter]
  cases t.get? j with
  | none => rfl
  | some v =>
    by_cases hv : v = 0
    · subst hv
      rfl
    · rw [Option.filter_some_pos (by simpa using hv)]

/-- What has a coefficient is stored. -/
theorem mem_keys_of_getD_ne_zero (h : t.getD j 0 ≠ 0) : j ∈ t.keys := by
  by_contra hj
  rw [SortedMap.getD, SortedMap.get?_eq_none_iff.2 hj] at h
  exact h rfl

end Terms

/-! ## Coefficients of built polynomials -/

namespace AcirConstraint

variable {p : AcirConstraint} {k : Signal × Signal} {x y : Signal} {v : Nat}

/-- The pair of two signals in ascending order. -/
def orderedPair (x y : Signal) : Signal × Signal := (min x y, max x y)

/-- The coefficient of a pair in ascending order; the constant signal stands for a missing factor. -/
def coefficient (p : AcirConstraint) (k : Signal × Signal) : Nat :=
  if k.2 = constantSignal then p.constant
  else if k.1 = constantSignal then p.linear.getD k.2 0
  else p.mult.getD k 0

/-- What a term of one pair adds to the coefficient of another. -/
def share (F : PrimeField) (k pair : Signal × Signal) (v : Nat) : ZMod F.modulus :=
  if k = pair then v else 0

theorem coefficient_constant : p.coefficient (0, 0) = p.constant := rfl

theorem coefficient_linear (hy : y ≠ 0) : p.coefficient (0, y) = p.linear.getD y 0 :=
  (if_neg hy).trans (if_pos rfl)

theorem coefficient_mult (hx : x ≠ 0) (hy : y ≠ 0) : p.coefficient (x, y) = p.mult.getD (x, y) 0 :=
  (if_neg hy).trans (if_neg hx)

/-- A pair in ascending order is that of the constant, of a linear term or of a quadratic one. -/
theorem ordered_cases (hk : k.1 ≤ k.2) :
    k = (0, 0) ∨ (∃ y ≠ 0, k = (0, y)) ∨ ∃ x ≠ 0, ∃ y ≠ 0, k = (x, y) := by
  obtain ⟨a, b⟩ := k
  by_cases hb : b = 0
  · exact .inl (Prod.ext (Nat.le_zero.1 (hk.trans_eq hb)) hb)
  · by_cases ha : a = 0
    · exact .inr (.inl ⟨b, hb, Prod.ext ha rfl⟩)
    · exact .inr (.inr ⟨a, ha, b, hb, rfl⟩)

theorem orderedPair_le (x y : Signal) : (orderedPair x y).1 ≤ (orderedPair x y).2 := min_le_max

theorem orderedPair_zero (y : Signal) : orderedPair 0 y = (0, y) :=
  Prod.ext (Nat.zero_min y) (Nat.zero_max y)

theorem orderedPair_of_le (h : x ≤ y) : orderedPair x y = (x, y) := Prod.ext (min_eq_left h) (max_eq_right h)

/-- Two pairs of signals are the same in ascending order if one is the other or the other turned round. -/
theorem orderedPair_eq_iff {a b : Signal} :
    orderedPair x y = orderedPair a b ↔ (a = x ∧ b = y) ∨ (a = y ∧ b = x) := by
  have hpairs : ∀ a b c d : Nat, (min a b = min c d ∧ max a b = max c d) ↔
      (c = a ∧ d = b) ∨ (c = b ∧ d = a) := by omega
  rw [orderedPair, orderedPair, Prod.mk.injEq]
  exact hpairs x y a b

theorem share_self (k : Signal × Signal) (v : Nat) : share F k k v = v := if_pos rfl

theorem share_of_ne {j : Signal × Signal} (h : k ≠ j) (v : Nat) : share F k j v = 0 := if_neg h

/-- The coefficient of one pair grows by a value, and those of the others stay. -/
def Adds (F : PrimeField) (p q : AcirConstraint) (j : Signal × Signal) (v : Nat) : Prop :=
  ∀ k : Signal × Signal, k.1 ≤ k.2 → (q.coefficient k : ZMod F.modulus) = p.coefficient k + share F k j v

theorem adds_constant : Adds F p { p with constant := F.add p.constant v } (0, 0) v := by
  intro k hk
  rcases ordered_cases hk with rfl | ⟨y, hy, rfl⟩ | ⟨x, hx, y, hy, rfl⟩
  · rw [coefficient_constant, coefficient_constant, share_self, PrimeField.cast_add_of_charP]
  · rw [coefficient_linear hy, coefficient_linear hy, share_of_ne (by simp [hy]), add_zero]
  · rw [coefficient_mult hx hy, coefficient_mult hx hy, share_of_ne (by simp [hx]), add_zero]

theorem adds_linear {s : Signal} (hs : s ≠ 0) :
    Adds F p { p with linear := Terms.accumulate F p.linear s v } (0, s) v := by
  intro k hk
  rcases ordered_cases hk with rfl | ⟨y, hy, rfl⟩ | ⟨x, hx, y, hy, rfl⟩
  · rw [coefficient_constant, coefficient_constant, share_of_ne (by simp [hs.symm]), add_zero]
  · rw [coefficient_linear hy, coefficient_linear hy, Terms.cast_getD_accumulate, share]
    simp only [Prod.mk.injEq, true_and]
  · rw [coefficient_mult hx hy, coefficient_mult hx hy, share_of_ne (by simp [hx]), add_zero]

theorem adds_mult {j : Signal × Signal} (hj : j.1 ≠ 0) :
    Adds F p { p with mult := Terms.accumulate F p.mult j v } j v := by
  have hne : ∀ y : Signal, (0, y) ≠ j := fun y h => hj (congrArg Prod.fst h).symm
  intro k hk
  rcases ordered_cases hk with rfl | ⟨y, hy, rfl⟩ | ⟨x, hx, y, hy, rfl⟩
  · rw [coefficient_constant, coefficient_constant, share_of_ne (hne 0), add_zero]
  · rw [coefficient_linear hy, coefficient_linear hy, share_of_ne (hne y), add_zero]
  · rw [coefficient_mult hx hy, coefficient_mult hx hy, Terms.cast_getD_accumulate, share]

theorem adds_addMult (p : AcirConstraint) (x y : Signal) (v : Nat) :
    Adds F p (p.addMult F x y v) (orderedPair x y) v := by
  unfold addMult
  split
  · rename_i hmax
    have hmin : min x y = 0 := Nat.le_zero.1 (min_le_max.trans_eq hmax)
    have hpair : orderedPair x y = (0, 0) := Prod.ext hmin hmax
    exact hpair ▸ adds_constant
  · rename_i hmax
    split
    · rename_i hmin
      have hpair : orderedPair x y = (0, max x y) := Prod.ext hmin rfl
      exact hpair ▸ adds_linear hmax
    · rename_i hmin
      exact adds_mult (j := orderedPair x y) hmin

theorem adds_addLinear (p : AcirConstraint) (x : Signal) (v : Nat) : Adds F p (p.addLinear F x v) (0, x) v := by
  unfold addLinear
  split
  · rename_i hx
    exact hx ▸ adds_constant
  · rename_i hx
    exact adds_linear hx

/-- Adding terms one after the other adds up what they share. -/
theorem cast_coefficient_foldl {α : Type} {step : AcirConstraint → α → AcirConstraint}
    {pair : α → Signal × Signal} {value : α → Nat} (h : ∀ p t, Adds F p (step p t) (pair t) (value t))
    (hk : k.1 ≤ k.2) (l : List α) (p : AcirConstraint) :
    ((l.foldl step p).coefficient k : ZMod F.modulus) =
      p.coefficient k + (l.map fun t => share F k (pair t) (value t)).sum := by
  induction l generalizing p with
  | nil => simp
  | cons t rest ih => rw [List.foldl_cons, ih, h p t k hk, List.map_cons, List.sum_cons, add_assoc]

theorem coefficient_dropZeros (k : Signal × Signal) :
    (⟨Terms.dropZeros p.mult, Terms.dropZeros p.linear, p.constant⟩ : AcirConstraint).coefficient k =
      p.coefficient k := by
  rw [coefficient, coefficient, Terms.getD_dropZeros, Terms.getD_dropZeros]

/-- The coefficient of a pair is the sum over the terms that belong to it. -/
theorem cast_coefficient_ofTerms (hk : k.1 ≤ k.2) (mult : List ((Signal × Signal) × Nat))
    (linear : List (Signal × Nat)) (constant : Nat) :
    ((ofTerms F mult linear constant).coefficient k : ZMod F.modulus) =
      (mult.map fun t => share F k (orderedPair t.1.1 t.1.2) t.2).sum +
        (linear.map fun t => share F k (0, t.1) t.2).sum + share F k (0, 0) constant := by
  have hstart : ((⟨SortedMap.empty, SortedMap.empty, F.element constant⟩ : AcirConstraint).coefficient k :
      ZMod F.modulus) = share F k (0, 0) constant := by
    rcases ordered_cases hk with rfl | ⟨y, hy, rfl⟩ | ⟨x, hx, y, hy, rfl⟩
    · rw [coefficient_constant, share_self, PrimeField.element, ← CharP.cast_eq_mod]
    · rw [coefficient_linear hy, share_of_ne (by simp [hy])]
      exact Nat.cast_zero
    · rw [coefficient_mult hx hy, share_of_ne (by simp [hx])]
      exact Nat.cast_zero
  rw [ofTerms, coefficient_dropZeros, cast_coefficient_foldl (fun p t => adds_addLinear p t.1 t.2) hk,
    cast_coefficient_foldl (fun p t => adds_addMult p t.1.1 t.1.2 t.2) hk, hstart]
  ring

end AcirConstraint

end CircuitEquiv
