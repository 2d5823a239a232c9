-- SUMMARY: Of repeated signals a rank-one constraint built from terms keeps the last one, and one that is read adds them up.
import CircuitEquiv.Proofs.Constraint.Polynomial
import Mathlib.Data.Int.ModEq

/-!
# Sums of terms

A list of terms stands for the sum of its terms. Reading a constraint adds up the terms of a signal, so the
parts of the constraint have the values of the lists. Building one from lists keeps, of the terms of a
signal that are not zero, the last one only: the parts have the values of what is left of the lists. The two
agree where no signal has two terms that are not zero.
-/

namespace CircuitEquiv

variable {F : PrimeField}

namespace Terms

/-! ## Last entries -/

section LastEntries

variable {κ β γ : Type} [DecidableEq κ] {l : List (κ × β)} {k : κ}

/-- The entries of a list whose key no later entry has. -/
def lastEntries : List (κ × β) → List (κ × β)
  | [] => []
  | e :: rest => if e.1 ∈ rest.map (·.1) then lastEntries rest else e :: lastEntries rest

theorem lastEntries_sublist (l : List (κ × β)) : (lastEntries l).Sublist l := by
  induction l with
  | nil => exact List.Sublist.refl _
  | cons e rest ih =>
    rw [lastEntries]
    split
    · exact ih.cons e
    · exact ih.cons_cons e

theorem nodup_keys_lastEntries (l : List (κ × β)) : ((lastEntries l).map (·.1)).Nodup := by
  induction l with
  | nil => exact List.nodup_nil
  | cons e rest ih =>
    rw [lastEntries]
    split
    · exact ih
    · rename_i hnew
      rw [List.map_cons, List.nodup_cons]
      exact ⟨fun h => hnew (((lastEntries_sublist rest).map _).subset h), ih⟩

theorem lastEntries_of_nodup (h : (l.map (·.1)).Nodup) : lastEntries l = l := by
  induction l with
  | nil => rfl
  | cons e rest ih =>
    rw [List.map_cons, List.nodup_cons] at h
    rw [lastEntries, if_neg h.1, ih h.2]

theorem lastEntries_map (f : β → γ) (l : List (κ × β)) :
    lastEntries (l.map fun e => (e.1, f e.2)) = (lastEntries l).map fun e => (e.1, f e.2) := by
  induction l with
  | nil => rfl
  | cons e rest ih =>
    have hkeys : (rest.map fun e => (e.1, f e.2)).map (·.1) = rest.map (·.1) := by simp
    rw [List.map_cons, lastEntries, lastEntries, hkeys, ih]
    split <;> rfl

/-- The map of a list holds its last entries. -/
theorem ofList_lastEntries [Ord κ] [Std.TransOrd κ] [Std.LawfulEqOrd κ] (l : List (κ × β)) :
    SortedMap.ofList (lastEntries l) = SortedMap.ofList l := by
  induction l with
  | nil => rfl
  | cons e rest ih =>
    refine SortedMap.ext_get? fun k => ?_
    rw [lastEntries]
    split
    · rename_i hlater
      obtain ⟨v, hv⟩ := SortedMap.mem_keys_iff.1 (SortedMap.mem_keys_ofList.2 hlater)
      rw [ih, SortedMap.get?_ofList_cons]
      split
      · rename_i hk
        rw [hk, hv, Option.getD_some]
      · rfl
    · rw [SortedMap.get?_ofList_cons, SortedMap.get?_ofList_cons, ih]

end LastEntries

/-! ## Values of lists -/

/-- The terms of a list that are not zero in the field. -/
def nonzeroTerms (F : PrimeField) (l : List (Signal × Int)) : List (Signal × Int) :=
  l.filter fun t => ¬ (F.modulus : Int) ∣ t.2

/-- The sum of the terms of a list. -/
def sumAt (l : List (Signal × Int)) (x : Signal → Int) : Int := (l.map fun t => t.2 * x t.1).sum

variable {l : List (Signal × Int)} {x : Signal → Int}

theorem cast_sumAt (l : List (Signal × Int)) (x : Signal → Int) :
    ((sumAt l x : Int) : ZMod F.modulus) =
      (l.map fun t => (t.2 : ZMod F.modulus) * (x t.1 : ZMod F.modulus)).sum := by
  induction l with
  | nil => simp [sumAt]
  | cons t rest ih =>
    have hcons : sumAt (t :: rest) x = t.2 * x t.1 + sumAt rest x := List.sum_cons
    rw [hcons, Int.cast_add, ih, Int.cast_mul, List.map_cons, List.sum_cons]

/-- Terms that are zero in the field contribute nothing. -/
theorem cast_sumAt_nonzeroTerms (l : List (Signal × Int)) (x : Signal → Int) :
    ((sumAt (nonzeroTerms F l) x : Int) : ZMod F.modulus) = (sumAt l x : Int) := by
  rw [cast_sumAt, cast_sumAt, nonzeroTerms]
  induction l with
  | nil => rfl
  | cons t rest ih =>
    by_cases hzero : (F.modulus : Int) ∣ t.2
    · have hcast := (ZMod.intCast_zmod_eq_zero_iff_dvd t.2 F.modulus).2 hzero
      rw [List.filter_cons_of_neg (by simpa using hzero), ih, List.map_cons, List.sum_cons, hcast,
        zero_mul, zero_add]
    · rw [List.filter_cons_of_pos (by simpa using hzero), List.map_cons, List.sum_cons, ih,
        List.map_cons, List.sum_cons]

theorem filter_reduceInts (hF : 0 < F.modulus) (l : List (Signal × Int)) :
    (reduceInts F l).filter (fun t => t.2 != 0) = reduceInts F (nonzeroTerms F l) := by
  have hzero : ∀ i : Int, F.ofInt i = 0 ↔ (F.modulus : Int) ∣ i := fun i => by
    rw [← ZMod.intCast_zmod_eq_zero_iff_dvd, ← PrimeField.cast_ofInt hF,
      PrimeField.cast_eq_zero_iff (PrimeField.ofInt_lt hF i)]
  rw [reduceInts, reduceInts, nonzeroTerms, List.filter_map]
  refine congrArg _ (List.filter_congr fun t _ => ?_)
  rw [Function.comp_apply, bne, Bool.beq_eq_decide_eq, ← decide_not, decide_eq_decide]
  exact not_congr (hzero t.2)

/-- What is kept of a list has the value of its last terms that are not zero. -/
theorem value_ofList_reduceInts (hF : 0 < F.modulus) (l : List (Signal × Int)) (x : Signal → Int) :
    value (ofList (reduceInts F l)) (fun s => (x s : ZMod F.modulus)) =
      (sumAt (lastEntries (nonzeroTerms F l)) x : Int) := by
  have hlast : ofList (reduceInts F l) =
      SortedMap.ofList (reduceInts F (lastEntries (nonzeroTerms F l))) := by
    rw [ofList, filter_reduceInts hF, ← ofList_lastEntries, reduceInts, lastEntries_map]
    rfl
  have hnodup : ((reduceInts F (lastEntries (nonzeroTerms F l))).map (·.1)).Nodup := by
    simpa [reduceInts, Function.comp_def] using nodup_keys_lastEntries (nonzeroTerms F l)
  rw [hlast, value, ((SortedMap.entries_ofList_perm hnodup).map _).sum_eq, cast_sumAt, reduceInts,
    List.map_map]
  simp [Function.comp_def, PrimeField.cast_ofInt hF]

/-- Adding up the terms of a list keeps the value of the list. -/
theorem value_sumOfList_reduceInts (hF : 0 < F.modulus) (l : List (Signal × Int)) (x : Signal → Int) :
    value (sumOfList F (reduceInts F l)) (fun s => (x s : ZMod F.modulus)) = (sumAt l x : Int) := by
  have hsum := valueIn_foldl_accumulate (F := F) (x := fun s => (x s : ZMod F.modulus)) (reduceInts F l)
    SortedMap.empty
  rw [reduceInts, List.map_map] at hsum
  rw [cast_sumAt]
  refine hsum.trans ?_
  simp [Function.comp_def, PrimeField.cast_ofInt hF, valueIn, SortedMap.empty]

theorem mem_keys_ofList_reduceInts {s : Signal} (hs : s ∈ (ofList (reduceInts F l)).keys) :
    s ∈ l.map (·.1) := by
  rw [ofList, SortedMap.mem_keys_ofList] at hs
  have hs := ((List.filter_sublist (l := reduceInts F l)).map Prod.fst).subset hs
  simpa [reduceInts] using hs

theorem mem_keys_sumOfList_reduceInts {s : Signal} (hs : s ∈ (sumOfList F (reduceInts F l)).keys) :
    s ∈ l.map (·.1) := by
  obtain ⟨v, hv⟩ := SortedMap.mem_keys_iff.1 hs
  rw [sumOfList, get?_foldl_accumulate] at hv
  split at hv
  · rename_i hmem
    simpa [reduceInts] using hmem
  · cases hv

end Terms

namespace R1csConstraint

open Terms

variable [Fact F.modulus.Prime] {a b c : List (Signal × Int)} {values : List Nat}

/-- A constraint whose parts are collected from lists of terms is satisfied exactly if the product holds of
what the parts mean. -/
theorem isSatisfied_collect_iff {collect : List (Signal × Int) → Terms}
    {meaning : List (Signal × Int) → Int} (hkeys : ∀ l, ∀ s ∈ (collect l).keys, s ∈ l.map (·.1))
    (hvalue : ∀ l, value (collect l) (F.assignment values) = (meaning l : Int))
    (h : ∀ l ∈ [a, b, c], ∀ t ∈ l, t.1 < values.length) :
    (ofParts (collect a) (collect b) (collect c)).isSatisfied F values = true ↔
      meaning a * meaning b ≡ meaning c [ZMOD F.modulus] := by
  have hdrop : ∀ l, value (dropZeros (collect l)) (F.assignment values) = (meaning l : Int) :=
    fun l => valueIn_dropZeros.trans (hvalue l)
  have hcovered : ∀ l ∈ [a, b, c], ∀ s ∈ (dropZeros (collect l)).keys, s < values.length :=
    fun l hl s hs => by
      obtain ⟨t, ht, rfl⟩ := List.mem_map.1 (hkeys l s (mem_keys_dropZeros hs))
      exact h l hl t ht
  rw [isSatisfied_iff_of_keys, HoldsAt, ofParts, hdrop, hdrop, hdrop, ← Int.cast_mul,
    ZMod.intCast_eq_intCast_iff]
  rintro s (hs | hs | hs)
  · exact hcovered a (by simp) s hs
  · exact hcovered b (by simp) s hs
  · exact hcovered c (by simp) s hs

/-- Where all signals of the lists have values, a constraint built from integer terms is satisfied exactly
if the product holds of the sums of what is kept of the lists: of the terms of a signal that are not zero
in the field, the last one. So the product of the sums of the lists decides if no signal has two such terms
in one list. It always decides for the constraint whose parts are added up, as reading a file does. -/
theorem isSatisfied_ofInts_iff (F : PrimeField) [Fact F.modulus.Prime] (a b c : List (Signal × Int))
    (values : List Nat) (h : ∀ l ∈ [a, b, c], ∀ t ∈ l, t.1 < values.length) :
    let x (s : Signal) : Int := values.getD s 0
    let kept (l : List (Signal × Int)) : Int := sumAt (lastEntries (nonzeroTerms F l)) x
    ((ofInts F a b c).isSatisfied F values = true ↔ kept a * kept b ≡ kept c [ZMOD F.modulus]) ∧
    ((∀ l ∈ [a, b, c], ((nonzeroTerms F l).map (·.1)).Nodup) →
      ((ofInts F a b c).isSatisfied F values = true ↔
        sumAt a x * sumAt b x ≡ sumAt c x [ZMOD F.modulus])) ∧
    ((ofParts (sumOfList F (reduceInts F a)) (sumOfList F (reduceInts F b))
        (sumOfList F (reduceInts F c))).isSatisfied F values = true ↔
      sumAt a x * sumAt b x ≡ sumAt c x [ZMOD F.modulus]) := by
  intro x kept
  have hF : 0 < F.modulus := PrimeField.modulus_pos
  have hx : F.assignment values = fun s => (x s : ZMod F.modulus) := by
    funext s
    rw [PrimeField.assignment, Int.cast_natCast]
  have hkept : (ofInts F a b c).isSatisfied F values = true ↔ kept a * kept b ≡ kept c [ZMOD F.modulus] :=
    isSatisfied_collect_iff (fun l s => mem_keys_ofList_reduceInts)
      (fun l => hx ▸ value_ofList_reduceInts hF l x) h
  refine ⟨hkept, fun hnodup => ?_, ?_⟩
  · have hsum : ∀ l ∈ [a, b, c], ((kept l : Int) : ZMod F.modulus) = (sumAt l x : Int) := fun l hl => by
      rw [← cast_sumAt_nonzeroTerms l x, ← lastEntries_of_nodup (hnodup l hl)]
    rw [hkept, ← ZMod.intCast_eq_intCast_iff, ← ZMod.intCast_eq_intCast_iff, Int.cast_mul, Int.cast_mul,
      hsum a (by simp), hsum b (by simp), hsum c (by simp)]
  · exact isSatisfied_collect_iff (fun l s => mem_keys_sumOfList_reduceInts)
      (fun l => hx ▸ value_sumOfList_reduceInts hF l x) h

namespace Sample

/-- The signal 1, twice. -/
def twice : List (Signal × Int) := [(1, 1), (1, 1)]

def one : List (Signal × Int) := [(0, 1)]

/-- The signal 2. -/
def other : List (Signal × Int) := [(2, 1)]

end Sample

open Sample in
/-- Built from its terms, the constraint with a repeated signal holds where the signals are equal, and with
the terms added up it holds where the one signal is twice the other. -/
theorem isSatisfied_ofInts_iff_twice : Nat.Prime 7 ∧
    (∀ l ∈ [twice, one, other], ∀ t ∈ l, t.1 < [1, 1, 1].length) ∧
    (ofInts ⟨7⟩ twice one other).isSatisfied ⟨7⟩ [1, 1, 1] = true ∧
    (ofParts (sumOfList ⟨7⟩ (reduceInts ⟨7⟩ twice)) (sumOfList ⟨7⟩ (reduceInts ⟨7⟩ one))
      (sumOfList ⟨7⟩ (reduceInts ⟨7⟩ other))).isSatisfied ⟨7⟩ [1, 1, 2] = true := by
  have hprime : Nat.Prime 7 := by decide
  have : Fact (PrimeField.mk 7).modulus.Prime := ⟨hprime⟩
  have hcovered : ∀ l ∈ [twice, one, other], ∀ t ∈ l, t.1 < 3 := by decide
  exact ⟨hprime, hcovered,
    (isSatisfied_ofInts_iff ⟨7⟩ twice one other [1, 1, 1] hcovered).1.2 (by decide),
    (isSatisfied_ofInts_iff ⟨7⟩ twice one other [1, 1, 2] hcovered).2.2.2 (by decide)⟩

open Sample in
/-- A repeated term is lost: the sums of the lists satisfy the product, and the constraint that is built from
them is not satisfied. -/
theorem ofInts_loses_repeated_term :
    let x (s : Signal) : Int := [1, 1, 2].getD s 0
    Nat.Prime 7 ∧ (∀ l ∈ [twice, one, other], ∀ t ∈ l, t.1 < [1, 1, 2].length) ∧
      sumAt twice x * sumAt one x ≡ sumAt other x [ZMOD 7] ∧
      (ofInts ⟨7⟩ twice one other).isSatisfied ⟨7⟩ [1, 1, 2] = false := by
  decide

end R1csConstraint

end CircuitEquiv
