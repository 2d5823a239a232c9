-- SUMMARY: Constraints that are built from terms have proper keys and reduced coefficients; what adding up repeated signals leaves.
import CircuitEquiv.Proofs.Constraint.NormalForm
import CircuitEquiv.Proofs.Data.Failure

/-!
# Constraints built from terms

Construction drops zero coefficients. The coefficients of a rank-one constraint are taken over as
they are, so they are reduced when the given ones are below the modulus. Those of a polynomial are
added up in the field and so are reduced whatever is given; terms of the constant signal are moved to a
lower degree. A list of terms that is added up keeps the totals of its signals that are not zero.
-/

namespace CircuitEquiv

variable {F : PrimeField}

namespace Terms

theorem isReduced_dropZeros {κ : Type} [Ord κ] [Std.LawfulEqOrd κ] {t : SortedMap κ Nat}
    (h : ∀ k v, t.get? k = some v → v < F.modulus) : IsReduced F (dropZeros t) := by
  intro v hv
  obtain ⟨k, hk⟩ := SortedMap.mem_values_iff.1 hv
  rw [dropZeros, SortedMap.get?_filter, Option.filter_eq_some_iff] at hk
  exact ⟨Nat.pos_of_ne_zero (by simpa using hk.2), h k v hk.1⟩

theorem mem_keys_dropZeros {κ : Type} [Ord κ] [Std.LawfulEqOrd κ] {t : SortedMap κ Nat} {k : κ}
    (h : k ∈ (dropZeros t).keys) : k ∈ t.keys := by
  obtain ⟨v, hv⟩ := SortedMap.mem_keys_iff.1 h
  rw [dropZeros, SortedMap.get?_filter, Option.filter_eq_some_iff] at hv
  exact SortedMap.mem_keys_iff.2 ⟨v, hv.1⟩

/-! ## Repeated signals -/

/-- The values of a signal in a list of terms, added up in the field. -/
def total (F : PrimeField) (l : List (Signal × Nat)) (s : Signal) : Nat :=
  ((l.filter fun t => t.1 = s).map (·.2)).sum % F.modulus

/-- The signals of a list of terms with their totals; those whose total is zero are left out. -/
def totals (F : PrimeField) (l : List (Signal × Nat)) : Terms :=
  SortedMap.ofList ((l.map fun t => (t.1, total F l t.1)).filter fun t => t.2 ≠ 0)

theorem get?_totals_eq_some_iff {l : List (Signal × Nat)} {s : Signal} {v : Nat} :
    (totals F l).get? s = some v ↔ s ∈ l.map (·.1) ∧ total F l s = v ∧ v ≠ 0 := by
  have hentry : ∀ w, (totals F l).get? s = some w → s ∈ l.map (·.1) ∧ total F l s = w ∧ w ≠ 0 := by
    intro w hw
    have hw := SortedMap.mem_of_get?_ofList hw
    simp only [List.mem_filter, List.mem_map, Prod.mk.injEq, decide_eq_true_eq] at hw
    obtain ⟨⟨t, ht, rfl, rfl⟩, hne⟩ := hw
    exact ⟨List.mem_map_of_mem ht, rfl, hne⟩
  refine ⟨hentry v, ?_⟩
  rintro ⟨hs, rfl, hne⟩
  obtain ⟨t, ht, rfl⟩ := List.mem_map.1 hs
  obtain ⟨w, hw⟩ : ∃ w, (totals F l).get? t.1 = some w := by
    refine SortedMap.mem_keys_iff.1 (SortedMap.mem_keys_ofList.2 (List.mem_map.2 ⟨(t.1, total F l t.1),
      List.mem_filter.2 ⟨List.mem_map_of_mem (f := fun t => (t.1, total F l t.1)) ht, ?_⟩, rfl⟩))
    simpa using hne
  rw [hw, (hentry w hw).2.1]

theorem get?_foldl_accumulate (l : List (Signal × Nat)) (t : Terms) (s : Signal) :
    (l.foldl (fun t term => accumulate F t term.1 term.2) t).get? s =
      if s ∈ l.map (·.1) then some (((t.get? s).getD 0 +
        ((l.filter fun e => e.1 = s).map (·.2)).sum) % F.modulus) else t.get? s := by
  induction l generalizing t with
  | nil => simp
  | cons e rest ih =>
    rw [List.foldl_cons, ih, accumulate, SortedMap.get?_upsert]
    by_cases hs : s = e.1
    · subst hs
      have hsum : ∀ n, (((t.get? e.1).getD 0 + e.2) % F.modulus + n) % F.modulus =
          ((t.get? e.1).getD 0 + (e.2 + n)) % F.modulus := fun n => by
        rw [Nat.mod_add_mod, Nat.add_assoc]
      by_cases hrest : e.1 ∈ rest.map (·.1)
      · simpa [hrest, PrimeField.add] using hsum _
      · have hnone : rest.filter (fun x => x.1 = e.1) = [] :=
          List.filter_eq_nil_iff.2 fun x hx hxe =>
            hrest (of_decide_eq_true hxe ▸ List.mem_map_of_mem hx)
        simp [hrest, hnone, PrimeField.add]
    · have hne : ¬ e.1 = s := fun h => hs h.symm
      simp only [hs, if_false, List.map_cons, List.mem_cons, false_or, List.filter_cons, hne,
        decide_false, Bool.false_eq_true]

/-- Adding up the terms of a list and dropping the zeros leaves the totals that are not zero. -/
theorem dropZeros_sumOfList (l : List (Signal × Nat)) : dropZeros (sumOfList F l) = totals F l := by
  refine SortedMap.ext_get? fun s => Option.ext fun v => ?_
  rw [get?_totals_eq_some_iff, dropZeros, SortedMap.get?_filter, sumOfList, get?_foldl_accumulate,
    Option.filter_eq_some_iff]
  split
  · rename_i hs
    simp [hs, total]
  · rename_i hs
    simp [hs]

end Terms

/-- A rank-one constraint built from coefficients below the modulus is reduced. -/
theorem R1csConstraint.isReduced_ofTerms {a b c : List (Signal × Nat)}
    (ha : ∀ t ∈ a, t.2 < F.modulus) (hb : ∀ t ∈ b, t.2 < F.modulus)
    (hc : ∀ t ∈ c, t.2 < F.modulus) : (ofTerms a b c).IsReduced F := by
  have hpart : ∀ l : List (Signal × Nat), (∀ t ∈ l, t.2 < F.modulus) →
      Terms.IsReduced F (Terms.dropZeros (Terms.ofList l)) := fun l hl =>
    Terms.isReduced_dropZeros fun k v hk =>
      hl (k, v) (List.mem_of_mem_filter (SortedMap.mem_of_get?_ofList hk))
  exact ⟨hpart a ha, hpart b hb, hpart c hc⟩

namespace AcirConstraint

/-! ## Keys -/

section Keys

variable {p : AcirConstraint}

theorem mem_keys_accumulate {κ : Type} [Ord κ] [Std.TransOrd κ] [Std.LawfulEqOrd κ] [DecidableEq κ]
    {t : SortedMap κ Nat} {k j : κ} {value : Nat}
    (h : j ∈ (Terms.accumulate F t k value).keys) : j = k ∨ j ∈ t.keys := by
  rw [SortedMap.mem_keys_iff, Terms.accumulate] at h
  obtain ⟨v, hv⟩ := h
  rw [SortedMap.get?_upsert] at hv
  split at hv
  · rename_i hj
    exact Or.inl hj
  · exact Or.inr (SortedMap.mem_keys_iff.2 ⟨v, hv⟩)

theorem HasProperKeys.addMult (h : p.HasProperKeys) (x y : Signal) (value : Nat) :
    (p.addMult F x y value).HasProperKeys := by
  unfold AcirConstraint.addMult
  split
  · exact ⟨h.mult_keys, h.linear_keys⟩
  · rename_i hmax
    split
    · refine ⟨h.mult_keys, fun s hs => ?_⟩
      rcases mem_keys_accumulate hs with rfl | hs
      · exact Nat.pos_of_ne_zero hmax
      · exact h.linear_keys s hs
    · rename_i hmin
      refine ⟨fun k hk => ?_, h.linear_keys⟩
      rcases mem_keys_accumulate hk with rfl | hk
      · exact ⟨Nat.pos_of_ne_zero hmin, min_le_max⟩
      · exact h.mult_keys k hk

theorem HasProperKeys.addLinear (h : p.HasProperKeys) (x : Signal) (value : Nat) :
    (p.addLinear F x value).HasProperKeys := by
  unfold AcirConstraint.addLinear
  split
  · exact ⟨h.mult_keys, h.linear_keys⟩
  · rename_i hx
    refine ⟨h.mult_keys, fun s hs => ?_⟩
    rcases mem_keys_accumulate hs with rfl | hs
    · exact Nat.pos_of_ne_zero hx
    · exact h.linear_keys s hs

/-- A polynomial built from terms mentions the constant signal nowhere. -/
theorem hasProperKeys_ofTerms (mult : List ((Signal × Signal) × Nat)) (linear : List (Signal × Nat))
    (constant : Nat) : (ofTerms F mult linear constant).HasProperKeys := by
  have hstart : (⟨SortedMap.empty, SortedMap.empty, F.element constant⟩ :
      AcirConstraint).HasProperKeys :=
    ⟨fun _ hk => absurd hk List.not_mem_nil, fun _ hs => absurd hs List.not_mem_nil⟩
  have hmult : (mult.foldl (fun (p : AcirConstraint) t => p.addMult F t.1.1 t.1.2 t.2)
      ⟨SortedMap.empty, SortedMap.empty, F.element constant⟩).HasProperKeys :=
    foldl_invariant (fun _ t _ h => h.addMult t.1.1 t.1.2 t.2) hstart
  have hlinear : (linear.foldl (fun (p : AcirConstraint) t => p.addLinear F t.1 t.2) _).HasProperKeys :=
    foldl_invariant (fun _ t _ h => h.addLinear t.1 t.2) hmult
  exact ⟨fun k hk => hlinear.mult_keys k (Terms.mem_keys_dropZeros hk),
    fun s hs => hlinear.linear_keys s (Terms.mem_keys_dropZeros hs)⟩

end Keys

/-! ## Coefficients -/

/-- All coefficients are elements, zero among them. -/
structure IsBounded (F : PrimeField) (p : AcirConstraint) : Prop where
  mult : ∀ k v, p.mult.get? k = some v → v < F.modulus
  linear : ∀ s v, p.linear.get? s = some v → v < F.modulus
  constant : p.constant < F.modulus

variable [hp : Fact F.modulus.Prime] {p : AcirConstraint}

theorem get?_accumulate {κ : Type} [Ord κ] [Std.TransOrd κ] [Std.LawfulEqOrd κ] [DecidableEq κ]
    {t : SortedMap κ Nat} (ht : ∀ k v, t.get? k = some v → v < F.modulus) (k : κ) (value : Nat) :
    ∀ j v, (Terms.accumulate F t k value).get? j = some v → v < F.modulus := by
  intro j v hv
  rw [Terms.accumulate, SortedMap.get?_upsert] at hv
  split at hv
  · rw [← Option.some.inj hv]
    exact PrimeField.add_lt _ _
  · exact ht j v hv

theorem IsBounded.addMult (h : p.IsBounded F) (x y : Signal) (value : Nat) :
    (p.addMult F x y value).IsBounded F := by
  unfold AcirConstraint.addMult
  split
  · exact ⟨h.mult, h.linear, PrimeField.add_lt _ _⟩
  · split
    · exact ⟨h.mult, get?_accumulate h.linear _ value, h.constant⟩
    · exact ⟨get?_accumulate h.mult (min x y, max x y) value, h.linear, h.constant⟩

theorem IsBounded.addLinear (h : p.IsBounded F) (x : Signal) (value : Nat) :
    (p.addLinear F x value).IsBounded F := by
  unfold AcirConstraint.addLinear
  split
  · exact ⟨h.mult, h.linear, PrimeField.add_lt _ _⟩
  · exact ⟨h.mult, get?_accumulate h.linear x value, h.constant⟩

/-- A polynomial built from terms is reduced. -/
theorem isReduced_ofTerms (mult : List ((Signal × Signal) × Nat)) (linear : List (Signal × Nat))
    (constant : Nat) : (ofTerms F mult linear constant).IsReduced F := by
  have hstart : (⟨SortedMap.empty, SortedMap.empty, F.element constant⟩ : AcirConstraint).IsBounded F :=
    ⟨fun _ _ h => (by cases h), fun _ _ h => (by cases h), Nat.mod_lt _ PrimeField.modulus_pos⟩
  have hmult : (mult.foldl (fun (p : AcirConstraint) t => p.addMult F t.1.1 t.1.2 t.2)
      ⟨SortedMap.empty, SortedMap.empty, F.element constant⟩).IsBounded F :=
    foldl_invariant (fun _ t _ h => h.addMult t.1.1 t.1.2 t.2) hstart
  have h : (linear.foldl (fun (p : AcirConstraint) t => p.addLinear F t.1 t.2) _).IsBounded F :=
    foldl_invariant (fun _ t _ h => h.addLinear t.1 t.2) hmult
  have hkeys := hasProperKeys_ofTerms (F := F) mult linear constant
  exact {
    mult := Terms.isReduced_dropZeros h.mult
    linear := Terms.isReduced_dropZeros h.linear
    constant := h.constant
    mult_keys := hkeys.mult_keys
    linear_keys := hkeys.linear_keys }

end AcirConstraint

end CircuitEquiv
