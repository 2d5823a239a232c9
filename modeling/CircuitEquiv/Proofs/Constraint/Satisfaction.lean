-- SUMMARY: Constraints are equations over the field, which scaling keeps and renaming moves to other signals.
import CircuitEquiv.Proofs.Constraint.Renaming

/-!
# Satisfaction

Where every signal has a value, a constraint is satisfied when its equation holds in the field. Values
need not be reduced. Rescaled constraints have equations with the same solutions, and a renamed
constraint holds at an assignment when the constraint holds at the assignment that is read through the
renaming. A renamed constraint is also satisfied by the moved values themselves exactly where the
constraint is by the old ones, over any modulus: only the order in which the terms are added up changes.
-/

namespace CircuitEquiv

namespace Terms

/-! ## Values of linear combinations -/

section Value

variable {κ : Type} [Ord κ] {F : PrimeField} {t : SortedMap κ Nat} {x y : κ → ZMod F.modulus}

/-- The sum of the coefficients times the values of what they belong to. -/
def value (t : SortedMap κ Nat) (x : κ → ZMod F.modulus) : ZMod F.modulus :=
  (t.entries.map fun e => (e.2 : ZMod F.modulus) * x e.1).sum

theorem value_congr (h : ∀ k ∈ t.keys, x k = y k) : value t x = value t y := by
  unfold value
  congr 1
  exact List.map_congr_left fun e he => by rw [h e.1 (List.mem_map_of_mem he)]

theorem value_of_isEmpty (h : t.isEmpty = true) : value t x = 0 := by
  rw [value, List.isEmpty_iff.1 h]
  rfl

theorem value_scale (k : Nat) : value (scale F t k) x = k * value t x := by
  unfold value
  rw [← List.sum_map_mul_left, scale, SortedMap.mapValues, List.map_map]
  congr 1
  refine List.map_congr_left fun e _ => ?_
  show ((F.mul e.2 k : Nat) : ZMod F.modulus) * x e.1 = _
  rw [PrimeField.cast_mul, mul_left_comm, mul_assoc]

theorem value_mapKeys [Std.TransOrd κ] [Std.LawfulEqOrd κ] {f : κ → κ}
    (hf : Set.InjOn f {k | k ∈ t.keys}) : value (t.mapKeys f) x = value t fun k => x (f k) := by
  unfold value
  rw [((SortedMap.entries_mapKeys_perm hf).map _).sum_eq, List.map_map]
  rfl

omit [Ord κ] in
/-- Adding up terms modulo the prime gives the representative of the sum. -/
theorem exists_foldlM_add [Fact F.modulus.Prime] (step : Nat → κ × Nat → Option Nat)
    {l : List (κ × Nat)} {a : Nat}
    (hstep : ∀ e ∈ l, ∃ n : Nat, (n : ZMod F.modulus) = x e.1 ∧
      ∀ total, step total e = some (F.add total (F.mul e.2 n))) (ha : a < F.modulus) :
    ∃ b < F.modulus, l.foldlM step a = some b ∧
      (b : ZMod F.modulus) = a + (l.map fun e => (e.2 : ZMod F.modulus) * x e.1).sum := by
  induction l generalizing a with
  | nil => exact ⟨a, ha, rfl, by simp⟩
  | cons e rest ih =>
    obtain ⟨⟨n, hn, hfirst⟩, hrest⟩ := List.forall_mem_cons.1 hstep
    obtain ⟨b, hb, hfold, hcast⟩ := ih hrest (PrimeField.add_lt a (F.mul e.2 n))
    refine ⟨b, hb, ?_, ?_⟩
    · rw [List.foldlM_cons, hfirst]
      exact hfold
    · rw [hcast, PrimeField.cast_add, PrimeField.cast_mul, hn, List.map_cons, List.sum_cons, add_assoc]

end Value

end Terms

/-! ## Assignments -/

variable {F : PrimeField} {values : List Nat} {x : Signal → ZMod F.modulus} {f : Signal → Signal}

/-- The field elements that listed values stand for. -/
def PrimeField.assignment (F : PrimeField) (values : List Nat) (s : Signal) : ZMod F.modulus :=
  (values.getD s 0 : Nat)

theorem getElem?_eq_getD {s : Signal} (h : s < values.length) : values[s]? = some (values.getD s 0) := by
  simp [h]

theorem Terms.exists_eval? [Fact F.modulus.Prime] {t : Terms} (h : ∀ s ∈ t.keys, s < values.length) :
    ∃ n < F.modulus, Terms.eval? F t values = some n ∧
      (n : ZMod F.modulus) = Terms.value t (F.assignment values) := by
  obtain ⟨n, hn, heval, hcast⟩ := exists_foldlM_add (x := F.assignment values) (l := t.entries)
    (fun total term => do
      let value ← values[term.1]?
      return F.add total (F.mul term.2 value))
    (fun e he => ⟨values.getD e.1 0, rfl, fun total => by
      rw [getElem?_eq_getD (h e.1 (List.mem_map_of_mem he))]
      rfl⟩) PrimeField.modulus_pos
  exact ⟨n, hn, heval, by rw [hcast, Nat.cast_zero, zero_add]; rfl⟩

/-! ## Rank-one constraints -/

namespace R1csConstraint

variable {r s : R1csConstraint}

/-- The equation of a rank-one constraint. -/
def HoldsAt (r : R1csConstraint) (x : Signal → ZMod F.modulus) : Prop :=
  Terms.value r.a x * Terms.value r.b x = Terms.value r.c x

theorem isSatisfied_iff_of_keys [Fact F.modulus.Prime]
    (hkeys : ∀ s, s ∈ r.a.keys ∨ s ∈ r.b.keys ∨ s ∈ r.c.keys → s < values.length) :
    r.isSatisfied F values = true ↔ r.HoldsAt (F.assignment values) := by
  obtain ⟨a, ha, heval, hcast⟩ := Terms.exists_eval? (F := F) fun s hs => hkeys s (Or.inl hs)
  obtain ⟨b, hb, heval', hcast'⟩ := Terms.exists_eval? (F := F) fun s hs => hkeys s (Or.inr (Or.inl hs))
  obtain ⟨c, hc, heval'', hcast''⟩ :=
    Terms.exists_eval? (F := F) fun s hs => hkeys s (Or.inr (Or.inr hs))
  rw [isSatisfied, heval, heval', heval'']
  show (F.mul a b == c) = true ↔ _
  rw [beq_iff_eq, HoldsAt, ← hcast, ← hcast', ← hcast'', ← PrimeField.cast_mul]
  exact ⟨congrArg _, PrimeField.eq_of_cast_eq (PrimeField.mul_lt a b) hc⟩

theorem isSatisfied_iff [Fact F.modulus.Prime] (h0 : constantSignal < values.length)
    (h : ∀ s ∈ r.signals, s < values.length) :
    r.isSatisfied F values = true ↔ r.HoldsAt (F.assignment values) := by
  refine isSatisfied_iff_of_keys fun s hs => ?_
  by_cases hs0 : s = constantSignal
  · exact hs0 ▸ h0
  · exact h s (mem_signals.2 ⟨hs, hs0⟩)

theorem value_factor_of_isLinear (h : r.isLinear = true) :
    Terms.value r.a x * Terms.value r.b x = 0 := by
  rcases Bool.or_eq_true _ _ ▸ h with h | h
  · rw [Terms.value_of_isEmpty h, zero_mul]
  · rw [Terms.value_of_isEmpty h, mul_zero]

theorem holdsAt_exchanged : r.exchanged.HoldsAt x ↔ r.HoldsAt x := by
  rw [HoldsAt, HoldsAt, mul_comm]
  rfl

variable [Fact F.modulus.Prime]

/-- The scales of the factors make up that of the other side, or there is no product. -/
theorem holdsAt_scaled {ka kb kc : Nat} (ha : F.IsNonzero ka) (hb : F.IsNonzero kb)
    (hc : F.IsNonzero kc) (hprod : r.isLinear = false → kc = F.mul ka kb) :
    (r.scaled F ka kb kc).HoldsAt x ↔ r.HoldsAt x := by
  have hscaled : Terms.value (r.scaled F ka kb kc).a x * Terms.value (r.scaled F ka kb kc).b x =
      ka * kb * (Terms.value r.a x * Terms.value r.b x) := by
    rw [scaled, Terms.value_scale, Terms.value_scale, mul_mul_mul_comm]
  rw [HoldsAt, HoldsAt, hscaled, scaled, Terms.value_scale]
  cases hlin : r.isLinear with
  | true =>
    rw [value_factor_of_isLinear hlin, mul_zero, zero_eq_mul, or_iff_right hc.cast_ne_zero, eq_comm]
  | false =>
    rw [hprod hlin, PrimeField.cast_mul]
    exact mul_right_inj' (mul_ne_zero ha.cast_ne_zero hb.cast_ne_zero)

theorem holdsAt_of_isRescaling (h : r.IsRescaling F s) : s.HoldsAt x ↔ r.HoldsAt x := by
  obtain ⟨ka, kb, kc, ha, hb, hc, hprod, rfl | rfl⟩ := h
  · exact holdsAt_scaled ha hb hc hprod
  · rw [holdsAt_exchanged, holdsAt_scaled ha hb hc hprod]

omit [Fact F.modulus.Prime] in
theorem holdsAt_rename (hf : IsRenaming f) : (r.rename f).HoldsAt x ↔ r.HoldsAt fun s => x (f s) := by
  have hvalue : ∀ t : Terms, Terms.value (Terms.rename t f) x = Terms.value t fun s => x (f s) :=
    fun t => Terms.value_mapKeys hf.injective.injOn
  rw [HoldsAt, HoldsAt, rename, hvalue, hvalue, hvalue]

end R1csConstraint

/-! ## Polynomial constraints -/

namespace AcirConstraint

variable {p q : AcirConstraint}

/-- The value of a polynomial. -/
def valueAt (p : AcirConstraint) (x : Signal → ZMod F.modulus) : ZMod F.modulus :=
  p.constant + Terms.value p.mult (fun k => x k.1 * x k.2) + Terms.value p.linear x

/-- The equation of a polynomial constraint. -/
def HoldsAt (p : AcirConstraint) (x : Signal → ZMod F.modulus) : Prop := p.valueAt x = 0

theorem isSatisfied_iff [Fact F.modulus.Prime] (hp : p.HasReducedCoefficients F)
    (h : ∀ s ∈ p.signals, s < values.length) :
    p.isSatisfied F values = true ↔ p.HoldsAt (F.assignment values) := by
  obtain ⟨a, ha, hmult, hcast⟩ := Terms.exists_foldlM_add (l := p.mult.entries)
    (x := fun k => F.assignment values k.1 * F.assignment values k.2)
    (fun total term => do
      let x ← values[term.1.1]?
      let y ← values[term.1.2]?
      return F.add total (F.mul term.2 (F.mul x y)))
    (fun e he => ⟨F.mul (values.getD e.1.1 0) (values.getD e.1.2 0), PrimeField.cast_mul _ _,
      fun total => by
        have hk : e.1 ∈ p.mult.keys := List.mem_map_of_mem he
        rw [getElem?_eq_getD (h e.1.1 (mem_signals.2 (Or.inl ⟨e.1, hk, Or.inl rfl⟩))),
          getElem?_eq_getD (h e.1.2 (mem_signals.2 (Or.inl ⟨e.1, hk, Or.inr rfl⟩)))]
        rfl⟩) hp.constant
  obtain ⟨b, hb, hlinear, hcast'⟩ := Terms.exists_foldlM_add (l := p.linear.entries)
    (x := F.assignment values)
    (fun total term => do
      let x ← values[term.1]?
      return F.add total (F.mul term.2 x))
    (fun e he => ⟨values.getD e.1 0, rfl, fun total => by
      rw [getElem?_eq_getD (h e.1 (mem_signals.2 (Or.inr (List.mem_map_of_mem he))))]
      rfl⟩) ha
  have heval : p.eval? F values = some b := by
    rw [eval?, hmult]
    exact hlinear
  rw [isSatisfied, heval, beq_iff_eq, Option.some_inj, ← PrimeField.cast_eq_zero_iff hb, hcast', hcast]
  rfl

theorem valueAt_scaled (k : Nat) : (p.scaled F k).valueAt x = k * p.valueAt x := by
  rw [valueAt, valueAt, scaled, Terms.value_scale, Terms.value_scale, PrimeField.cast_mul, mul_add,
    mul_add, mul_comm (p.constant : ZMod F.modulus)]

theorem holdsAt_of_isRescaling [Fact F.modulus.Prime] (h : p.IsRescaling F q) :
    q.HoldsAt x ↔ p.HoldsAt x := by
  obtain ⟨k, hk, rfl⟩ := h
  rw [HoldsAt, HoldsAt, valueAt_scaled, mul_eq_zero, or_iff_right hk.cast_ne_zero]

theorem holdsAt_rename (hp : p.HasProperKeys) (hf : IsRenaming f) :
    (p.rename f).HoldsAt x ↔ p.HoldsAt fun s => x (f s) := by
  have hmult : Terms.value (p.rename f).mult (fun k => x k.1 * x k.2) =
      Terms.value p.mult fun k => x (f k.1) * x (f k.2) := by
    rw [mult_rename, Terms.value_mapKeys (hp.injOn_renamePair hf)]
    refine Terms.value_congr fun k _ => ?_
    rcases renamePair_eq_or f k with h | h
    · rw [h]
    · rw [h, mul_comm]
  rw [HoldsAt, HoldsAt, valueAt, valueAt, hmult, linear_rename,
    Terms.value_mapKeys hf.injective.injOn]
  rfl

end AcirConstraint

/-! ## Constraints of either dialect -/

namespace Constraint

variable {c d : Constraint}

/-- The equation of a constraint. -/
def HoldsAt (c : Constraint) (x : Signal → ZMod F.modulus) : Prop :=
  match c with
  | .r1cs r => r.HoldsAt x
  | .acir p => p.HoldsAt x

variable [Fact F.modulus.Prime]

/-- Where all signals have values, a constraint is satisfied when its equation holds. -/
theorem isSatisfied_iff (hc : c.HasReducedCoefficients F) (h0 : constantSignal < values.length)
    (h : ∀ s ∈ c.signals, s < values.length) :
    c.isSatisfied F values = true ↔ c.HoldsAt (F.assignment values) := by
  cases c with
  | r1cs r => exact R1csConstraint.isSatisfied_iff h0 h
  | acir p => exact AcirConstraint.isSatisfied_iff hc h

theorem holdsAt_of_isRescaling (h : c.IsRescaling F d) : d.HoldsAt x ↔ c.HoldsAt x := by
  cases c with
  | r1cs r =>
    cases d with
    | r1cs s => exact R1csConstraint.holdsAt_of_isRescaling h
    | acir q => exact h.elim
  | acir p =>
    cases d with
    | r1cs s => exact h.elim
    | acir q => exact AcirConstraint.holdsAt_of_isRescaling h

omit [Fact F.modulus.Prime] in
theorem holdsAt_rename (hc : c.HasProperKeys) (hf : IsRenaming f) :
    (c.rename f).HoldsAt x ↔ c.HoldsAt fun s => x (f s) := by
  cases c with
  | r1cs r => exact R1csConstraint.holdsAt_rename hf
  | acir p => exact AcirConstraint.holdsAt_rename hc hf

/-- Constraints with a normal form in common have the same solutions. -/
theorem holdsAt_of_isScalarMultipleOf (hc : c.HasReducedCoefficients F)
    (hd : d.HasReducedCoefficients F) (h : c.isScalarMultipleOf F d = true) :
    d.HoldsAt x ↔ c.HoldsAt x := by
  obtain ⟨n, hnc, hnd⟩ := exists_mem_normalize_of_isScalarMultipleOf h
  rw [← holdsAt_of_isRescaling (isRescaling_of_mem_normalize hc hnc),
    holdsAt_of_isRescaling (isRescaling_of_mem_normalize hd hnd)]

end Constraint

/-! ## Values moved by a renaming -/

section Moved

variable {F : PrimeField} {values moved : List Nat} {f : Signal → Signal}

instance (F : PrimeField) : RightCommutative F.add where
  right_comm a b c := by
    show ((a + b) % _ + c) % _ = ((a + c) % _ + b) % _
    rw [Nat.mod_add_mod, Nat.mod_add_mod, Nat.add_right_comm]

namespace Terms

section Summands

variable {κ : Type} [Ord κ] {t : SortedMap κ Nat} {x y : κ → Nat}

/-- The coefficients times the values of what they belong to. -/
def summands (F : PrimeField) (t : SortedMap κ Nat) (x : κ → Nat) : List Nat :=
  t.entries.map fun e => F.mul e.2 (x e.1)

/-- Where everything has a value, adding up term by term gives the sum of the summands. -/
theorem foldlM_eq {step : Nat → κ × Nat → Option Nat}
    (h : ∀ e ∈ t.entries, ∀ total, step total e = some (F.add total (F.mul e.2 (x e.1)))) (a : Nat) :
    t.entries.foldlM step a = some ((summands F t x).foldl F.add a) := by
  unfold summands
  revert h
  induction t.entries generalizing a with
  | nil => exact fun _ => rfl
  | cons e rest ih =>
    intro h
    rw [List.foldlM_cons, h e List.mem_cons_self]
    exact ih _ fun e he => h e (List.mem_cons_of_mem _ he)

/-- Renamed terms have the same summands where the values are moved along. -/
theorem summands_mapKeys_perm [Std.TransOrd κ] [Std.LawfulEqOrd κ] {f : κ → κ}
    (hf : Set.InjOn f {k | k ∈ t.keys}) (hxy : ∀ k ∈ t.keys, y (f k) = x k) :
    (summands F (t.mapKeys f) y).Perm (summands F t x) := by
  refine ((SortedMap.entries_mapKeys_perm hf).map _).trans (.of_eq ?_)
  rw [List.map_map]
  refine List.map_congr_left fun e he => ?_
  show F.mul e.2 (y (f e.1)) = F.mul e.2 (x e.1)
  rw [hxy e.1 (List.mem_map_of_mem he)]

end Summands

theorem eval?_eq {t : Terms} (h : ∀ s ∈ t.keys, s < values.length) : eval? F t values =
    some ((summands F t fun s => values.getD s 0).foldl F.add 0) := by
  refine foldlM_eq (fun e he total => ?_) 0
  rw [getElem?_eq_getD (h e.1 (List.mem_map_of_mem he))]
  rfl

theorem eval?_rename {t : Terms} (hf : IsRenaming f) (h : ∀ s ∈ t.keys, s < values.length)
    (hmoved : ∀ s ∈ t.keys, f s < moved.length ∧ moved.getD (f s) 0 = values.getD s 0) :
    eval? F (rename t f) moved = eval? F t values := by
  have hlt : ∀ s ∈ (rename t f).keys, s < moved.length := fun s hs => by
    obtain ⟨u, hu, rfl⟩ := SortedMap.mem_keys_mapKeys.1 hs
    exact (hmoved u hu).1
  have hperm := summands_mapKeys_perm (F := F) (y := fun s => moved.getD s 0) hf.injective.injOn
    fun s hs => (hmoved s hs).2
  rw [eval?_eq h, eval?_eq hlt, rename_eq_mapKeys, hperm.foldl_eq]

end Terms

theorem R1csConstraint.isSatisfied_rename {r : R1csConstraint} (hf : IsRenaming f)
    (h : ∀ s, s = constantSignal ∨ s ∈ r.signals → s < values.length ∧ f s < moved.length ∧
      moved.getD (f s) 0 = values.getD s 0) :
    (r.rename f).isSatisfied F moved = r.isSatisfied F values := by
  have hkeys : ∀ s, s ∈ r.a.keys ∨ s ∈ r.b.keys ∨ s ∈ r.c.keys → s < values.length ∧
      f s < moved.length ∧ moved.getD (f s) 0 = values.getD s 0 := fun s hs => by
    by_cases hs0 : s = constantSignal
    · exact h s (Or.inl hs0)
    · exact h s (Or.inr (mem_signals.2 ⟨hs, hs0⟩))
  have hpart : ∀ t : Terms, (∀ s ∈ t.keys, s ∈ r.a.keys ∨ s ∈ r.b.keys ∨ s ∈ r.c.keys) →
      Terms.eval? F (Terms.rename t f) moved = Terms.eval? F t values := fun t ht =>
    Terms.eval?_rename hf (fun s hs => (hkeys s (ht s hs)).1) fun s hs => (hkeys s (ht s hs)).2
  rw [isSatisfied, isSatisfied, rename, hpart r.a fun _ hs => Or.inl hs,
    hpart r.b fun _ hs => Or.inr (Or.inl hs), hpart r.c fun _ hs => Or.inr (Or.inr hs)]

namespace AcirConstraint

variable {p : AcirConstraint}

theorem eval?_eq (h : ∀ s ∈ p.signals, s < values.length) : p.eval? F values =
    some ((Terms.summands F p.linear fun s => values.getD s 0).foldl F.add
      ((Terms.summands F p.mult fun k => F.mul (values.getD k.1 0) (values.getD k.2 0)).foldl F.add
        p.constant)) := by
  have hmult : p.mult.entries.foldlM (fun total term => do
      let x ← values[term.1.1]?
      let y ← values[term.1.2]?
      return F.add total (F.mul term.2 (F.mul x y))) p.constant =
      some ((Terms.summands F p.mult fun k => F.mul (values.getD k.1 0) (values.getD k.2 0)).foldl F.add
        p.constant) := by
    refine Terms.foldlM_eq (fun e he total => ?_) _
    have hk : e.1 ∈ p.mult.keys := List.mem_map_of_mem he
    rw [getElem?_eq_getD (h e.1.1 (mem_signals.2 (Or.inl ⟨e.1, hk, Or.inl rfl⟩))),
      getElem?_eq_getD (h e.1.2 (mem_signals.2 (Or.inl ⟨e.1, hk, Or.inr rfl⟩)))]
    rfl
  rw [eval?, hmult]
  refine Terms.foldlM_eq (fun e he total => ?_) _
  rw [getElem?_eq_getD (h e.1 (mem_signals.2 (Or.inr (List.mem_map_of_mem he))))]
  rfl

theorem isSatisfied_rename (hp : p.HasProperKeys) (hf : IsRenaming f)
    (h : ∀ s ∈ p.signals, s < values.length ∧ f s < moved.length ∧
      moved.getD (f s) 0 = values.getD s 0) :
    (p.rename f).isSatisfied F moved = p.isSatisfied F values := by
  have hlt : ∀ s ∈ (p.rename f).signals, s < moved.length := fun s hs => by
    obtain ⟨u, hu, rfl⟩ := mem_signals_rename.1 hs
    exact (h u hu).2.1
  have hlinear := Terms.summands_mapKeys_perm (F := F) (t := p.linear)
    (y := fun s => moved.getD s 0) hf.injective.injOn
    fun s hs => (h s (mem_signals.2 (Or.inr hs))).2.2
  have hmult := Terms.summands_mapKeys_perm (F := F) (t := p.mult)
    (x := fun k => F.mul (values.getD k.1 0) (values.getD k.2 0))
    (y := fun k => F.mul (moved.getD k.1 0) (moved.getD k.2 0)) (hp.injOn_renamePair hf)
    fun k hk => by
      rw [← (h k.1 (mem_signals.2 (Or.inl ⟨k, hk, Or.inl rfl⟩))).2.2,
        ← (h k.2 (mem_signals.2 (Or.inl ⟨k, hk, Or.inr rfl⟩))).2.2]
      rcases renamePair_eq_or f k with h | h
      · rw [h]
      · rw [h, PrimeField.mul_comm]
  rw [isSatisfied, isSatisfied, eval?_eq hlt, eval?_eq fun s hs => (h s hs).1, mult_rename,
    linear_rename, hmult.foldl_eq, hlinear.foldl_eq]
  rfl

end AcirConstraint

/-- A renamed constraint is satisfied exactly where the constraint is, the values moved along. -/
theorem Constraint.isSatisfied_rename {c : Constraint} (hc : c.HasProperKeys) (hf : IsRenaming f)
    (h : ∀ s, s = constantSignal ∨ s ∈ c.signals → s < values.length ∧ f s < moved.length ∧
      moved.getD (f s) 0 = values.getD s 0) :
    (c.rename f).isSatisfied F moved = c.isSatisfied F values := by
  cases c with
  | r1cs r => exact R1csConstraint.isSatisfied_rename hf h
  | acir p => exact AcirConstraint.isSatisfied_rename hc hf fun s hs => h s (Or.inr hs)

end Moved

end CircuitEquiv
