-- SUMMARY: Renamed constraints: what a checked renaming returns, and the normal forms of a renamed constraint.
import CircuitEquiv.Proofs.Constraint.NormalForm

/-!
# Renaming constraints

A renaming is injective and keeps the constant signal. It depends on the signals that occur only,
and it carries the normal forms of a constraint to those of the renamed constraint, one to one. The
factors of a product are put into canonical order again.
-/

namespace CircuitEquiv

/-- A renaming of signals: no two signals are sent to one, and the constant signal stays. -/
structure IsRenaming (f : Signal → Signal) : Prop where
  injective : Function.Injective f
  constant : f constantSignal = constantSignal

namespace IsRenaming

variable {f : Signal → Signal}

theorem ne_constant (hf : IsRenaming f) {s : Signal} (hs : s ≠ constantSignal) :
    f s ≠ constantSignal := fun h => hs (hf.injective (h.trans hf.constant.symm))

/-- A renaming can be undone by a function on signals. -/
theorem exists_leftInverse (hf : IsRenaming f) : ∃ g : Signal → Signal, ∀ s, g (f s) = s :=
  hf.injective.hasLeftInverse

theorem comp {g : Signal → Signal} (hg : IsRenaming g) (hf : IsRenaming f) : IsRenaming (g ∘ f) where
  injective := hg.injective.comp hf.injective
  constant := by rw [Function.comp_apply, hf.constant, hg.constant]

end IsRenaming

variable {F : PrimeField} {f g : Signal → Signal}

/-! ## Rank-one constraints -/

namespace R1csConstraint

theorem mem_signals {r : R1csConstraint} {s : Signal} :
    s ∈ r.signals ↔ (s ∈ r.a.keys ∨ s ∈ r.b.keys ∨ s ∈ r.c.keys) ∧ s ≠ constantSignal := by
  simp [signals, or_and_right]

theorem rename_congr {r : R1csConstraint} (h : ∀ s ∈ r.signals, f s = g s)
    (h0 : f constantSignal = g constantSignal) : r.rename f = r.rename g := by
  have hkeys : ∀ s, s ∈ r.a.keys ∨ s ∈ r.b.keys ∨ s ∈ r.c.keys → f s = g s := fun s hs => by
    by_cases hs0 : s = constantSignal
    · rw [hs0, h0]
    · exact h s (mem_signals.2 ⟨hs, hs0⟩)
  simp only [rename, mk.injEq]
  exact ⟨Terms.rename_congr fun s hs => hkeys s (Or.inl hs),
    Terms.rename_congr fun s hs => hkeys s (Or.inr (Or.inl hs)),
    Terms.rename_congr fun s hs => hkeys s (Or.inr (Or.inr hs))⟩

theorem mem_signals_rename (hf : IsRenaming f) {r : R1csConstraint} {s : Signal} :
    s ∈ (r.rename f).signals ↔ ∃ t ∈ r.signals, f t = s := by
  simp only [mem_signals, rename, Terms.rename_eq_mapKeys, SortedMap.mem_keys_mapKeys]
  constructor
  · rintro ⟨⟨t, ht, rfl⟩ | ⟨t, ht, rfl⟩ | ⟨t, ht, rfl⟩, hne⟩
    all_goals
      have hne' : t ≠ constantSignal := fun h0 => hne (h0 ▸ hf.constant)
      exact ⟨t, ⟨by simp [ht], hne'⟩, rfl⟩
  · rintro ⟨t, ⟨ht, hne⟩, rfl⟩
    refine ⟨?_, hf.ne_constant hne⟩
    rcases ht with ht | ht | ht
    · exact Or.inl ⟨t, ht, rfl⟩
    · exact Or.inr (Or.inl ⟨t, ht, rfl⟩)
    · exact Or.inr (Or.inr ⟨t, ht, rfl⟩)

theorem signals_of_isRescaling {r s : R1csConstraint} (h : r.IsRescaling F s) :
    s.signals = r.signals := by
  obtain ⟨ka, kb, kc, -, -, -, -, rfl | rfl⟩ := h
  · ext t
    simp [mem_signals, scaled]
  · ext t
    simp [mem_signals, scaled, exchanged, or_left_comm]

theorem rename_rename {r : R1csConstraint} (hg : ∀ s ∈ r.signals, g (f s) = s)
    (h0 : g (f constantSignal) = constantSignal) : (r.rename f).rename g = r := by
  have hkeys : ∀ s, s ∈ r.a.keys ∨ s ∈ r.b.keys ∨ s ∈ r.c.keys → g (f s) = s := fun s hs => by
    by_cases hs0 : s = constantSignal
    · rw [hs0, h0]
    · exact hg s (mem_signals.2 ⟨hs, hs0⟩)
  show (⟨_, _, _⟩ : R1csConstraint) = ⟨_, _, _⟩
  congr 1
  · exact SortedMap.mapKeys_mapKeys_cancel fun s hs => hkeys s (Or.inl hs)
  · exact SortedMap.mapKeys_mapKeys_cancel fun s hs => hkeys s (Or.inr (Or.inl hs))
  · exact SortedMap.mapKeys_mapKeys_cancel fun s hs => hkeys s (Or.inr (Or.inr hs))

theorem rename_comp (r : R1csConstraint) (hf : IsRenaming f) (hg : IsRenaming g) :
    (r.rename f).rename g = r.rename (g ∘ f) := by
  have hcomp : ∀ t : Terms, Terms.rename (Terms.rename t f) g = Terms.rename t (g ∘ f) := fun t =>
    SortedMap.mapKeys_mapKeys hf.injective.injOn hg.injective.injOn
  simp only [rename, hcomp]

theorem isLinear_rename (r : R1csConstraint) : (r.rename f).isLinear = r.isLinear := by
  simp [isLinear, rename, Terms.rename_eq_mapKeys, SortedMap.isEmpty_mapKeys]

theorem IsReduced.rename {r : R1csConstraint} (h : r.IsReduced F) (hf : IsRenaming f) :
    (r.rename f).IsReduced F :=
  ⟨h.a.mapKeys hf.injective.injOn, h.b.mapKeys hf.injective.injOn, h.c.mapKeys hf.injective.injOn⟩

/-- A renamed normal form, its factors in canonical order. -/
def renameNormal (n : R1csConstraint) (f : Signal → Signal) : R1csConstraint :=
  ofFactors (Terms.rename n.a f) (Terms.rename n.b f) (Terms.rename n.c f)

theorem renameNormal_eq_or (n : R1csConstraint) (f : Signal → Signal) :
    n.renameNormal f = n.rename f ∨ n.renameNormal f = (n.rename f).exchanged := ofFactors_eq_or _ _ _

theorem renameNormal_ofFactors (a b c : Terms) (f : Signal → Signal) :
    (ofFactors a b c).renameNormal f =
      ofFactors (Terms.rename a f) (Terms.rename b f) (Terms.rename c f) := by
  rcases ofFactors_eq_or a b c with h | h
  · rw [h]
    rfl
  · rw [h]
    exact ofFactors_comm _ _ _

section Prime

variable [hp : Fact F.modulus.Prime] {r m n : R1csConstraint}

theorem mem_outerDivisors_rename (hr : r.IsReduced F) (hf : IsRenaming f) {a b c : Nat} :
    c ∈ (r.rename f).outerDivisors F a b ↔ c ∈ r.outerDivisors F a b := by
  unfold outerDivisors
  rw [isLinear_rename]
  cases r.isLinear with
  | true => exact mem_partDivisors_rename hr.c hf.injective hf.constant
  | false => rfl

omit hp in
theorem scale_rename {t : Terms} (hf : IsRenaming f) (k : Nat) :
    Terms.scale F (Terms.rename t f) k = Terms.rename (Terms.scale F t k) f :=
  Terms.scale_mapKeys hf.injective.injOn k

/-- The normal forms of a renamed constraint are the renamed normal forms. -/
theorem mem_normalize_rename (hr : r.IsReduced F) (hf : IsRenaming f) :
    m ∈ (r.rename f).normalize F ↔ ∃ n ∈ r.normalize F, m = n.renameNormal f := by
  have hquot : ∀ a b c, ofFactors (Terms.scale F (Terms.rename r.a f) a)
      (Terms.scale F (Terms.rename r.b f) b) (Terms.scale F (Terms.rename r.c f) c) =
      (ofFactors (Terms.scale F r.a a) (Terms.scale F r.b b) (Terms.scale F r.c c)).renameNormal f := by
    intro a b c
    rw [scale_rename hf, scale_rename hf, scale_rename hf, renameNormal_ofFactors]
  rw [mem_normalize_iff (hr.rename hf)]
  constructor
  · rintro ⟨a, ha, b, hb, c, hc, rfl⟩
    have ha' := (mem_partDivisors_rename hr.a hf.injective hf.constant).1 ha
    have hb' := (mem_partDivisors_rename hr.b hf.injective hf.constant).1 hb
    have hc' := (mem_outerDivisors_rename hr hf).1 hc
    exact ⟨_, (mem_normalize_iff hr).2 ⟨a, ha', b, hb', c, hc', rfl⟩, hquot _ _ _⟩
  · rintro ⟨n, hn, rfl⟩
    obtain ⟨a, ha, b, hb, c, hc, rfl⟩ := (mem_normalize_iff hr).1 hn
    exact ⟨a, (mem_partDivisors_rename hr.a hf.injective hf.constant).2 ha,
      b, (mem_partDivisors_rename hr.b hf.injective hf.constant).2 hb,
      c, (mem_outerDivisors_rename hr hf).2 hc, (hquot _ _ _).symm⟩

/-- Normal forms have their factors in canonical order. -/
theorem ofFactors_of_mem_normalize (hr : r.IsReduced F) (hn : n ∈ r.normalize F) :
    ofFactors n.a n.b n.c = n := by
  obtain ⟨a, -, b, -, c, -, rfl⟩ := (mem_normalize_iff hr).1 hn
  generalize Terms.scale F r.a (F.inverse a) = A
  generalize Terms.scale F r.b (F.inverse b) = B
  rcases ofFactors_eq_or A B (Terms.scale F r.c (F.inverse c)) with h | h
  · rw [h]
    exact h
  · rw [h]
    exact (ofFactors_comm _ _ _).trans h

theorem renameNormal_renameNormal (hr : r.IsReduced F) (hn : n ∈ r.normalize F)
    (hg : ∀ s, g (f s) = s) : (n.renameNormal f).renameNormal g = n := by
  have hcancel : ∀ t : Terms, Terms.rename (Terms.rename t f) g = t := fun t =>
    SortedMap.mapKeys_mapKeys_cancel fun s _ => hg s
  show (ofFactors _ _ _).renameNormal g = n
  rw [renameNormal_ofFactors, hcancel, hcancel, hcancel]
  exact ofFactors_of_mem_normalize hr hn

end Prime

end R1csConstraint

/-! ## Polynomial constraints -/

namespace AcirConstraint

/-- The renamed pair of the factors of a quadratic term, ascending. -/
def renamePair (f : Signal → Signal) (k : Signal × Signal) : Signal × Signal :=
  (min (f k.1) (f k.2), max (f k.1) (f k.2))

theorem mult_rename (p : AcirConstraint) (f : Signal → Signal) :
    (p.rename f).mult = p.mult.mapKeys (renamePair f) := rfl

theorem linear_rename (p : AcirConstraint) (f : Signal → Signal) :
    (p.rename f).linear = p.linear.mapKeys f := rfl

theorem renamePair_eq_or (f : Signal → Signal) (k : Signal × Signal) :
    renamePair f k = (f k.1, f k.2) ∨ renamePair f k = (f k.2, f k.1) := by
  unfold renamePair
  rcases Nat.le_total (f k.1) (f k.2) with h | h
  · left
    rw [Nat.min_eq_left h, Nat.max_eq_right h]
  · right
    rw [Nat.min_eq_right h, Nat.max_eq_left h]

/-- A pair of signals in ascending order is restored by renaming back. -/
theorem renamePair_renamePair {k : Signal × Signal} (hk : k.1 ≤ k.2) (h1 : g (f k.1) = k.1)
    (h2 : g (f k.2) = k.2) : renamePair g (renamePair f k) = k := by
  rcases renamePair_eq_or f k with h | h
  · rw [h, renamePair, h1, h2, Nat.min_eq_left hk, Nat.max_eq_right hk]
  · rw [h, renamePair, h1, h2, Nat.min_eq_right hk, Nat.max_eq_left hk]

theorem renamePair_comp (f g : Signal → Signal) (k : Signal × Signal) :
    renamePair g (renamePair f k) = renamePair (g ∘ f) k := by
  rcases renamePair_eq_or f k with h | h
  · rw [h]
    rfl
  · rw [h, renamePair, renamePair, Nat.min_comm, Nat.max_comm]
    rfl

theorem mem_signals {p : AcirConstraint} {s : Signal} :
    s ∈ p.signals ↔ (∃ k ∈ p.mult.keys, s = k.1 ∨ s = k.2) ∨ s ∈ p.linear.keys := by
  simp [signals]

theorem rename_congr {p : AcirConstraint} (h : ∀ s ∈ p.signals, f s = g s) :
    p.rename f = p.rename g := by
  have hmult : p.mult.mapKeys (renamePair f) = p.mult.mapKeys (renamePair g) := by
    refine SortedMap.mapKeys_congr fun k hk => ?_
    rw [renamePair, renamePair, h k.1 (mem_signals.2 (Or.inl ⟨k, hk, Or.inl rfl⟩)),
      h k.2 (mem_signals.2 (Or.inl ⟨k, hk, Or.inr rfl⟩))]
  have hlinear : p.linear.mapKeys f = p.linear.mapKeys g :=
    SortedMap.mapKeys_congr fun s hs => h s (mem_signals.2 (Or.inr hs))
  show (⟨p.mult.mapKeys (renamePair f), p.linear.mapKeys f, p.constant⟩ : AcirConstraint) =
    ⟨p.mult.mapKeys (renamePair g), p.linear.mapKeys g, p.constant⟩
  rw [hmult, hlinear]

theorem mem_signals_rename {p : AcirConstraint} {s : Signal} :
    s ∈ (p.rename f).signals ↔ ∃ t ∈ p.signals, f t = s := by
  simp only [mem_signals, mult_rename, linear_rename, SortedMap.mem_keys_mapKeys]
  constructor
  · rintro (⟨k', ⟨k, hk, rfl⟩, hs⟩ | ⟨t, ht, rfl⟩)
    · rcases renamePair_eq_or f k with h | h
      all_goals
        rw [h] at hs
        rcases hs with rfl | rfl
      · exact ⟨k.1, Or.inl ⟨k, hk, Or.inl rfl⟩, rfl⟩
      · exact ⟨k.2, Or.inl ⟨k, hk, Or.inr rfl⟩, rfl⟩
      · exact ⟨k.2, Or.inl ⟨k, hk, Or.inr rfl⟩, rfl⟩
      · exact ⟨k.1, Or.inl ⟨k, hk, Or.inl rfl⟩, rfl⟩
    · exact ⟨t, Or.inr ht, rfl⟩
  · rintro ⟨t, ⟨k, hk, ht⟩ | ht, rfl⟩
    · refine Or.inl ⟨renamePair f k, ⟨k, hk, rfl⟩, ?_⟩
      rcases renamePair_eq_or f k with h | h
      all_goals
        rw [h]
        rcases ht with rfl | rfl
      · exact Or.inl rfl
      · exact Or.inr rfl
      · exact Or.inr rfl
      · exact Or.inl rfl
    · exact Or.inr ⟨t, ht, rfl⟩

theorem signals_of_isRescaling {p q : AcirConstraint} (h : p.IsRescaling F q) :
    q.signals = p.signals := by
  obtain ⟨k, -, rfl⟩ := h
  ext t
  simp [mem_signals, scaled]

variable {p m : AcirConstraint}

theorem HasProperKeys.injOn_renamePair (h : p.HasProperKeys) (hf : IsRenaming f) :
    Set.InjOn (renamePair f) {k | k ∈ p.mult.keys} := by
  obtain ⟨g, hg⟩ := hf.exists_leftInverse
  intro j hj k hk heq
  rw [← renamePair_renamePair (h.mult_keys j hj).2 (hg _) (hg _), heq,
    renamePair_renamePair (h.mult_keys k hk).2 (hg _) (hg _)]

theorem IsReduced.rename (h : p.IsReduced F) (hf : IsRenaming f) : (p.rename f).IsReduced F where
  mult := h.mult.mapKeys (h.hasProperKeys.injOn_renamePair hf)
  linear := h.linear.mapKeys hf.injective.injOn
  constant := h.constant
  mult_keys := by
    intro k' hk'
    rw [mult_rename] at hk'
    obtain ⟨k, hk, rfl⟩ := SortedMap.mem_keys_mapKeys.1 hk'
    have ⟨hpos, hle⟩ := h.mult_keys k hk
    have h1 := Nat.pos_of_ne_zero (hf.ne_constant hpos.ne')
    have h2 := Nat.pos_of_ne_zero (hf.ne_constant (hpos.trans_le hle).ne')
    exact ⟨Nat.lt_min.2 ⟨h1, h2⟩, min_le_max⟩
  linear_keys := by
    intro s hs
    rw [linear_rename] at hs
    obtain ⟨t, ht, rfl⟩ := SortedMap.mem_keys_mapKeys.1 hs
    exact Nat.pos_of_ne_zero (hf.ne_constant (h.linear_keys t ht).ne')

theorem rename_comp (h : p.IsReduced F) (hf : IsRenaming f) (hg : IsRenaming g) :
    (p.rename f).rename g = p.rename (g ∘ f) := by
  have hmult : (p.mult.mapKeys (renamePair f)).mapKeys (renamePair g) =
      p.mult.mapKeys (renamePair (g ∘ f)) :=
    (SortedMap.mapKeys_mapKeys (h.hasProperKeys.injOn_renamePair hf)
      ((h.rename hf).hasProperKeys.injOn_renamePair hg)).trans
      (SortedMap.mapKeys_congr fun k _ => renamePair_comp f g k)
  have hlinear : (p.linear.mapKeys f).mapKeys g = p.linear.mapKeys (g ∘ f) :=
    SortedMap.mapKeys_mapKeys hf.injective.injOn hg.injective.injOn
  show (⟨(p.mult.mapKeys (renamePair f)).mapKeys (renamePair g), (p.linear.mapKeys f).mapKeys g,
    p.constant⟩ : AcirConstraint) = ⟨p.mult.mapKeys (renamePair (g ∘ f)), p.linear.mapKeys (g ∘ f),
    p.constant⟩
  rw [hmult, hlinear]

variable [hp : Fact F.modulus.Prime]

omit hp in
theorem scaled_rename (h : p.IsReduced F) (hf : IsRenaming f) (k : Nat) :
    (p.rename f).scaled F k = (p.scaled F k).rename f := by
  show (⟨_, _, _⟩ : AcirConstraint) = ⟨_, _, _⟩
  rw [mult_rename, linear_rename, Terms.scale_mapKeys (h.hasProperKeys.injOn_renamePair hf),
    Terms.scale_mapKeys hf.injective.injOn]
  rfl

theorem mem_divisors_rename (h : p.IsReduced F) (hf : IsRenaming f) {d : Nat} :
    d ∈ (p.rename f).divisors F ↔ d ∈ p.divisors F := by
  have hnonlinear : (p.rename f).isNonlinear = p.isNonlinear := by
    rw [isNonlinear, mult_rename, SortedMap.isEmpty_mapKeys, isNonlinear]
  by_cases hzero : p.constant = 0
  · have hzero' : (p.rename f).constant = 0 := hzero
    cases hmult : p.isNonlinear with
    | true =>
      rw [divisors_of_isNonlinear hzero' (hnonlinear.trans hmult),
        divisors_of_isNonlinear hzero hmult]
      exact PrimeField.mem_divisorCandidates_perm h.mult
        (SortedMap.values_mapKeys_perm (h.hasProperKeys.injOn_renamePair hf)).symm
    | false =>
      rw [divisors_of_not_isNonlinear hzero' (hnonlinear.trans hmult),
        divisors_of_not_isNonlinear hzero hmult]
      exact PrimeField.mem_divisorCandidates_perm h.linear
        (SortedMap.values_mapKeys_perm hf.injective.injOn).symm
  · have hzero' : (p.rename f).constant ≠ 0 := hzero
    rw [divisors_of_constant_ne_zero hzero, divisors_of_constant_ne_zero hzero']
    rfl

/-- The normal forms of a renamed constraint are the renamed normal forms. -/
theorem mem_normalize_rename (h : p.IsReduced F) (hf : IsRenaming f) :
    m ∈ (p.rename f).normalize F ↔ ∃ n ∈ p.normalize F, m = n.rename f := by
  rw [mem_normalize_iff (h.rename hf).coefficients]
  simp only [mem_divisors_rename h hf, scaled_rename h hf]
  constructor
  · rintro ⟨d, hd, rfl⟩
    exact ⟨_, (mem_normalize_iff h.coefficients).2 ⟨d, hd, rfl⟩, rfl⟩
  · rintro ⟨n, hn, rfl⟩
    obtain ⟨d, hd, rfl⟩ := (mem_normalize_iff h.coefficients).1 hn
    exact ⟨d, hd, rfl⟩

omit hp in
theorem rename_rename (h : p.HasProperKeys) (hg : ∀ s ∈ p.signals, g (f s) = s) :
    (p.rename f).rename g = p := by
  show (⟨_, _, _⟩ : AcirConstraint) = ⟨_, _, _⟩
  congr 1
  · exact SortedMap.mapKeys_mapKeys_cancel fun k hk => renamePair_renamePair (h.mult_keys k hk).2
      (hg _ (mem_signals.2 (Or.inl ⟨k, hk, Or.inl rfl⟩)))
      (hg _ (mem_signals.2 (Or.inl ⟨k, hk, Or.inr rfl⟩)))
  · exact SortedMap.mapKeys_mapKeys_cancel fun s hs => hg s (mem_signals.2 (Or.inr hs))

end AcirConstraint

/-! ## Constraints of either dialect -/

namespace Constraint

theorem rename_congr {c : Constraint} (h : ∀ s ∈ c.signals, f s = g s)
    (h0 : f constantSignal = g constantSignal) : c.rename f = c.rename g := by
  cases c with
  | r1cs r => exact congrArg r1cs (R1csConstraint.rename_congr h h0)
  | acir p => exact congrArg acir (AcirConstraint.rename_congr h)

theorem mem_signals_rename (hf : IsRenaming f) {c : Constraint} {s : Signal} :
    s ∈ (c.rename f).signals ↔ ∃ t ∈ c.signals, f t = s := by
  cases c with
  | r1cs r => exact R1csConstraint.mem_signals_rename hf
  | acir p => exact AcirConstraint.mem_signals_rename

theorem dialect_rename (c : Constraint) (f : Signal → Signal) : (c.rename f).dialect = c.dialect := by
  cases c <;> rfl

theorem signals_of_isRescaling {c d : Constraint} (h : c.IsRescaling F d) :
    d.signals = c.signals := by
  cases c with
  | r1cs r =>
    cases d with
    | r1cs s => exact R1csConstraint.signals_of_isRescaling h
    | acir q => exact h.elim
  | acir p =>
    cases d with
    | r1cs s => exact h.elim
    | acir q => exact AcirConstraint.signals_of_isRescaling h

theorem dialect_of_mem_normalize {c n : Constraint} (h : n ∈ c.normalize F) :
    n.dialect = c.dialect := by
  cases c with
  | r1cs r =>
    obtain ⟨m, -, rfl⟩ := List.mem_map.1 h
    rfl
  | acir p =>
    obtain ⟨m, -, rfl⟩ := List.mem_map.1 h
    rfl

theorem IsReduced.rename {c : Constraint} (h : c.IsReduced F) (hf : IsRenaming f) :
    (c.rename f).IsReduced F := by
  cases c with
  | r1cs r => exact R1csConstraint.IsReduced.rename h hf
  | acir p => exact AcirConstraint.IsReduced.rename h hf

theorem HasProperKeys.ne_constant_of_mem_signals {c : Constraint} (h : c.HasProperKeys) {s : Signal}
    (hs : s ∈ c.signals) : s ≠ constantSignal := by
  cases c with
  | r1cs r => exact (R1csConstraint.mem_signals.1 hs).2
  | acir p =>
    rcases AcirConstraint.mem_signals.1 hs with ⟨k, hk, hs | hs⟩ | hs
    · exact hs ▸ (h.mult_keys k hk).1.ne'
    · exact hs ▸ ((h.mult_keys k hk).1.trans_le (h.mult_keys k hk).2).ne'
    · exact (h.linear_keys s hs).ne'

theorem IsReduced.ne_constant_of_mem_signals {c : Constraint} (h : c.IsReduced F) {s : Signal}
    (hs : s ∈ c.signals) : s ≠ constantSignal :=
  h.hasProperKeys.ne_constant_of_mem_signals hs

/-- Renaming back restores a constraint. -/
theorem rename_rename {c : Constraint} (h : c.HasProperKeys) (hg : ∀ s ∈ c.signals, g (f s) = s)
    (h0 : g (f constantSignal) = constantSignal) : (c.rename f).rename g = c := by
  cases c with
  | r1cs r => exact congrArg r1cs (R1csConstraint.rename_rename hg h0)
  | acir p => exact congrArg acir (AcirConstraint.rename_rename h hg)

/-- Renaming twice is renaming once. -/
theorem rename_comp {c : Constraint} (h : c.IsReduced F) (hf : IsRenaming f) (hg : IsRenaming g) :
    (c.rename f).rename g = c.rename (g ∘ f) := by
  cases c with
  | r1cs r => exact congrArg r1cs (R1csConstraint.rename_comp r hf hg)
  | acir p => exact congrArg acir (AcirConstraint.rename_comp h hf hg)

/-- A renamed normal form; the factors of a product are put into canonical order. -/
def renameNormal (n : Constraint) (f : Signal → Signal) : Constraint :=
  match n with
  | .r1cs r => .r1cs (r.renameNormal f)
  | .acir p => .acir (p.rename f)

variable [hp : Fact F.modulus.Prime] {c m n : Constraint}

theorem IsReduced.rescaling {d : Constraint} (hc : c.IsReduced F) (h : c.IsRescaling F d) :
    d.IsReduced F := by
  cases c with
  | r1cs r =>
    cases d with
    | r1cs s => exact R1csConstraint.IsReduced.rescaling hc h
    | acir q => exact h.elim
  | acir p =>
    cases d with
    | r1cs s => exact h.elim
    | acir q => exact AcirConstraint.IsReduced.rescaling hc h

theorem mem_normalize_rename (hc : c.IsReduced F) (hf : IsRenaming f) :
    m ∈ (c.rename f).normalize F ↔ ∃ n ∈ c.normalize F, m = n.renameNormal f := by
  cases c with
  | r1cs r =>
    simp only [rename, normalize, List.mem_map, R1csConstraint.mem_normalize_rename hc hf]
    constructor
    · rintro ⟨-, ⟨n, hn, rfl⟩, rfl⟩
      exact ⟨.r1cs n, ⟨n, hn, rfl⟩, rfl⟩
    · rintro ⟨-, ⟨n, hn, rfl⟩, rfl⟩
      exact ⟨n.renameNormal f, ⟨n, hn, rfl⟩, rfl⟩
  | acir p =>
    simp only [rename, normalize, List.mem_map, AcirConstraint.mem_normalize_rename hc hf]
    constructor
    · rintro ⟨-, ⟨n, hn, rfl⟩, rfl⟩
      exact ⟨.acir n, ⟨n, hn, rfl⟩, rfl⟩
    · rintro ⟨-, ⟨n, hn, rfl⟩, rfl⟩
      exact ⟨n.rename f, ⟨n, hn, rfl⟩, rfl⟩

theorem renameNormal_renameNormal (hc : c.IsReduced F) (hn : n ∈ c.normalize F)
    (hg : ∀ s, g (f s) = s) : (n.renameNormal f).renameNormal g = n := by
  have hred := hc.rescaling (isRescaling_of_mem_normalize hc.coefficients hn)
  cases c with
  | r1cs r =>
    obtain ⟨m, hm, rfl⟩ := List.mem_map.1 hn
    exact congrArg r1cs (R1csConstraint.renameNormal_renameNormal hc hm hg)
  | acir p =>
    obtain ⟨m, hm, rfl⟩ := List.mem_map.1 hn
    exact congrArg acir (AcirConstraint.rename_rename
      (AcirConstraint.IsReduced.hasProperKeys hred) fun s _ => hg s)

/-- Normal forms correspond one to one under a renaming. -/
theorem normalize_rename_perm (hc : c.IsReduced F) (hf : IsRenaming f) :
    ((c.rename f).normalize F).Perm ((c.normalize F).map (·.renameNormal f)) := by
  obtain ⟨g, hg⟩ := hf.exists_leftInverse
  have hnodup : ((c.normalize F).map (·.renameNormal f)).Nodup := by
    refine List.Nodup.map_on (fun m hm n hn heq => ?_) (nodup_normalize c)
    rw [← renameNormal_renameNormal hc hm hg, heq, renameNormal_renameNormal hc hn hg]
  refine (List.perm_ext_iff_of_nodup (nodup_normalize _) hnodup).2 fun m => ?_
  rw [mem_normalize_rename hc hf, List.mem_map]
  simp only [eq_comm]

/-- The normal forms of a multiple of a renamed constraint are the renamed normal forms. -/
theorem normalize_perm_of_isScalarMultipleOf {d : Constraint} (hc : c.IsReduced F)
    (hd : d.IsReduced F) (hf : IsRenaming f) (h : (c.rename f).isScalarMultipleOf F d = true) :
    (d.normalize F).Perm ((c.normalize F).map (·.renameNormal f)) := by
  rw [← (isScalarMultipleOf_iff_normalize_eq (hc.rename hf).coefficients hd.coefficients).1 h]
  exact normalize_rename_perm hc hf

/-! ## Checked renaming -/

omit hp in
theorem renamingFault?_eq_none_iff {l : List Signal} {seen : List (Signal × Signal)} :
    renamingFault? f seen l = none ↔
      (∀ s ∈ l, f s ≠ constantSignal ∧ ∀ e ∈ seen, e.2 ≠ f s) ∧ (l.map f).Nodup := by
  induction l generalizing seen with
  | nil => simp [renamingFault?]
  | cons s rest ih =>
    rw [renamingFault?]
    by_cases h0 : f s = constantSignal
    · simp [h0]
    rw [if_neg h0]
    cases hseen : seen.find? (·.2 = f s) with
    | some e =>
      obtain ⟨t, image⟩ := e
      have himage := List.find?_some hseen
      simp only [reduceCtorEq, false_iff]
      rintro ⟨hall, -⟩
      exact (hall s List.mem_cons_self).2 _ (List.mem_of_find?_eq_some hseen)
        (of_decide_eq_true himage)
    | none =>
      have hnew : ∀ e ∈ seen, e.2 ≠ f s := fun e he heq =>
        List.find?_eq_none.1 hseen e he (decide_eq_true heq)
      simp only [ih, List.mem_cons, forall_eq_or_imp, List.map_cons, List.nodup_cons, List.mem_map]
      constructor
      · rintro ⟨hall, hnodup⟩
        refine ⟨⟨⟨h0, hnew⟩, fun t ht => ⟨(hall t ht).1, (hall t ht).2.2⟩⟩, ?_, hnodup⟩
        rintro ⟨t, ht, heq⟩
        exact (hall t ht).2.1 heq.symm
      · rintro ⟨⟨-, hall⟩, hs, hnodup⟩
        exact ⟨fun t ht => ⟨(hall t ht).1, fun heq => hs ⟨t, ht, heq.symm⟩, (hall t ht).2⟩, hnodup⟩

omit hp in
/-- A checked renaming succeeds where the signals that occur are kept apart and off the constant
signal. -/
theorem signalMap_eq_ok_iff {d : Constraint} :
    c.signalMap f = .ok d ↔
      (∀ s ∈ c.signals, f s ≠ constantSignal) ∧ Set.InjOn f {s | s ∈ c.signals} ∧
        d = c.rename fun s => if s = constantSignal then constantSignal else f s := by
  have hfault : renamingFault? f [] c.signals.toList = none ↔
      (∀ s ∈ c.signals, f s ≠ constantSignal) ∧ Set.InjOn f {s | s ∈ c.signals} := by
    rw [renamingFault?_eq_none_iff, List.nodup_map_iff_inj_on (SortedSet.nodup_toList _)]
    simp [SortedSet.mem_def, Set.InjOn]
  unfold signalMap
  rw [← and_assoc, ← hfault]
  cases renamingFault? f [] c.signals.toList with
  | none => simp [eq_comm]
  | some fault => simp

omit hp in
/-- A renaming passes the check, and the check returns the renamed constraint. -/
theorem signalMap_of_agree {h : Signal → Signal} (hf : IsRenaming f)
    (hc : ∀ s ∈ c.signals, s ≠ constantSignal) (hagree : ∀ s ∈ c.signals, h s = f s) :
    c.signalMap h = .ok (c.rename f) := by
  rw [signalMap_eq_ok_iff]
  refine ⟨fun s hs => ?_, fun s hs t ht heq => ?_, ?_⟩
  · rw [hagree s hs]
    exact hf.ne_constant (hc s hs)
  · rw [hagree s hs, hagree t ht] at heq
    exact hf.injective heq
  · refine rename_congr (fun s hs => ?_) ?_
    · rw [if_neg (hc s hs), hagree s hs]
    · rw [if_pos rfl, hf.constant]

/-- Only the values on the signals that occur matter. -/
theorem signalMap_congr {h : Signal → Signal} {d : Constraint} (hagree : ∀ s ∈ c.signals, h s = f s)
    (hd : c.signalMap f = .ok d) : c.signalMap h = .ok d := by
  obtain ⟨hne, hinj, rfl⟩ := signalMap_eq_ok_iff.1 hd
  refine signalMap_eq_ok_iff.2 ⟨fun s hs => ?_, hinj.congr fun s hs => (hagree s hs).symm, ?_⟩
  · rw [hagree s hs]
    exact hne s hs
  · refine rename_congr (fun s hs => ?_) rfl
    simp only [hagree s hs]

end Constraint

end CircuitEquiv
