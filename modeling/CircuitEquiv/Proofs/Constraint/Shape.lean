-- SUMMARY: Renaming a normal form changes neither its shape nor the part of a signal, if labels move along.
import CircuitEquiv.Proofs.Constraint.Renaming

/-!
# Shapes of renamed normal forms

A shape sees signals through labels only. Where each signal carries the label of its image, a normal
form and the renamed normal form have the same shape, and a signal plays the part that its image
plays. The order of the factors of a product is seen only where their coefficients differ, and there
renaming keeps it.
-/

namespace CircuitEquiv

variable {F : PrimeField} {f : Signal → Signal} {labels labels' : Signal → ClassLabel}

/-! ## Terms -/

namespace Terms

theorem labelled_rename {t : Terms} (hf : IsRenaming f)
    (hlabels : ∀ s ∈ t.keys, labels' (f s) = labels s) :
    labelled (rename t f) labels' = labelled t labels := by
  apply ascending_eq_of_perm
  refine ((SortedMap.entries_mapKeys_perm hf.injective.injOn).map _).trans (List.Perm.of_eq ?_)
  rw [List.map_map]
  exact List.map_congr_left fun e he => by simp [hlabels e.1 (List.mem_map_of_mem he)]

theorem coefficient_rename {t : Terms} (hf : IsRenaming f) (s : Signal) :
    coefficient (rename t f) (f s) = coefficient t s := by
  rw [coefficient, coefficient, SortedMap.getD, SortedMap.getD, rename_eq_mapKeys,
    SortedMap.get?_mapKeys_of_injective hf.injective]

theorem sortedValues_rename {t : Terms} (hf : IsRenaming f) :
    sortedValues (rename t f) = sortedValues t :=
  sortedValues_eq_of_perm (SortedMap.values_mapKeys_perm hf.injective.injOn)

end Terms

/-! ## Rank-one constraints -/

namespace R1csConstraint

theorem isUnordered_iff {r : R1csConstraint} :
    r.isUnordered = true ↔ r.a.isEmpty = false ∧ Terms.sortedValues r.a = Terms.sortedValues r.b := by
  simp [isUnordered]

theorem isEmpty_eq_of_sortedValues_eq {t u : Terms}
    (h : Terms.sortedValues t = Terms.sortedValues u) : t.isEmpty = u.isEmpty := by
  have hlength := (perm_of_ascending_eq h).length_eq
  simp only [SortedMap.values, List.length_map] at hlength
  rw [SortedMap.isEmpty, SortedMap.isEmpty, Bool.eq_iff_iff, List.isEmpty_iff_length_eq_zero,
    List.isEmpty_iff_length_eq_zero, hlength]

theorem isUnordered_exchanged (r : R1csConstraint) : r.exchanged.isUnordered = r.isUnordered := by
  rw [Bool.eq_iff_iff, isUnordered_iff, isUnordered_iff]
  constructor
  · rintro ⟨hempty, hvalues⟩
    exact ⟨(isEmpty_eq_of_sortedValues_eq hvalues).symm.trans hempty, hvalues.symm⟩
  · rintro ⟨hempty, hvalues⟩
    exact ⟨(isEmpty_eq_of_sortedValues_eq hvalues).symm.trans hempty, hvalues.symm⟩

theorem isUnordered_rename (hf : IsRenaming f) (r : R1csConstraint) :
    (r.rename f).isUnordered = r.isUnordered := by
  rw [Bool.eq_iff_iff, isUnordered_iff, isUnordered_iff]
  simp only [rename, Terms.sortedValues_rename hf]
  rw [Terms.rename_eq_mapKeys, SortedMap.isEmpty_mapKeys]

/-- Factors with different coefficients are in the order of their coefficients. -/
theorem compare_sortedValues_of_ordered {n : R1csConstraint} (hn : ofFactors n.a n.b n.c = n)
    (hne : Terms.sortedValues n.a ≠ Terms.sortedValues n.b) :
    compare (Terms.sortedValues n.a) (Terms.sortedValues n.b) = .lt := by
  cases hcompare : compare (Terms.sortedValues n.a) (Terms.sortedValues n.b) with
  | lt => rfl
  | eq => exact absurd (Std.LawfulEqCmp.eq_of_compare hcompare) hne
  | gt =>
    have hswap : orderFactors n.a n.b = (n.b, n.a) := by
      rw [orderFactors, hcompare]
      rfl
    have ha : n.b = n.a := by
      have := congrArg R1csConstraint.a hn
      rwa [ofFactors, hswap] at this
    exact absurd (congrArg Terms.sortedValues ha).symm hne

/-- Where the coefficients tell the factors apart, renaming keeps the canonical order. -/
theorem renameNormal_of_not_isUnordered (hf : IsRenaming f) {n : R1csConstraint}
    (hn : ofFactors n.a n.b n.c = n) (hu : n.isUnordered = false) :
    n.renameNormal f = n.rename f := by
  by_cases hvalues : Terms.sortedValues n.a = Terms.sortedValues n.b
  · -- both factors are empty, so that exchanging them changes nothing
    have hempty : n.a.isEmpty = true := by
      by_contra h
      rw [isUnordered_iff.2 ⟨Bool.eq_false_iff.2 h, hvalues⟩] at hu
      cases hu
    have hempty' : n.b.isEmpty = true := (isEmpty_eq_of_sortedValues_eq hvalues) ▸ hempty
    have hab : n.a = n.b := by
      apply SortedMap.ext_entries_perm
      rw [List.isEmpty_iff.1 hempty, List.isEmpty_iff.1 hempty']
    rcases renameNormal_eq_or n f with h | h
    · exact h
    · rw [h, exchanged, rename, hab]
  · have hlt := compare_sortedValues_of_ordered hn hvalues
    rw [renameNormal, ofFactors, orderFactors, Terms.sortedValues_rename hf,
      Terms.sortedValues_rename hf, hlt]
    rfl

/-! ### Shapes of unordered products -/

/-- The signals in both factors, with their ascending coefficient pairs. -/
def sharedTerms (t u : Terms) : List (Signal × (Nat × Nat)) :=
  t.entries.filterMap fun e => (u.get? e.1).map fun y => (e.1, ascendingPair e.2 y)

/-- The terms of signals that occur in the first factor only. -/
def termsOnlyIn (t u : Terms) : List (Signal × Nat) :=
  t.entries.filter fun e => !u.contains e.1

theorem shape_of_isUnordered {r : R1csConstraint} (h : r.isUnordered = true)
    (labels : Signal → ClassLabel) :
    r.shape labels = .unordered
      (ascending ((sharedTerms r.a r.b).map fun e => (labels e.1, e.2)))
      (ascending ((termsOnlyIn r.a r.b ++ termsOnlyIn r.b r.a).map fun e => (labels e.1, e.2)))
      (Terms.labelled r.c labels) := by
  have hshared : r.a.entries.filterMap (fun e =>
      (r.b.get? e.1).map fun y => (labels e.1, ascendingPair e.2 y)) =
      (sharedTerms r.a r.b).map fun e => (labels e.1, e.2) := by
    rw [sharedTerms, List.map_filterMap]
    exact List.filterMap_congr fun e _ => by cases r.b.get? e.1 <;> rfl
  rw [shape, if_pos h, List.map_append, ← hshared]
  rfl

theorem shape_of_not_isUnordered {r : R1csConstraint} (h : r.isUnordered = false)
    (labels : Signal → ClassLabel) :
    r.shape labels = .ordered (Terms.labelled r.a labels) (Terms.labelled r.b labels)
      (Terms.labelled r.c labels) := by
  rw [shape, if_neg (Bool.eq_false_iff.1 h)]

theorem mem_sharedTerms {t u : Terms} {s : Signal} {pair : Nat × Nat} :
    (s, pair) ∈ sharedTerms t u ↔
      ∃ x y, t.get? s = some x ∧ u.get? s = some y ∧ pair = ascendingPair x y := by
  rw [sharedTerms, List.mem_filterMap]
  constructor
  · rintro ⟨⟨s', x⟩, hx, hpair⟩
    obtain ⟨y, hy, heq⟩ := Option.map_eq_some_iff.1 hpair
    obtain ⟨rfl, rfl⟩ := Prod.mk.inj heq
    exact ⟨x, y, SortedMap.get?_eq_some_iff.2 hx, hy, rfl⟩
  · rintro ⟨x, y, hx, hy, rfl⟩
    exact ⟨(s, x), SortedMap.get?_eq_some_iff.1 hx, by rw [hy]; rfl⟩

theorem nodup_sharedTerms (t u : Terms) : (sharedTerms t u).Nodup := by
  have hkeys : ((sharedTerms t u).map (·.1)).Sublist t.keys := by
    rw [sharedTerms, SortedMap.keys]
    induction t.entries with
    | nil => exact List.Sublist.refl _
    | cons e rest ih =>
      cases h : u.get? e.1 with
      | none => simpa [h] using ih.cons e.1
      | some y => simpa [h] using ih.cons_cons e.1
  exact List.Nodup.of_map _ (t.nodup_keys.sublist hkeys)

theorem sharedTerms_comm (t u : Terms) : (sharedTerms t u).Perm (sharedTerms u t) := by
  refine (List.perm_ext_iff_of_nodup (nodup_sharedTerms t u) (nodup_sharedTerms u t)).2 ?_
  rintro ⟨s, pair⟩
  rw [mem_sharedTerms, mem_sharedTerms]
  constructor
  all_goals
    rintro ⟨x, y, hx, hy, rfl⟩
    exact ⟨y, x, hy, hx, ascendingPair_comm x y⟩

/-- The shape does not tell the factors of an unordered product apart. -/
theorem shape_exchanged {r : R1csConstraint} (h : r.isUnordered = true)
    (labels : Signal → ClassLabel) : r.exchanged.shape labels = r.shape labels := by
  rw [shape_of_isUnordered h, shape_of_isUnordered ((isUnordered_exchanged r).trans h)]
  simp only [exchanged]
  rw [ascending_eq_of_perm ((sharedTerms_comm r.b r.a).map _),
    ascending_eq_of_perm (List.perm_append_comm.map _)]

theorem sharedTerms_rename (hf : IsRenaming f) (t u : Terms) :
    (sharedTerms (Terms.rename t f) (Terms.rename u f)).Perm
      ((sharedTerms t u).map fun e => (f e.1, e.2)) := by
  refine ((SortedMap.entries_mapKeys_perm hf.injective.injOn).filterMap _).trans
    (List.Perm.of_eq ?_)
  rw [List.filterMap_map, sharedTerms, List.map_filterMap]
  refine List.filterMap_congr fun e _ => ?_
  simp only [Function.comp, Terms.rename_eq_mapKeys,
    SortedMap.get?_mapKeys_of_injective hf.injective]
  cases u.get? e.1 <;> rfl

theorem termsOnlyIn_rename (hf : IsRenaming f) (t u : Terms) :
    (termsOnlyIn (Terms.rename t f) (Terms.rename u f)).Perm
      ((termsOnlyIn t u).map fun e => (f e.1, e.2)) := by
  refine ((SortedMap.entries_mapKeys_perm hf.injective.injOn).filter _).trans
    (List.Perm.of_eq ?_)
  rw [List.filter_map, termsOnlyIn]
  congr 1
  refine List.filter_congr fun e _ => ?_
  simp only [Function.comp, Terms.rename_eq_mapKeys, SortedMap.contains,
    SortedMap.get?_mapKeys_of_injective hf.injective]

/-- Labels of all signals of a constraint, the constant signal included, move along a renaming. -/
def LabelsAgree (r : R1csConstraint) (f : Signal → Signal) (labels labels' : Signal → ClassLabel) :
    Prop := ∀ s, s ∈ r.a.keys ∨ s ∈ r.b.keys ∨ s ∈ r.c.keys → labels' (f s) = labels s

theorem mem_keys_of_mem_sharedTerms {t u : Terms} {e : Signal × (Nat × Nat)}
    (h : e ∈ sharedTerms t u) : e.1 ∈ t.keys := by
  obtain ⟨s, pair⟩ := e
  obtain ⟨x, -, hx, -, -⟩ := mem_sharedTerms.1 h
  exact SortedMap.mem_keys_iff.2 ⟨x, hx⟩

theorem mem_keys_of_mem_termsOnlyIn {t u : Terms} {e : Signal × Nat} (h : e ∈ termsOnlyIn t u) :
    e.1 ∈ t.keys := List.mem_map_of_mem (List.mem_of_mem_filter h)

theorem map_labels_perm {α : Type} {l : List (Signal × α)} {l' : List (Signal × α)}
    (hl : l'.Perm (l.map fun e => (f e.1, e.2))) (h : ∀ e ∈ l, labels' (f e.1) = labels e.1) :
    (l'.map fun e => (labels' e.1, e.2)).Perm (l.map fun e => (labels e.1, e.2)) := by
  refine (hl.map _).trans (List.Perm.of_eq ?_)
  rw [List.map_map]
  exact List.map_congr_left fun e he => by simp [h e he]

theorem shape_rename (hf : IsRenaming f) {r : R1csConstraint}
    (hlabels : r.LabelsAgree f labels labels') : (r.rename f).shape labels' = r.shape labels := by
  have hc := Terms.labelled_rename hf fun s hs => hlabels s (Or.inr (Or.inr hs))
  cases hu : r.isUnordered with
  | false =>
    rw [shape_of_not_isUnordered hu, shape_of_not_isUnordered ((isUnordered_rename hf r).trans hu)]
    simp only [rename, hc, Terms.labelled_rename hf fun s hs => hlabels s (Or.inl hs),
      Terms.labelled_rename hf fun s hs => hlabels s (Or.inr (Or.inl hs))]
  | true =>
    rw [shape_of_isUnordered hu, shape_of_isUnordered ((isUnordered_rename hf r).trans hu)]
    have hshared := map_labels_perm (sharedTerms_rename hf r.a r.b) fun e he =>
      hlabels e.1 (Or.inl (mem_keys_of_mem_sharedTerms he))
    have hsingle : (termsOnlyIn (r.rename f).a (r.rename f).b ++
        termsOnlyIn (r.rename f).b (r.rename f).a).Perm
        ((termsOnlyIn r.a r.b ++ termsOnlyIn r.b r.a).map fun e => (f e.1, e.2)) := by
      rw [List.map_append]
      exact (termsOnlyIn_rename hf r.a r.b).append (termsOnlyIn_rename hf r.b r.a)
    have hsingle' := @map_labels_perm f labels labels' _ _ _ hsingle fun e he => by
      rcases List.mem_append.1 he with he | he
      · exact hlabels e.1 (Or.inl (mem_keys_of_mem_termsOnlyIn he))
      · exact hlabels e.1 (Or.inr (Or.inl (mem_keys_of_mem_termsOnlyIn he)))
    rw [ascending_eq_of_perm hsingle']
    simp only [rename, hc, ascending_eq_of_perm hshared]

theorem shape_renameNormal (hf : IsRenaming f) {n : R1csConstraint}
    (hn : ofFactors n.a n.b n.c = n) (hlabels : n.LabelsAgree f labels labels') :
    (n.renameNormal f).shape labels' = n.shape labels := by
  cases hu : n.isUnordered with
  | false => rw [renameNormal_of_not_isUnordered hf hn hu, shape_rename hf hlabels]
  | true =>
    rcases renameNormal_eq_or n f with h | h
    · rw [h, shape_rename hf hlabels]
    · rw [h, shape_exchanged ((isUnordered_rename hf n).trans hu), shape_rename hf hlabels]

/-! ### Characteristics -/

theorem characteristic_of_not_isUnordered {r : R1csConstraint} (h : r.isUnordered = false)
    (s : Signal) :
    r.characteristic s = .product (Terms.coefficient r.a s, 0) (Terms.coefficient r.b s)
      (Terms.coefficient r.c s) := by
  simp [characteristic, h]

theorem characteristic_of_isUnordered {r : R1csConstraint} (h : r.isUnordered = true) (s : Signal) :
    r.characteristic s =
      if Terms.coefficient r.a s ≠ 0 ∧ Terms.coefficient r.b s ≠ 0 then
        .product (ascendingPair (Terms.coefficient r.a s) (Terms.coefficient r.b s)) 0
          (Terms.coefficient r.c s)
      else .product (0, 0) (Terms.coefficient r.a s + Terms.coefficient r.b s)
        (Terms.coefficient r.c s) := by
  simp [characteristic, h]

theorem characteristic_exchanged {r : R1csConstraint} (h : r.isUnordered = true) (s : Signal) :
    r.exchanged.characteristic s = r.characteristic s := by
  rw [characteristic_of_isUnordered h,
    characteristic_of_isUnordered ((isUnordered_exchanged r).trans h)]
  simp only [exchanged, and_comm (a := Terms.coefficient r.b s ≠ 0),
    ascendingPair_comm (Terms.coefficient r.b s), Nat.add_comm (Terms.coefficient r.b s)]

theorem characteristic_rename (hf : IsRenaming f) (r : R1csConstraint) (s : Signal) :
    (r.rename f).characteristic (f s) = r.characteristic s := by
  cases hu : r.isUnordered with
  | false =>
    rw [characteristic_of_not_isUnordered hu,
      characteristic_of_not_isUnordered ((isUnordered_rename hf r).trans hu)]
    simp only [rename, Terms.coefficient_rename hf]
  | true =>
    rw [characteristic_of_isUnordered hu,
      characteristic_of_isUnordered ((isUnordered_rename hf r).trans hu)]
    simp only [rename, Terms.coefficient_rename hf]

theorem characteristic_renameNormal (hf : IsRenaming f) {n : R1csConstraint}
    (hn : ofFactors n.a n.b n.c = n) (s : Signal) :
    (n.renameNormal f).characteristic (f s) = n.characteristic s := by
  cases hu : n.isUnordered with
  | false => rw [renameNormal_of_not_isUnordered hf hn hu, characteristic_rename hf]
  | true =>
    rcases renameNormal_eq_or n f with h | h
    · rw [h, characteristic_rename hf]
    · rw [h, characteristic_exchanged ((isUnordered_rename hf n).trans hu), characteristic_rename hf]

end R1csConstraint

/-! ## Polynomial constraints -/

namespace AcirConstraint

theorem entries_mult_rename_perm {p : AcirConstraint} (h : p.IsReduced F) (hf : IsRenaming f) :
    (p.rename f).mult.entries.Perm (p.mult.entries.map fun e => (renamePair f e.1, e.2)) :=
  SortedMap.entries_mapKeys_perm (h.hasProperKeys.injOn_renamePair hf)

theorem ascendingPair_renamePair {g : Signal → ClassLabel} {k : Signal × Signal} :
    ascendingPair (g (renamePair f k).1) (g (renamePair f k).2) =
      ascendingPair (g (f k.1)) (g (f k.2)) := by
  rcases renamePair_eq_or f k with h | h
  · rw [h]
  · rw [h, ascendingPair_comm]

theorem shape_rename {p : AcirConstraint} (h : p.IsReduced F) (hf : IsRenaming f)
    (hlabels : ∀ s ∈ p.signals, labels' (f s) = labels s) :
    (p.rename f).shape labels' = p.shape labels := by
  have hmult : ((p.rename f).mult.entries.map fun e =>
      (ascendingPair (labels' e.1.1) (labels' e.1.2), e.2)).Perm
      (p.mult.entries.map fun e => (ascendingPair (labels e.1.1) (labels e.1.2), e.2)) := by
    refine ((entries_mult_rename_perm h hf).map _).trans (List.Perm.of_eq ?_)
    rw [List.map_map]
    refine List.map_congr_left fun e he => ?_
    have hkey : e.1 ∈ p.mult.keys := List.mem_map_of_mem he
    simp only [Function.comp, ascendingPair_renamePair,
      hlabels e.1.1 (mem_signals.2 (Or.inl ⟨e.1, hkey, Or.inl rfl⟩)),
      hlabels e.1.2 (mem_signals.2 (Or.inl ⟨e.1, hkey, Or.inr rfl⟩))]
  have hlinear : ((p.rename f).linear.entries.map fun e => (labels' e.1, e.2)).Perm
      (p.linear.entries.map fun e => (labels e.1, e.2)) := by
    refine ((SortedMap.entries_mapKeys_perm hf.injective.injOn).map _).trans (List.Perm.of_eq ?_)
    rw [List.map_map]
    refine List.map_congr_left fun e he => ?_
    simp [hlabels e.1 (mem_signals.2 (Or.inr (List.mem_map_of_mem he)))]
  show NormShape.polynomial _ _ _ = NormShape.polynomial _ _ _
  rw [SortedMap.ascending_groupValues_eq_of_perm hmult,
    SortedMap.ascending_groupValues_eq_of_perm hlinear]
  rfl

/-- A signal and its partner are renamed together. -/
theorem partner?_renamePair (hf : IsRenaming f) (s : Signal) (k : Signal × Signal) :
    partner? (f s) (renamePair f k) = (partner? s k).map f := by
  have hinj : ∀ t, f t = f s ↔ t = s := fun t => hf.injective.eq_iff
  rcases renamePair_eq_or f k with h | h
  all_goals
    rw [h, partner?, partner?]
    simp only [hinj]
  · split
    · rfl
    · split <;> rfl
  · by_cases h1 : k.1 = s
    · by_cases h2 : k.2 = s
      · simp [h1, h2]
      · simp [h1, h2]
    · by_cases h2 : k.2 = s
      · simp [h1, h2]
      · simp [h1, h2]

theorem mem_signals_of_partner? {p : AcirConstraint} {s t : Signal} {k : Signal × Signal}
    (hk : k ∈ p.mult.keys) (ht : partner? s k = some t) : t ∈ p.signals := by
  unfold partner? at ht
  split at ht
  · exact mem_signals.2 (Or.inl ⟨k, hk, Or.inr (Option.some.inj ht).symm⟩)
  · split at ht
    · exact mem_signals.2 (Or.inl ⟨k, hk, Or.inl (Option.some.inj ht).symm⟩)
    · cases ht

theorem characteristic_rename {p : AcirConstraint} (h : p.IsReduced F) (hf : IsRenaming f)
    (hlabels : ∀ s ∈ p.signals, labels' (f s) = labels s) (s : Signal) :
    (p.rename f).characteristic (f s) labels' = p.characteristic s labels := by
  have hmult : ((p.rename f).mult.entries.filterMap fun e =>
      (partner? (f s) e.1).map fun t => (labels' t, e.2)).Perm
      (p.mult.entries.filterMap fun e => (partner? s e.1).map fun t => (labels t, e.2)) := by
    refine ((entries_mult_rename_perm h hf).filterMap _).trans (List.Perm.of_eq ?_)
    rw [List.filterMap_map]
    refine List.filterMap_congr fun e he => ?_
    simp only [Function.comp, partner?_renamePair hf]
    cases ht : partner? s e.1 with
    | none => rfl
    | some t =>
      have hsignal := mem_signals_of_partner? (List.mem_map_of_mem he) ht
      simp [hlabels t hsignal]
  show Characteristic.polynomial _ _ = Characteristic.polynomial _ _
  rw [ascending_eq_of_perm hmult, linear_rename, ← Terms.rename_eq_mapKeys,
    Terms.coefficient_rename hf]

end AcirConstraint

/-! ## Constraints of either dialect -/

namespace Constraint

variable [hp : Fact F.modulus.Prime] {c n : Constraint}

/-- A normal form keeps its shape when the labels move along the renaming. -/
theorem shape_renameNormal (hc : c.IsReduced F) (hn : n ∈ c.normalize F) (hf : IsRenaming f)
    (hlabels : ∀ s ∈ n.signals, labels' (f s) = labels s)
    (h0 : labels' constantSignal = labels constantSignal) :
    (n.renameNormal f).shape labels' = n.shape labels := by
  have hred := hc.rescaling (isRescaling_of_mem_normalize hc.coefficients hn)
  cases c with
  | r1cs r =>
    obtain ⟨m, hm, rfl⟩ := List.mem_map.1 hn
    refine R1csConstraint.shape_renameNormal hf (R1csConstraint.ofFactors_of_mem_normalize hc hm)
      fun s hs => ?_
    by_cases hs0 : s = constantSignal
    · rw [hs0, hf.constant, h0]
    · exact hlabels s (R1csConstraint.mem_signals.2 ⟨hs, hs0⟩)
  | acir p =>
    obtain ⟨m, hm, rfl⟩ := List.mem_map.1 hn
    exact AcirConstraint.shape_rename hred hf hlabels

/-- A signal plays the part in a normal form that its image plays in the renamed one. -/
theorem characteristic_renameNormal (hc : c.IsReduced F) (hn : n ∈ c.normalize F)
    (hf : IsRenaming f) (hlabels : ∀ s ∈ n.signals, labels' (f s) = labels s) (s : Signal) :
    (n.renameNormal f).characteristic (f s) labels' = n.characteristic s labels := by
  have hred := hc.rescaling (isRescaling_of_mem_normalize hc.coefficients hn)
  cases c with
  | r1cs r =>
    obtain ⟨m, hm, rfl⟩ := List.mem_map.1 hn
    exact R1csConstraint.characteristic_renameNormal hf
      (R1csConstraint.ofFactors_of_mem_normalize hc hm) s
  | acir p =>
    obtain ⟨m, hm, rfl⟩ := List.mem_map.1 hn
    exact AcirConstraint.characteristic_rename hred hf hlabels s

end Constraint

end CircuitEquiv
