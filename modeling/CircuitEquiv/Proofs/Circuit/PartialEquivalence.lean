-- SUMMARY: Mappings of some constraints of a circuit to multiples of constraints of another one, and the matchings they come from.
import CircuitEquiv.Proofs.Circuit.Sanity
import CircuitEquiv.Proofs.Constraint.Matching
import CircuitEquiv.Proofs.Matching.NormMatching

/-!
# Partial equivalences

A partial equivalence maps some signals and some constraints of a circuit to those of another one. It is
injective, keeps the constant signal and all roles, maps every signal of a mapped constraint, and turns
a mapped constraint into a scalar multiple of its image. Matched signals and norms give one.
-/

namespace CircuitEquiv

/-- A mapping of some signals and constraints under which mapped constraints agree with their images. -/
structure Mapping.Respects (left right : Circuit) (m : Mapping) : Prop where
  signals : ∀ s t, m.signals.get? s = some t →
    s < left.nSignals ∧ t < right.nSignals ∧ left.role s = right.role t
  signals_injective : ∀ s s' t, m.signals.get? s = some t → m.signals.get? s' = some t → s = s'
  constraints_injective : ∀ k k' j,
    m.constraints.get? k = some j → m.constraints.get? k' = some j → k = k'
  scalarMultiple : ∀ k j, m.constraints.get? k = some j →
    ∃ c d renamed, left.constraints[k]? = some c ∧ right.constraints[j]? = some d ∧
      (∀ s ∈ c.signals, m.signals.contains s = true) ∧
      c.signalMap (fun s => m.signals.getD s constantSignal) = .ok renamed ∧
      renamed.isScalarMultipleOf left.field d = true

/-- Such a mapping that maps the constant signal. -/
structure Mapping.IsPartialEquivalence (left right : Circuit) (m : Mapping) : Prop
    extends m.Respects left right where
  constant : m.signals.get? constantSignal = some constantSignal

/-- The numbers of left constraints that some partial equivalence maps. -/
def Circuit.partialSizes (left right : Circuit) : Set Nat :=
  {k | ∃ m : Mapping, m.IsPartialEquivalence left right ∧ m.constraints.size = k}

namespace Mapping

variable {left right : Circuit} {m : Mapping}

theorem nodup_values_of_injective {e : SortedMap Nat Nat}
    (h : ∀ k k' v, e.get? k = some v → e.get? k' = some v → k = k') : e.values.Nodup := by
  rw [SortedMap.values, List.nodup_map_iff_inj_on e.nodup_entries]
  rintro ⟨k, v⟩ hk ⟨k', v'⟩ hk' rfl
  rw [h k k' v (SortedMap.get?_eq_some_iff.2 hk) (SortedMap.get?_eq_some_iff.2 hk')]

/-- Such a mapping passes the check of its constraints. -/
theorem Respects.checkMatched (h : m.Respects left right) :
    m.checkMatched left right = .ok () := by
  refine checkMatched_eq_ok_iff.2 ⟨nodup_values_of_injective h.signals_injective,
    nodup_values_of_injective h.constraints_injective, fun e he => ?_⟩
  exact checkConstraint_eq_ok_iff.2 (h.scalarMultiple e.1 e.2 (SortedMap.get?_eq_some_iff.2 he))

theorem Respects.lt_nConstraints (h : m.Respects left right) {k : Nat}
    (hk : k ∈ m.constraints.keys) : k < left.nConstraints := by
  obtain ⟨j, hj⟩ := SortedMap.mem_keys_iff.1 hk
  obtain ⟨c, -, -, hc, -⟩ := h.scalarMultiple k j hj
  exact Circuit.lt_nConstraints hc

theorem Respects.subperm_keys (h : m.Respects left right) :
    m.constraints.keys.Subperm (List.range left.nConstraints) :=
  List.subperm_of_subset m.constraints.nodup_keys fun _ hk => List.mem_range.2 (h.lt_nConstraints hk)

theorem Respects.size_le (h : m.Respects left right) :
    m.constraints.size ≤ left.nConstraints := by
  have hle := h.subperm_keys.length_le
  rwa [SortedMap.keys, List.length_map, List.length_range] at hle

theorem respects_empty : Mapping.empty.Respects left right where
  signals := fun _ _ h => nomatch h
  signals_injective := fun _ _ _ h => nomatch h
  constraints_injective := fun _ _ _ h => nomatch h
  scalarMultiple := fun _ _ h => nomatch h

/-- Mapping more signals keeps what is mapped. -/
theorem Respects.extend {m' : Mapping} (h : m.Respects left right)
    (hconstraints : m'.constraints = m.constraints)
    (hextends : ∀ s t, m.signals.get? s = some t → m'.signals.get? s = some t)
    (hsignals : ∀ s t, m'.signals.get? s = some t →
      s < left.nSignals ∧ t < right.nSignals ∧ left.role s = right.role t)
    (hinjective : ∀ s s' t, m'.signals.get? s = some t → m'.signals.get? s' = some t → s = s') :
    m'.Respects left right where
  signals := hsignals
  signals_injective := hinjective
  constraints_injective := hconstraints ▸ h.constraints_injective
  scalarMultiple := by
    rw [hconstraints]
    intro k j hk
    obtain ⟨c, d, renamed, hc, hd, hmapped, hrenamed, hmultiple⟩ := h.scalarMultiple k j hk
    have hget : ∀ s ∈ c.signals, ∃ t, m.signals.get? s = some t ∧ m'.signals.get? s = some t :=
      fun s hs => by
        obtain ⟨t, ht⟩ := SortedMap.mem_keys_iff.1 (SortedMap.contains_iff.1 (hmapped s hs))
        exact ⟨t, ht, hextends s t ht⟩
    refine ⟨c, d, renamed, hc, hd, fun s hs => ?_,
      Constraint.signalMap_congr (fun s hs => ?_) hrenamed, hmultiple⟩
    · obtain ⟨t, -, ht⟩ := hget s hs
      rw [SortedMap.contains, ht, Option.isSome_some]
    · obtain ⟨t, ht, ht'⟩ := hget s hs
      rw [SortedMap.getD, SortedMap.getD, ht, ht']

/-- Such a mapping of everything is a full equivalence. -/
theorem Respects.isFullEquivalence (h : m.Respects left right) (hfield : left.field = right.field)
    (hdialect : left.dialect = right.dialect) (hsignals : left.nSignals = right.nSignals)
    (hconstraints : left.nConstraints = right.nConstraints)
    (htotal : ∀ s < left.nSignals, ∃ t, m.signals.get? s = some t)
    (hsize : left.nConstraints ≤ m.constraints.size) : m.IsFullEquivalence left right := by
  have hkeys : m.constraints.keys.Perm (List.range left.nConstraints) := by
    refine h.subperm_keys.perm_of_length_le ?_
    rwa [List.length_range, SortedMap.keys, List.length_map]
  obtain ⟨hvalues, hvalues', hchecks⟩ := checkMatched_eq_ok_iff.1 h.checkMatched
  refine isFullEquivalence_of_sanityCheck hfield hdialect hsignals hconstraints (fun s hs => ?_)
    (sanityCheck_eq_ok_iff.2 ⟨fun s hs => ?_, fun k hk => ?_, hvalues, hvalues', hchecks⟩)
  · obtain ⟨t, ht⟩ := SortedMap.mem_keys_iff.1 hs
    exact (h.signals s t ht).1
  · obtain ⟨t, ht⟩ := htotal s hs
    obtain ⟨-, hlt, hrole⟩ := h.signals s t ht
    exact checkSignal_eq_ok_iff.2 ⟨t, ht, hlt, hrole⟩
  · exact hkeys.mem_iff.2 (List.mem_range.2 hk)

/-- A full equivalence is a partial one of all constraints. -/
theorem IsFullEquivalence.isPartialEquivalence (h : m.IsFullEquivalence left right) :
    m.IsPartialEquivalence left right := by
  have hget : ∀ {e : SortedMap Nat Nat} {n k v : Nat} (d : Nat), e.keys = List.range n →
      e.get? k = some v → k < n ∧ e.getD k d = v := fun {e n k v} d hkeys hk =>
    ⟨(keys_eq_range_iff.1 hkeys k).1 ⟨v, hk⟩, by rw [SortedMap.getD, hk, Option.getD_some]⟩
  refine ⟨⟨?signals, ?signals_injective, ?constraints_injective, ?scalarMultiple⟩, ?constant⟩
  case constant =>
    exact (get?_of_keys_eq_range (d := constantSignal) h.signals_keys left.nSignals_pos).trans
      (congrArg some h.acts.constant)
  case signals =>
    intro s t hs
    obtain ⟨hlt, rfl⟩ := hget constantSignal h.signals_keys hs
    exact ⟨hlt, h.acts.signals.mapsTo hlt, (h.acts.role s hlt).symm⟩
  case signals_injective =>
    intro s s' t hs hs'
    obtain ⟨hlt, heq⟩ := hget constantSignal h.signals_keys hs
    obtain ⟨hlt', heq'⟩ := hget constantSignal h.signals_keys hs'
    exact h.acts.signals.injOn hlt hlt' (heq.trans heq'.symm)
  case constraints_injective =>
    intro k k' j hk hk'
    obtain ⟨hlt, heq⟩ := hget 0 h.constraints_keys hk
    obtain ⟨hlt', heq'⟩ := hget 0 h.constraints_keys hk'
    exact h.acts.constraints.injOn hlt hlt' (heq.trans heq'.symm)
  case scalarMultiple =>
    intro k j hk
    obtain ⟨-, -, -, -, hchecks⟩ := sanityCheck_eq_ok_iff.1 (sanityCheck_of_isFullEquivalence h)
    exact checkConstraint_eq_ok_iff.1 (hchecks (k, j) (SortedMap.get?_eq_some_iff.1 hk))

theorem IsFullEquivalence.size_constraints (h : m.IsFullEquivalence left right) :
    m.constraints.size = left.nConstraints := by
  have hlength := congrArg List.length h.constraints_keys
  rwa [SortedMap.keys, List.length_map, List.length_range] at hlength

end Mapping

theorem Circuit.zero_mem_partialSizes {left right : Circuit} : 0 ∈ left.partialSizes right := by
  let m := Mapping.empty.insertSignal constantSignal constantSignal
  have hsignals : ∀ s t, m.signals.get? s = some t ↔ s = constantSignal ∧ t = constantSignal :=
    fun s t => by
      show (SortedMap.insert _ constantSignal constantSignal).get? s = some t ↔ _
      rw [SortedMap.get?_insert]
      by_cases hs : s = constantSignal
      · simp [hs, eq_comm]
      · simp [hs, Mapping.empty]
  have hconstraints : ∀ k j, m.constraints.get? k ≠ some j := fun k j hk => by cases hk
  refine ⟨m, ⟨⟨fun s t hs => ?_, fun s s' t hs hs' => ?_,
    fun k _ j hk => absurd hk (hconstraints k j), fun k j hk => absurd hk (hconstraints k j)⟩,
    (hsignals _ _).2 ⟨rfl, rfl⟩⟩, rfl⟩
  · obtain ⟨rfl, rfl⟩ := (hsignals s t).1 hs
    exact ⟨left.nSignals_pos, right.nSignals_pos, by
      rw [role_eq_constant_iff.2 rfl, role_eq_constant_iff.2 rfl]⟩
  · rw [((hsignals s t).1 hs).1, ((hsignals s' t).1 hs').1]

/-! ## Partial renamings -/

/-- Signals are matched one to one to signals of the same role. -/
structure SignalMatching (left right : Circuit) (T : Signal → Signal → Prop) : Prop where
  functional : ∀ s t t', T s t → T s t' → t = t'
  injective : ∀ s s' t, T s t → T s' t → s = s'
  right_lt : ∀ s t, T s t → t < right.nSignals
  role : ∀ s t, T s t → left.role s = right.role t

namespace SignalMatching

variable {left right : Circuit} {T : Signal → Signal → Prop} (h : SignalMatching left right T)

include h

theorem constant_iff {s t : Signal} (hT : T s t) : s = constantSignal ↔ t = constantSignal := by
  rw [← Circuit.role_eq_constant_iff, h.role s t hT, Circuit.role_eq_constant_iff]

/-- Matched signals are renamed alike by some renaming; it sends the others beyond the signals of the
right circuit. -/
theorem exists_isRenaming : ∃ f, IsRenaming f ∧ (∀ s t, T s t → f s = t) ∧
    ∀ s, f s < right.nSignals → s = constantSignal ∨ T s (f s) := by
  have himage : ∀ s, ∃ t', ∀ t, T s t → t = t' := fun s => by
    by_cases hs : ∃ t, T s t
    · obtain ⟨t', hT'⟩ := hs
      exact ⟨t', fun t hT => h.functional s t t' hT hT'⟩
    · exact ⟨s, fun t hT => absurd ⟨t, hT⟩ hs⟩
  choose f hf using himage
  have hfollows : ∀ s ∈ {s | s ≠ constantSignal ∧ ∃ t, T s t}, T s (f s) := fun s hs => by
    obtain ⟨-, t, hT⟩ := hs
    rwa [← hf s t hT]
  obtain ⟨g, hg, hagree, hbeyond⟩ := exists_isRenaming_of_lt (fun h0 => h0.1 rfl)
    (fun s hs => h.right_lt s _ (hfollows s hs))
    (fun s hs h0 => hs.1 ((h.constant_iff (hfollows s hs)).2 h0))
    fun s hs s' hs' heq => h.injective s s' _ (hfollows s hs) (heq ▸ hfollows s' hs')
  refine ⟨g, hg, fun s t hT => ?_, fun s hs => ?_⟩
  · by_cases h0 : s = constantSignal
    · rw [h0, hg.constant, (h.constant_iff hT).1 h0]
    · rw [hagree s ⟨h0, t, hT⟩, hf s t hT]
  · by_cases hmatched : s ≠ constantSignal ∧ ∃ t, T s t
    · rw [hagree s hmatched]
      exact .inr (hfollows s hmatched)
    · exact .inl (hbeyond s hmatched hs)

end SignalMatching

/-! ## From matchings to partial equivalences -/

namespace Constraint

variable {f : Signal → Signal} {n : Constraint} {s : Signal}

theorem mem_signals_renameNormal (hf : IsRenaming f) :
    s ∈ (n.renameNormal f).signals ↔ ∃ t ∈ n.signals, f t = s := by
  cases n with
  | acir p => exact AcirConstraint.mem_signals_rename
  | r1cs r =>
    have hexchanged : (r.rename f).exchanged.signals = (r.rename f).signals := by
      ext t
      simp [R1csConstraint.mem_signals, R1csConstraint.exchanged, or_left_comm]
    show s ∈ (r.renameNormal f).signals ↔ _
    rcases r.renameNormal_eq_or f with h | h
    · rw [h]
      exact R1csConstraint.mem_signals_rename hf
    · rw [h, hexchanged]
      exact R1csConstraint.mem_signals_rename hf

end Constraint

namespace NormMatching

variable {left right : Circuit} {f : Signal → Signal} {R : Nat → Nat → Prop} {κ : Nat → Nat}
  {T : Signal → Signal → Prop} {k : Nat} {c : Constraint}

/-- The signals of a matched constraint are renamed to signals of the right circuit. -/
theorem renamed_lt (h : NormMatching left right f R) (hl : left.IsProper) (hr : right.IsProper)
    (hk : k ∈ matchedConstraints left R) (hc : left.constraints[k]? = some c) {s : Signal}
    (hs : s ∈ c.signals) : f s < right.nSignals := by
  have : Fact left.field.modulus.Prime := ⟨hl.prime⟩
  have : Fact right.field.modulus.Prime := ⟨hr.prime⟩
  obtain ⟨l, r, hR, rfl⟩ := hk
  obtain ⟨n, n', hn, hn', hconstraint⟩ := h.image l r hR
  rw [originOf_of_getElem? hn] at hc
  obtain ⟨c', hc', hnormal⟩ := Circuit.exists_constraint_of_norm hn
  obtain rfl : c = c' := Option.some.inj (hc.symm.trans hc')
  refine Circuit.lt_nSignals_of_norm hr.reduced hn' ?_
  rw [hconstraint, Constraint.mem_signals_renameNormal h.isRenaming,
    Circuit.signals_of_norm hl.reduced hc hnormal]
  exact ⟨s, hs, rfl⟩

/-- Matched signals and norms give a partial equivalence of any of the matched constraints. -/
theorem isPartialEquivalence (h : NormMatching left right f R) (hκ : FollowsNorms left right R κ)
    (hl : left.IsProper) (hr : right.IsProper) (hfield : left.field = right.field)
    (hT : SignalMatching left right T) (hf : ∀ s t, T s t → f s = t)
    (hback : ∀ s, f s < right.nSignals → s = constantSignal ∨ T s (f s)) {m : Mapping} {K : Set Nat}
    (hK : K ⊆ matchedConstraints left R)
    (hconstraints : ∀ k j, m.constraints.get? k = some j ↔ k ∈ K ∧ κ k = j)
    (hsignals : ∀ s t, m.signals.get? s = some t ↔
      (s = constantSignal ∧ t = constantSignal ∨ T s t) ∧
      (s = constantSignal ∨ ∃ k ∈ K, ∃ c, left.constraints[k]? = some c ∧ s ∈ c.signals)) :
    m.IsPartialEquivalence left right := by
  have hget : ∀ s t, m.signals.get? s = some t → f s = t := fun s t hs => by
    rcases ((hsignals s t).1 hs).1 with ⟨rfl, rfl⟩ | hst
    · exact h.isRenaming.constant
    · exact hf s t hst
  refine ⟨⟨?signals, ?signals_injective, ?constraints_injective, ?scalarMultiple⟩, ?constant⟩
  case constant => exact (hsignals _ _).2 ⟨Or.inl ⟨rfl, rfl⟩, Or.inl rfl⟩
  case signals =>
    intro s t hs
    obtain ⟨hst, hused⟩ := (hsignals s t).1 hs
    have hlt : s < left.nSignals := by
      rcases hused with rfl | ⟨k, -, c, hc, hmem⟩
      · exact left.nSignals_pos
      · exact Circuit.lt_nSignals_of_mem_signals hc hmem
    refine ⟨hlt, ?_⟩
    rcases hst with ⟨rfl, rfl⟩ | hst
    · exact ⟨right.nSignals_pos, by
        rw [Circuit.role_eq_constant_iff.2 rfl, Circuit.role_eq_constant_iff.2 rfl]⟩
    · exact ⟨hT.right_lt s t hst, hT.role s t hst⟩
  case signals_injective =>
    intro s s' t hs hs'
    exact h.isRenaming.injective ((hget s t hs).trans (hget s' t hs').symm)
  case constraints_injective =>
    intro k k' j hk hk'
    obtain ⟨hk, hj⟩ := (hconstraints k j).1 hk
    obtain ⟨hk', hj'⟩ := (hconstraints k' j).1 hk'
    exact h.injOn_constraintMap hκ hl hfield hr.reduced (hK hk) (hK hk') (hj.trans hj'.symm)
  case scalarMultiple =>
    intro k j hget
    obtain ⟨hk, rfl⟩ := (hconstraints k j).1 hget
    obtain ⟨l, r, hR, horigin⟩ := hK hk
    obtain ⟨n, -, hn, -⟩ := h.image l r hR
    rw [originOf_of_getElem? hn] at horigin
    obtain ⟨c, hc⟩ := Circuit.exists_constraint (horigin ▸ Circuit.origin_lt hn)
    obtain ⟨d, hd, hmultiple⟩ := h.exists_image hκ hl hfield (hK hk) hc
    have hne : ∀ s ∈ c.signals, s ≠ constantSignal :=
      fun _ hs => (hl.reduced.constraint hc).ne_constant_of_mem_signals hs
    have hmapped : ∀ s ∈ c.signals, m.signals.get? s = some (f s) := fun s hs =>
      (hsignals s (f s)).2 ⟨Or.inr ((hback s (h.renamed_lt hl hr (hK hk) hc hs)).resolve_left
        (hne s hs)), Or.inr ⟨k, hk, c, hc, hs⟩⟩
    refine ⟨c, d, c.rename f, hc, hd, fun s hs => ?_, ?_, hmultiple⟩
    · rw [SortedMap.contains, hmapped s hs, Option.isSome_some]
    · exact Constraint.signalMap_of_agree h.isRenaming hne fun s hs => by
        rw [SortedMap.getD, hmapped s hs, Option.getD_some]

end NormMatching

end CircuitEquiv
