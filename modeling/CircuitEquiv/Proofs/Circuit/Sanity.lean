-- SUMMARY: The check of a mapping accepts exactly the full equivalences, where a mapping maps no more than there is.
import CircuitEquiv.Proofs.Circuit.FullEquivalence
import CircuitEquiv.Proofs.Data.Failure

/-!
# Checking mappings

A full equivalence passes the check. A mapping of the signals and constraints of the left circuit that
passes it is a full equivalence when the circuits have the same size.
-/

namespace CircuitEquiv.Mapping

variable {left right : Circuit} {m : Mapping} {seen : SortedSet Nat}

/-! ## The parts of the check -/

theorem firstRepeated?_eq_none_iff {l : List Nat} :
    firstRepeated? seen l = none ↔ (∀ x ∈ l, x ∉ seen) ∧ l.Nodup := by
  induction l generalizing seen with
  | nil => simp [firstRepeated?]
  | cons x rest ih =>
    rw [firstRepeated?, List.forall_mem_cons, List.nodup_cons]
    by_cases hx : x ∈ seen
    · simp [hx]
    · rw [if_neg hx, ih]
      simp only [SortedSet.mem_insert, not_or]
      constructor
      · rintro ⟨hrest, hnodup⟩
        exact ⟨⟨hx, fun y hy => (hrest y hy).2⟩, fun hmem => (hrest x hmem).1 rfl, hnodup⟩
      · rintro ⟨⟨-, hrest⟩, hmem, hnodup⟩
        exact ⟨fun y hy => ⟨fun heq => hmem (heq ▸ hy), hrest y hy⟩, hnodup⟩

theorem checkConstraints_eq_ok_iff {l : List (Nat × Nat)} :
    checkConstraints left right m seen l = .ok () ↔
      (∀ x ∈ l.map (·.2), x ∉ seen) ∧ (l.map (·.2)).Nodup ∧
        ∀ e ∈ l, checkConstraint left right m e.1 e.2 = .ok () := by
  induction l generalizing seen with
  | nil => simp [checkConstraints]
  | cons e rest ih =>
    obtain ⟨k, j⟩ := e
    rw [checkConstraints, List.map_cons, List.forall_mem_cons, List.nodup_cons, List.forall_mem_cons]
    by_cases hj : j ∈ seen
    · simp [hj]
    · rw [if_neg hj, bind_unit_eq_ok_iff, ih]
      simp only [SortedSet.mem_insert, not_or]
      constructor
      · rintro ⟨hcheck, hrest, hnodup, hchecks⟩
        exact ⟨⟨hj, fun y hy => (hrest y hy).2⟩, ⟨fun hmem => (hrest j hmem).1 rfl, hnodup⟩,
          hcheck, hchecks⟩
      · rintro ⟨⟨-, hrest⟩, ⟨hmem, hnodup⟩, hcheck, hchecks⟩
        exact ⟨hcheck, fun y hy => ⟨fun heq => hmem (heq ▸ hy), hrest y hy⟩, hnodup, hchecks⟩

theorem checkSignal_eq_ok_iff {s : Signal} :
    checkSignal left right m s = .ok () ↔
      ∃ t, m.signals.get? s = some t ∧ t < right.nSignals ∧ left.role s = right.role t := by
  unfold checkSignal
  cases m.signals.get? s with
  | none => simp
  | some t => simp

/-- A mapped constraint passes when all its signals are mapped and the renamed constraint is a multiple
of the image. -/
theorem checkConstraint_eq_ok_iff {k j : Nat} :
    checkConstraint left right m k j = .ok () ↔
      ∃ c d renamed, left.constraints[k]? = some c ∧ right.constraints[j]? = some d ∧
        (∀ s ∈ c.signals, m.signals.contains s = true) ∧
        c.signalMap (fun s => m.signals.getD s constantSignal) = .ok renamed ∧
        renamed.isScalarMultipleOf left.field d = true := by
  unfold checkConstraint
  cases hc : left.constraints[k]? with
  | none => simp
  | some c =>
    cases hd : right.constraints[j]? with
    | none => simp
    | some d =>
      have hfind : (c.signals.toList.find? fun s => !m.signals.contains s) = none ↔
          ∀ s ∈ c.signals, m.signals.contains s = true := by
        simp [List.find?_eq_none, SortedSet.mem_def]
      dsimp only
      split
      · rename_i s hs
        have hmapped : ¬ ∀ s ∈ c.signals, m.signals.contains s = true :=
          fun h => by simp [hfind.2 h] at hs
        constructor
        · intro h
          cases h
        · rintro ⟨c', d', renamed, hc', hd', hsignals, -, -⟩
          cases hc'
          exact absurd hsignals hmapped
      · rename_i hnone
        cases hmap : c.signalMap fun s => m.signals.getD s constantSignal with
        | error fault =>
          constructor
          · intro h
            cases h
          · rintro ⟨c', d', renamed, hc', hd', -, hrenamed, -⟩
            cases hc'
            rw [hmap] at hrenamed
            cases hrenamed
        | ok renamed =>
          dsimp only
          constructor
          · intro h
            split at h
            · rename_i hmultiple
              exact ⟨c, d, renamed, rfl, rfl, hfind.1 hnone, hmap, hmultiple⟩
            · cases h
          · rintro ⟨c', d', renamed', hc', hd', -, hrenamed, hmultiple⟩
            cases hc'
            cases hd'
            rw [hmap] at hrenamed
            cases hrenamed
            rw [if_pos hmultiple]

theorem checkMatched_eq_ok_iff : m.checkMatched left right = .ok () ↔ m.signals.values.Nodup ∧
    (m.constraints.entries.map (·.2)).Nodup ∧
      ∀ e ∈ m.constraints.entries, checkConstraint left right m e.1 e.2 = .ok () := by
  have hrepeated : firstRepeated? SortedSet.empty m.signals.values = none ↔
      m.signals.values.Nodup := by
    simp [firstRepeated?_eq_none_iff]
  unfold checkMatched
  rw [← hrepeated]
  split
  · rename_i image himage
    simp [himage]
  · rename_i hnone
    simp [hnone, checkConstraints_eq_ok_iff]

theorem sanityCheck_eq_ok_iff :
    m.sanityCheck left right = .ok () ↔
      (∀ s < left.nSignals, checkSignal left right m s = .ok ()) ∧
      (∀ k < left.nConstraints, k ∈ m.constraints.keys) ∧
      m.signals.values.Nodup ∧ (m.constraints.entries.map (·.2)).Nodup ∧
      ∀ e ∈ m.constraints.entries, checkConstraint left right m e.1 e.2 = .ok () := by
  have hkeys : ∀ k, (if m.constraints.contains k then .ok ()
      else .error (.unmappedConstraint k) : Except MappingError Unit) = .ok () ↔
        k ∈ m.constraints.keys := by
    intro k
    rw [← SortedMap.contains_iff]
    split <;> simp_all
  unfold sanityCheck
  simp only [bind_unit_eq_ok_iff, forM_eq_ok_iff, List.mem_range, hkeys, checkMatched_eq_ok_iff]

/-! ## What passes -/

theorem values_eq_map_keys (e : SortedMap Nat Nat) (d : Nat) :
    e.values = e.keys.map fun k => e.getD k d := by
  unfold SortedMap.values SortedMap.keys
  rw [List.map_map]
  exact List.map_congr_left fun x hx => (SortedMap.getD_of_mem hx).symm

theorem nodup_values_iff {e : SortedMap Nat Nat} {n : Nat} (h : e.keys = List.range n) (d : Nat) :
    e.values.Nodup ↔ Set.InjOn (fun k => e.getD k d) (Set.Iio n) := by
  rw [values_eq_map_keys e d, h, List.nodup_map_iff_inj_on List.nodup_range]
  simp [Set.InjOn]

theorem get?_of_keys_eq_range {e : SortedMap Nat Nat} {n k d : Nat} (h : e.keys = List.range n)
    (hk : k < n) : e.get? k = some (e.getD k d) := by
  obtain ⟨v, hv⟩ := (keys_eq_range_iff.1 h k).2 hk
  rw [SortedMap.getD, hv, Option.getD_some]

theorem sanityCheck_of_isFullEquivalence (h : m.IsFullEquivalence left right) :
    m.sanityCheck left right = .ok () := by
  refine sanityCheck_eq_ok_iff.2 ⟨fun s hs => ?_, fun k hk => ?_,
    (nodup_values_iff h.signals_keys constantSignal).2 h.acts.signals.injOn,
    (nodup_values_iff h.constraints_keys 0).2 h.acts.constraints.injOn, fun e he => ?_⟩
  · exact checkSignal_eq_ok_iff.2 ⟨_, get?_of_keys_eq_range h.signals_keys hs,
      h.acts.signals.mapsTo hs, (h.acts.role s hs).symm⟩
  · rw [h.constraints_keys]
    exact List.mem_range.2 hk
  · have hget := SortedMap.get?_eq_some_iff.2 he
    have hk : e.1 < left.nConstraints := (keys_eq_range_iff.1 h.constraints_keys e.1).1 ⟨_, hget⟩
    obtain ⟨c, hc⟩ := Circuit.exists_constraint hk
    obtain ⟨renamed, d, hrenamed, hd, hmultiple⟩ := h.acts.scalarMultiple e.1 c hc
    rw [SortedMap.getD, hget, Option.getD_some] at hd
    refine checkConstraint_eq_ok_iff.2 ⟨c, d, renamed, hc, hd, fun s hs => ?_, hrenamed, hmultiple⟩
    rw [SortedMap.contains_iff, h.signals_keys]
    exact List.mem_range.2 (Circuit.lt_nSignals_of_mem_signals hc hs)

/-- A mapping of nothing but left signals that passes the check is a full equivalence. -/
theorem isFullEquivalence_of_sanityCheck (hfield : left.field = right.field)
    (hdialect : left.dialect = right.dialect) (hsignals : left.nSignals = right.nSignals)
    (hconstraints : left.nConstraints = right.nConstraints)
    (hlt : ∀ s ∈ m.signals.keys, s < left.nSignals)
    (h : m.sanityCheck left right = .ok ()) : m.IsFullEquivalence left right := by
  obtain ⟨hsignal, hmapped, hvalues, hvalues', hconstraint⟩ := sanityCheck_eq_ok_iff.1 h
  have hkeys : m.signals.keys = List.range left.nSignals := keys_eq_range_iff.2 fun s => by
    refine ⟨fun hs => hlt s (SortedMap.mem_keys_iff.2 hs), fun hs => ?_⟩
    obtain ⟨t, ht, -⟩ := checkSignal_eq_ok_iff.1 (hsignal s hs)
    exact ⟨t, ht⟩
  have hkeys' : m.constraints.keys = List.range left.nConstraints := keys_eq_range_iff.2 fun k => by
    refine ⟨fun ⟨j, hj⟩ => ?_, fun hk => SortedMap.mem_keys_iff.1 (hmapped k hk)⟩
    obtain ⟨c, -, -, hc, -⟩ :=
      checkConstraint_eq_ok_iff.1 (hconstraint (k, j) (SortedMap.get?_eq_some_iff.1 hj))
    exact Circuit.lt_nConstraints hc
  have himage : ∀ s < left.nSignals, m.signals.getD s constantSignal < right.nSignals ∧
      left.role s = right.role (m.signals.getD s constantSignal) := fun s hs => by
    obtain ⟨t, ht, hlt, hrole⟩ := checkSignal_eq_ok_iff.1 (hsignal s hs)
    rw [SortedMap.getD, ht, Option.getD_some]
    exact ⟨hlt, hrole⟩
  have hmatch : ∀ k c, left.constraints[k]? = some c → ∃ d renamed,
      right.constraints[m.constraints.getD k 0]? = some d ∧
      c.signalMap (fun s => m.signals.getD s constantSignal) = .ok renamed ∧
        renamed.isScalarMultipleOf left.field d = true := fun k c hc => by
    have hget : m.constraints.get? k = some (m.constraints.getD k 0) :=
      get?_of_keys_eq_range hkeys' (Circuit.lt_nConstraints hc)
    obtain ⟨c', d, renamed, hc', hd, -, hrenamed, hmultiple⟩ :=
      checkConstraint_eq_ok_iff.1 (hconstraint _ (SortedMap.get?_eq_some_iff.1 hget))
    rw [hc, Option.some_inj] at hc'
    subst hc'
    exact ⟨d, renamed, hd, hrenamed, hmultiple⟩
  refine ⟨hkeys, hkeys', ?_⟩
  constructor
  case field => exact hfield
  case dialect => exact hdialect
  case signals =>
    rw [← hsignals]
    exact bijOn_Iio_of_injOn (fun s hs => hsignals ▸ (himage s hs).1)
      ((nodup_values_iff hkeys constantSignal).1 hvalues)
  case constant =>
    have hrole := (himage constantSignal left.nSignals_pos).2
    rw [Circuit.role_eq_constant_iff.2 rfl, eq_comm] at hrole
    exact Circuit.role_eq_constant_iff.1 hrole
  case role => exact fun s hs => ((himage s hs).2).symm
  case constraints =>
    rw [← hconstraints]
    refine bijOn_Iio_of_injOn (fun k hk => ?_) ((nodup_values_iff hkeys' 0).1 hvalues')
    obtain ⟨c, hc⟩ := Circuit.exists_constraint hk
    obtain ⟨d, renamed, hd, -⟩ := hmatch k c hc
    exact hconstraints ▸ Circuit.lt_nConstraints hd
  case scalarMultiple =>
    intro k c hc
    obtain ⟨d, renamed, hd, hrenamed, hmultiple⟩ := hmatch k c hc
    exact ⟨renamed, d, hrenamed, hd, hmultiple⟩

end CircuitEquiv.Mapping
