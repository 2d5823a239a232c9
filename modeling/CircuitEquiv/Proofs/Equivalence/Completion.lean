-- SUMMARY: Pairing the signals that a mapping of all constraints leaves out completes it to a full equivalence.
import CircuitEquiv.Equivalence
import CircuitEquiv.Proofs.Circuit.PartialEquivalence
import CircuitEquiv.Proofs.Circuit.Roles
import CircuitEquiv.Proofs.Equivalence.Decoding

/-!
# Completing a mapping

A largest common part maps the signals of mapped constraints only. Circuits of the same size have as
many signals of every role, so a mapping that is injective and keeps roles leaves out equally many on
both sides, and these can be paired in any order.
-/

namespace CircuitEquiv

namespace Comparison

variable {left right : Circuit} {m : Mapping} {role : SignalRole} {s s' t t' : Signal}

/-! ## The signals that are left out -/

/-- The left signals of a role that a mapping leaves out. -/
def unmappedSignals (left : Circuit) (m : Mapping) (role : SignalRole) : List Signal :=
  (left.withRole role).filter fun s => !m.signals.contains s

/-- The right signals of a role that are no images. -/
def unusedSignals (right : Circuit) (m : Mapping) (role : SignalRole) : List Signal :=
  (right.withRole role).filter fun t => !decide (t ∈ SortedSet.ofList m.signals.values)

/-- The pairs that complete a mapping. -/
def unusedPairs (left right : Circuit) (m : Mapping) : List (Signal × Signal) :=
  [SignalRole.constant, .output, .input, .internal].flatMap fun role =>
    (unmappedSignals left m role).zip (unusedSignals right m role)

theorem mem_unmappedSignals : s ∈ unmappedSignals left m role ↔
    (s < left.nSignals ∧ left.role s = role) ∧ ∀ t, m.signals.get? s ≠ some t := by
  rw [unmappedSignals, List.mem_filter, Circuit.mem_withRole, SortedMap.contains]
  cases m.signals.get? s <;> simp

theorem mem_unusedSignals : t ∈ unusedSignals right m role ↔
    (t < right.nSignals ∧ right.role t = role) ∧ ∀ s, m.signals.get? s ≠ some t := by
  simp [unusedSignals, Circuit.mem_withRole, SortedMap.mem_values_iff]

theorem pairUnused_eq : pairUnused left right m =
    (unusedPairs left right m).foldl (fun m e => m.insertSignal e.1 e.2) m := by
  simp only [pairUnused, unusedPairs, unmappedSignals, unusedSignals, Circuit.withRole,
    List.filter_filter]

/-- Of every role, a mapping leaves out equally many signals on both sides. -/
theorem length_unmappedSignals (h : m.Respects left right)
    (hlength : (left.withRole role).length = (right.withRole role).length) :
    (unmappedSignals left m role).length = (unusedSignals right m role).length := by
  have hget : ∀ {s t}, m.signals.get? s = some t → m.signals.getD s constantSignal = t :=
    fun hs => by rw [SortedMap.getD, hs, Option.getD_some]
  have hmapped : ∀ s, m.signals.contains s = true ↔ ∃ t, m.signals.get? s = some t := fun s => by
    rw [SortedMap.contains_iff, SortedMap.mem_keys_iff]
  have hperm : (((left.withRole role).filter fun s => m.signals.contains s).map
      fun s => m.signals.getD s constantSignal).Perm
      ((right.withRole role).filter fun t => decide (t ∈ SortedSet.ofList m.signals.values)) := by
    refine (List.perm_ext_iff_of_nodup ?_ (Circuit.nodup_withRole.filter _)).2 fun t => ?_
    · refine (Circuit.nodup_withRole.filter _).map_on fun s hs s' hs' heq => ?_
      obtain ⟨t, ht⟩ := (hmapped s).1 (List.mem_filter.1 hs).2
      obtain ⟨t', ht'⟩ := (hmapped s').1 (List.mem_filter.1 hs').2
      rw [hget ht, hget ht'] at heq
      exact h.signals_injective s s' t ht (heq ▸ ht')
    · simp only [List.mem_map, List.mem_filter, Circuit.mem_withRole, hmapped, decide_eq_true_eq,
        SortedSet.mem_ofList, SortedMap.mem_values_iff]
      constructor
      · rintro ⟨s, ⟨⟨-, hrole⟩, t, ht⟩, rfl⟩
        obtain ⟨-, hlt, hrole'⟩ := h.signals s t ht
        rw [hget ht]
        exact ⟨⟨hlt, hrole' ▸ hrole⟩, s, ht⟩
      · rintro ⟨⟨-, hrole⟩, s, ht⟩
        obtain ⟨hlt, -, hrole'⟩ := h.signals s t ht
        exact ⟨s, ⟨⟨hlt, hrole'.trans hrole⟩, t, ht⟩, hget ht⟩
  have hleft := List.length_eq_length_filter_add (l := left.withRole role)
    fun s => m.signals.contains s
  have hright := List.length_eq_length_filter_add (l := right.withRole role)
    fun t => decide (t ∈ SortedSet.ofList m.signals.values)
  have hmiddle := hperm.length_eq
  rw [List.length_map] at hmiddle
  unfold unmappedSignals unusedSignals
  omega

/-! ## Pairing -/

/-- A pair consists of signals of one role. -/
theorem mem_unusedPairs : (s, t) ∈ unusedPairs left right m ↔
    (s, t) ∈ (unmappedSignals left m (left.role s)).zip (unusedSignals right m (left.role s)) := by
  rw [unusedPairs, List.mem_flatMap]
  constructor
  · rintro ⟨role, -, hmem⟩
    obtain ⟨⟨-, rfl⟩, -⟩ := mem_unmappedSignals.1 (List.of_mem_zip hmem).1
    exact hmem
  · intro hmem
    refine ⟨_, ?_, hmem⟩
    cases left.role s <;> simp

theorem of_mem_unusedPairs (h : (s, t) ∈ unusedPairs left right m) :
    s ∈ unmappedSignals left m (left.role s) ∧ t ∈ unusedSignals right m (left.role s) :=
  List.of_mem_zip (mem_unusedPairs.1 h)

section Pairs

variable (hlength : ∀ role,
  (unmappedSignals left m role).length = (unusedSignals right m role).length)

include hlength

theorem unusedPairs_functional (h : (s, t) ∈ unusedPairs left right m)
    (h' : (s, t') ∈ unusedPairs left right m) : t = t' := by
  have hnodup := Circuit.nodup_withRole.filter (l := left.withRole (left.role s))
    fun s => !m.signals.contains s
  rw [← unmappedSignals, ← List.map_fst_zip (hlength _).le] at hnodup
  exact (Prod.mk.inj (List.inj_on_of_nodup_map hnodup (mem_unusedPairs.1 h) (mem_unusedPairs.1 h')
    rfl)).2

theorem unusedPairs_injective (h : (s, t) ∈ unusedPairs left right m)
    (h' : (s', t) ∈ unusedPairs left right m) : s = s' := by
  have hrole : left.role s' = left.role s :=
    (mem_unusedSignals.1 (of_mem_unusedPairs h').2).1.2.symm.trans
      (mem_unusedSignals.1 (of_mem_unusedPairs h).2).1.2
  have hnodup := Circuit.nodup_withRole.filter (l := right.withRole (left.role s))
    fun t => !decide (t ∈ SortedSet.ofList m.signals.values)
  rw [← unusedSignals, ← List.map_snd_zip (hlength _).ge] at hnodup
  rw [mem_unusedPairs] at h h'
  rw [hrole] at h'
  exact (Prod.mk.inj (List.inj_on_of_nodup_map hnodup h h' rfl)).1

theorem exists_mem_unusedPairs (hs : s < left.nSignals) (hunmapped : ∀ t, m.signals.get? s ≠ some t) :
    ∃ t, (s, t) ∈ unusedPairs left right m := by
  have hmem : s ∈ unmappedSignals left m (left.role s) := mem_unmappedSignals.2 ⟨⟨hs, rfl⟩, hunmapped⟩
  rw [← List.map_fst_zip (hlength _).le] at hmem
  obtain ⟨⟨s, t⟩, hpair, rfl⟩ := List.mem_map.1 hmem
  exact ⟨t, mem_unusedPairs.2 hpair⟩

theorem get?_signals_pairUnused : (pairUnused left right m).signals.get? s = some t ↔
    m.signals.get? s = some t ∨ (s, t) ∈ unusedPairs left right m := by
  classical
  let σ : Signal → Signal := fun s => (m.signals.get? s).getD <|
    if hs : ∃ t, (s, t) ∈ unusedPairs left right m then hs.choose else constantSignal
  have hmapped : ∀ s t, m.signals.get? s = some t → σ s = t := fun s t hs => by
    simp only [σ, hs, Option.getD_some]
  have hpaired : ∀ s t, (s, t) ∈ unusedPairs left right m → σ s = t := fun s t hmem => by
    have hnone : m.signals.get? s = none := Option.eq_none_iff_forall_ne_some.2
      (mem_unmappedSignals.1 (of_mem_unusedPairs hmem).1).2
    have hs : ∃ t, (s, t) ∈ unusedPairs left right m := ⟨t, hmem⟩
    simp only [σ, hnone, Option.getD_none, dif_pos hs]
    exact unusedPairs_functional hlength hs.choose_spec hmem
  have hfold : pairUnused left right m =
      ((unusedPairs left right m).map fun e => PairVariable.signal e.1 e.2).foldl
        (Mapping.insertPair #[] #[]) m := by
    rw [pairUnused_eq, List.foldl_map]
    rfl
  rw [hfold, Mapping.get?_signals_insertPairs (σ := σ) (fun s t hmem => ?_) hmapped]
  · simp
  · obtain ⟨e, he, heq⟩ := List.mem_map.1 hmem
    cases heq
    exact hpaired _ _ he

end Pairs

theorem constraints_pairUnused : (pairUnused left right m).constraints = m.constraints := by
  rw [pairUnused_eq]
  generalize unusedPairs left right m = pairs
  induction pairs generalizing m with
  | nil => rfl
  | cons e rest ih => exact ih

/-- A mapping of all constraints of a circuit of the same size is completed to a full equivalence. -/
theorem isFullEquivalence_pairUnused (h : m.Respects left right) (hfield : left.field = right.field)
    (hdialect : left.dialect = right.dialect) (hsignals : left.nSignals = right.nSignals)
    (hconstraints : left.nConstraints = right.nConstraints)
    (hinputs : left.inputs.size = right.inputs.size) (houtputs : left.outputs.size = right.outputs.size)
    (hsize : left.nConstraints ≤ m.constraints.size) :
    (pairUnused left right m).IsFullEquivalence left right := by
  have hlength : ∀ role,
      (unmappedSignals left m role).length = (unusedSignals right m role).length := fun role =>
    length_unmappedSignals h (Circuit.length_withRole_eq hsignals hinputs houtputs role)
  have hget : ∀ s t, (pairUnused left right m).signals.get? s = some t ↔
      m.signals.get? s = some t ∨ (s, t) ∈ unusedPairs left right m := fun _ _ =>
    get?_signals_pairUnused hlength
  have hrespects : (pairUnused left right m).Respects left right := by
    refine h.extend constraints_pairUnused (fun s t ht => (hget s t).2 (Or.inl ht))
      (fun s t ht => ?_) fun s s' t ht ht' => ?_
    · rcases (hget s t).1 ht with ht | hmem
      · exact h.signals s t ht
      · obtain ⟨hs, ht⟩ := of_mem_unusedPairs hmem
        exact ⟨(mem_unmappedSignals.1 hs).1.1, (mem_unusedSignals.1 ht).1.1,
          (mem_unusedSignals.1 ht).1.2.symm⟩
    · rcases (hget s t).1 ht with ht | hmem <;> rcases (hget s' t).1 ht' with ht' | hmem'
      · exact h.signals_injective s s' t ht ht'
      · exact absurd ht ((mem_unusedSignals.1 (of_mem_unusedPairs hmem').2).2 s)
      · exact absurd ht' ((mem_unusedSignals.1 (of_mem_unusedPairs hmem).2).2 s')
      · exact unusedPairs_injective hlength hmem hmem'
  refine hrespects.isFullEquivalence hfield hdialect hsignals hconstraints (fun s hs => ?_)
    (by rwa [constraints_pairUnused])
  by_cases hmapped : ∃ t, m.signals.get? s = some t
  · obtain ⟨t, ht⟩ := hmapped
    exact ⟨t, (hget s t).2 (Or.inl ht)⟩
  · obtain ⟨t, ht⟩ := exists_mem_unusedPairs hlength hs fun t ht => hmapped ⟨t, ht⟩
    exact ⟨t, (hget s t).2 (Or.inr ht)⟩

/-! ## Sizes -/

theorem checkSizes_eq_ok_iff : checkSizes left right = .ok () ↔
    left.dialect = right.dialect ∧ left.field = right.field ∧
      left.nConstraints = right.nConstraints ∧ left.nSignals = right.nSignals ∧
      left.inputs.size = right.inputs.size ∧ left.outputs.size = right.outputs.size := by
  have hcomparable : checkComparable left right = .ok () ↔
      left.dialect = right.dialect ∧ left.field = right.field := by
    unfold checkComparable
    by_cases hdialect : left.dialect = right.dialect
    · by_cases hfield : left.field = right.field <;> simp [hdialect, hfield]
    · simp [hdialect]
  have hcount : ∀ what l r, (if l = r then .ok () else .error (.counts what l r) :
      Except Difference Unit) = .ok () ↔ l = r := fun what l r => by
    by_cases heq : l = r <;> simp [heq]
  unfold checkSizes
  rw [bind_unit_eq_ok_iff, hcomparable, forM_eq_ok_iff]
  simp only [List.forall_mem_cons, hcount, and_assoc]
  simp

/-- Circuits of different sizes are not equivalent. -/
theorem not_equivalent_of_checkSizes {difference : Difference}
    (h : checkSizes left right = .error difference) : ¬ left.Equivalent right := by
  intro hequivalent
  have ⟨σ, κ, hacts⟩ := hequivalent
  rw [checkSizes_eq_ok_iff.2 ⟨hacts.dialect, hacts.field, hacts.nConstraints_eq, hacts.nSignals_eq,
    Circuit.size_inputs_eq hequivalent, Circuit.size_outputs_eq hequivalent⟩] at h
  cases h

end Comparison

end CircuitEquiv
