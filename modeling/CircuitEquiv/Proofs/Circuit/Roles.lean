-- SUMMARY: How many signals of each role a circuit has, and when two circuits agree on that.
import CircuitEquiv.Proofs.Circuit.FullEquivalence

/-!
# Roles

Every signal has one of four roles, and the outputs and inputs are those of two of them. Circuits with
as many signals, inputs and outputs so have as many signals of every role, and a full equivalence
makes sure of it.
-/

namespace CircuitEquiv.Circuit

variable {left right circuit : Circuit} {role : SignalRole} {s : Signal}

/-! ## Outputs and inputs -/

theorem role_eq_output_iff : circuit.role s = .output ↔ s ∈ circuit.outputs := by
  unfold Circuit.role
  by_cases h0 : s = constantSignal
  · subst h0
    simpa using fun h => (circuit.outputs_declarable _ h).1 rfl
  · by_cases hs : s ∈ circuit.outputs
    · simp [h0, hs]
    · by_cases hs' : s ∈ circuit.inputs <;> simp [h0, hs, hs']

theorem role_eq_input_iff : circuit.role s = .input ↔ s ∈ circuit.inputs := by
  unfold Circuit.role
  by_cases h0 : s = constantSignal
  · subst h0
    simpa using fun h => (circuit.inputs_declarable _ h).1 rfl
  · by_cases hs : s ∈ circuit.inputs
    · simp [h0, hs, circuit.inputs_disjoint_outputs s hs]
    · by_cases hs' : s ∈ circuit.outputs <;> simp [h0, hs, hs']

/-! ## Signals of a role -/

/-- The signals of a role, in ascending order. -/
def withRole (circuit : Circuit) (role : SignalRole) : List Signal :=
  (List.range circuit.nSignals).filter (circuit.role · = role)

theorem mem_withRole : s ∈ circuit.withRole role ↔ s < circuit.nSignals ∧ circuit.role s = role := by
  simp [withRole]

theorem nodup_withRole : (circuit.withRole role).Nodup := List.nodup_range.filter _

theorem withRole_constant_perm (circuit : Circuit) :
    (circuit.withRole .constant).Perm [constantSignal] := by
  refine (List.perm_ext_iff_of_nodup nodup_withRole (List.nodup_singleton _)).2 fun s => ?_
  rw [mem_withRole, role_eq_constant_iff, List.mem_singleton]
  exact ⟨And.right, fun h => ⟨h ▸ circuit.nSignals_pos, h⟩⟩

theorem withRole_output_perm (circuit : Circuit) :
    (circuit.withRole .output).Perm circuit.outputs.toList := by
  refine (List.perm_ext_iff_of_nodup nodup_withRole (SortedSet.nodup_toList _)).2 fun s => ?_
  rw [mem_withRole, role_eq_output_iff, ← SortedSet.mem_def]
  exact ⟨And.right, fun h => ⟨(circuit.outputs_declarable s h).2, h⟩⟩

theorem withRole_input_perm (circuit : Circuit) :
    (circuit.withRole .input).Perm circuit.inputs.toList := by
  refine (List.perm_ext_iff_of_nodup nodup_withRole (SortedSet.nodup_toList _)).2 fun s => ?_
  rw [mem_withRole, role_eq_input_iff, ← SortedSet.mem_def]
  exact ⟨And.right, fun h => ⟨(circuit.inputs_declarable s h).2, h⟩⟩

/-- Every element has one of the four roles. -/
theorem length_eq_add_roles (role : Signal → SignalRole) (l : List Signal) :
    l.length = (l.filter (role · = .constant)).length + (l.filter (role · = .output)).length +
      (l.filter (role · = .input)).length + (l.filter (role · = .internal)).length := by
  induction l with
  | nil => rfl
  | cons s rest ih =>
    cases h : role s <;> simp [h] <;> omega

theorem nSignals_eq_add_roles (circuit : Circuit) :
    circuit.nSignals = 1 + circuit.outputs.size + circuit.inputs.size +
      (circuit.withRole .internal).length := by
  have hsum := length_eq_add_roles circuit.role (List.range circuit.nSignals)
  rw [List.length_range] at hsum
  have hconstant := circuit.withRole_constant_perm.length_eq
  have houtputs := circuit.withRole_output_perm.length_eq
  have hinputs := circuit.withRole_input_perm.length_eq
  unfold withRole at hconstant houtputs hinputs ⊢
  rw [hconstant, houtputs, hinputs] at hsum
  exact hsum

/-- Circuits with as many signals, inputs and outputs have as many signals of every role. -/
theorem length_withRole_eq (hsignals : left.nSignals = right.nSignals)
    (hinputs : left.inputs.size = right.inputs.size) (houtputs : left.outputs.size = right.outputs.size)
    (role : SignalRole) : (left.withRole role).length = (right.withRole role).length := by
  cases role with
  | constant => rw [left.withRole_constant_perm.length_eq, right.withRole_constant_perm.length_eq]
  | output =>
    rw [left.withRole_output_perm.length_eq, right.withRole_output_perm.length_eq]
    exact houtputs
  | input =>
    rw [left.withRole_input_perm.length_eq, right.withRole_input_perm.length_eq]
    exact hinputs
  | internal =>
    have hleft := left.nSignals_eq_add_roles
    have hright := right.nSignals_eq_add_roles
    omega

/-- A full equivalence maps the signals of a role to those of this role. -/
theorem map_withRole_perm {σ : Signal → Signal} {κ : Nat → Nat}
    (h : FullEquivalence left right σ κ) (role : SignalRole) :
    ((left.withRole role).map σ).Perm (right.withRole role) := by
  have hnodup : ((left.withRole role).map σ).Nodup :=
    nodup_withRole.map_on fun s hs t ht heq =>
      h.signals.injOn (mem_withRole.1 hs).1 (mem_withRole.1 ht).1 heq
  refine (List.perm_ext_iff_of_nodup hnodup nodup_withRole).2 fun t => ?_
  simp only [List.mem_map, mem_withRole]
  constructor
  · rintro ⟨s, ⟨hs, hrole⟩, rfl⟩
    exact ⟨h.signals.mapsTo hs, (h.role s hs).trans hrole⟩
  · rintro ⟨ht, hrole⟩
    obtain ⟨s, hs, rfl⟩ := h.signals.surjOn ht
    exact ⟨s, ⟨hs, (h.role s hs).symm.trans hrole⟩, rfl⟩

theorem size_inputs_eq (h : left.Equivalent right) : left.inputs.size = right.inputs.size := by
  obtain ⟨σ, κ, h⟩ := h
  have hlength := (map_withRole_perm h .input).length_eq
  rwa [List.length_map, left.withRole_input_perm.length_eq,
    right.withRole_input_perm.length_eq] at hlength

theorem size_outputs_eq (h : left.Equivalent right) : left.outputs.size = right.outputs.size := by
  obtain ⟨σ, κ, h⟩ := h
  have hlength := (map_withRole_perm h .output).length_eq
  rwa [List.length_map, left.withRole_output_perm.length_eq,
    right.withRole_output_perm.length_eq] at hlength

end CircuitEquiv.Circuit
