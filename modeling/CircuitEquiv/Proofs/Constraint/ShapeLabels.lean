-- SUMMARY: A shape depends on the labels of the occurring signals only, and shows exactly these.
import CircuitEquiv.Proofs.Constraint.Shape

/-!
# The labels in a shape

The shape of a constraint is built from the labels of the signals that occur in it. It changes only
when one of these labels does, and constraints with equal shapes have signals with the same labels.
-/

namespace CircuitEquiv

/-! ## Occurring signals -/

/-- The signals that occur, the constant signal of a product among them. -/
def Constraint.occurring : Constraint → List Signal
  | .r1cs r => r.a.keys ++ r.b.keys ++ r.c.keys
  | .acir p => p.signals.toList

/-- The labels that a shape shows. -/
def NormShape.labels : NormShape → List ClassLabel
  | .ordered a b c => a.map (·.1) ++ b.map (·.1) ++ c.map (·.1)
  | .unordered both single c => both.map (·.1) ++ single.map (·.1) ++ c.map (·.1)
  | .polynomial mult linear _ => (mult.flatMap fun e => [e.1.1, e.1.2]) ++ linear.map (·.1)

variable {labels labels' : Signal → ClassLabel} {x : ClassLabel}

/-- A list of relabelled signals, put in order, shows the labels of its signals. -/
theorem mem_map_ascending_relabel {β : Type} [Ord β] {l : List (Signal × β)} :
    x ∈ (ascending (l.map fun e => (labels e.1, e.2))).map (·.1) ↔
      ∃ s ∈ l.map (·.1), labels s = x := by
  simp only [List.mem_map, mem_ascending]
  constructor
  · rintro ⟨-, ⟨e, he, rfl⟩, rfl⟩
    exact ⟨e.1, ⟨e, he, rfl⟩, rfl⟩
  · rintro ⟨-, ⟨e, he, rfl⟩, rfl⟩
    exact ⟨_, ⟨e, he, rfl⟩, rfl⟩

namespace Terms

variable {t : Terms}

theorem labelled_congr (h : ∀ s ∈ t.keys, labels s = labels' s) :
    labelled t labels = labelled t labels' := by
  unfold labelled
  congr 1
  exact List.map_congr_left fun e he => by rw [h e.1 (List.mem_map_of_mem he)]

theorem mem_labelled : x ∈ (labelled t labels).map (·.1) ↔ ∃ s ∈ t.keys, labels s = x :=
  mem_map_ascending_relabel

end Terms

/-! ## Rank-one constraints -/

namespace R1csConstraint

variable {r : R1csConstraint}

theorem shape_congr (h : ∀ s ∈ (Constraint.r1cs r).occurring, labels s = labels' s) :
    r.shape labels = r.shape labels' := by
  simp only [Constraint.occurring, List.mem_append] at h
  have hc := Terms.labelled_congr fun s (hs : s ∈ r.c.keys) => h s (Or.inr hs)
  cases hu : r.isUnordered with
  | false =>
    rw [shape_of_not_isUnordered hu, shape_of_not_isUnordered hu, hc,
      Terms.labelled_congr fun s (hs : s ∈ r.a.keys) => h s (Or.inl (Or.inl hs)),
      Terms.labelled_congr fun s (hs : s ∈ r.b.keys) => h s (Or.inl (Or.inr hs))]
  | true =>
    rw [shape_of_isUnordered hu, shape_of_isUnordered hu, hc]
    congr 2
    · refine List.map_congr_left fun e he => ?_
      rw [h e.1 (Or.inl (Or.inl (mem_keys_of_mem_sharedTerms he)))]
    · refine List.map_congr_left fun e he => ?_
      rcases List.mem_append.1 he with he | he
      · rw [h e.1 (Or.inl (Or.inl (mem_keys_of_mem_termsOnlyIn he)))]
      · rw [h e.1 (Or.inl (Or.inr (mem_keys_of_mem_termsOnlyIn he)))]

/-- A signal of a factor is in both factors or in one only. -/
theorem mem_keys_iff_shared_or_single {t u : Terms} {s : Signal} :
    s ∈ t.keys ∨ s ∈ u.keys ↔
      s ∈ (sharedTerms t u).map (·.1) ∨ s ∈ (termsOnlyIn t u ++ termsOnlyIn u t).map (·.1) := by
  have honly : ∀ t u : Terms, s ∈ (termsOnlyIn t u).map (·.1) ↔ s ∈ t.keys ∧ s ∉ u.keys := by
    intro t u
    simp only [termsOnlyIn, List.mem_map, List.mem_filter, SortedMap.keys]
    constructor
    · rintro ⟨e, ⟨he, hnot⟩, rfl⟩
      refine ⟨⟨e, he, rfl⟩, fun hmem => ?_⟩
      have hcontains : u.contains e.1 = true := SortedMap.contains_iff.2 (List.mem_map.2 hmem)
      simp [hcontains] at hnot
    · rintro ⟨⟨e, he, rfl⟩, hnot⟩
      refine ⟨e, ⟨he, ?_⟩, rfl⟩
      have hcontains : u.contains e.1 = false := by
        rw [Bool.eq_false_iff]
        exact fun h => hnot (List.mem_map.1 (SortedMap.contains_iff.1 h))
      simp [hcontains]
  have hshared : s ∈ (sharedTerms t u).map (·.1) ↔ s ∈ t.keys ∧ s ∈ u.keys := by
    rw [List.mem_map, SortedMap.mem_keys_iff, SortedMap.mem_keys_iff]
    constructor
    · rintro ⟨⟨s', pair⟩, he, rfl⟩
      obtain ⟨x, y, hx, hy, -⟩ := mem_sharedTerms.1 he
      exact ⟨⟨x, hx⟩, ⟨y, hy⟩⟩
    · rintro ⟨⟨x, hx⟩, ⟨y, hy⟩⟩
      exact ⟨_, mem_sharedTerms.2 ⟨x, y, hx, hy, rfl⟩, rfl⟩
  rw [hshared, List.map_append, List.mem_append, honly, honly]
  tauto

theorem mem_labels_shape :
    x ∈ (r.shape labels).labels ↔ ∃ s ∈ (Constraint.r1cs r).occurring, labels s = x := by
  cases hu : r.isUnordered with
  | false =>
    rw [shape_of_not_isUnordered hu]
    simp only [NormShape.labels, List.mem_append, Terms.mem_labelled, Constraint.occurring,
      or_and_right, exists_or]
  | true =>
    rw [shape_of_isUnordered hu]
    simp only [NormShape.labels, List.mem_append, Terms.mem_labelled, Constraint.occurring,
      mem_map_ascending_relabel]
    constructor
    · rintro ((⟨s, hs, rfl⟩ | ⟨s, hs, rfl⟩) | ⟨s, hs, rfl⟩)
      · exact ⟨s, Or.inl (mem_keys_iff_shared_or_single.2 (Or.inl hs)), rfl⟩
      · exact ⟨s, Or.inl (mem_keys_iff_shared_or_single.2 (Or.inr hs)), rfl⟩
      · exact ⟨s, Or.inr hs, rfl⟩
    · rintro ⟨s, hs | hs, rfl⟩
      · rcases mem_keys_iff_shared_or_single.1 hs with hs | hs
        · exact Or.inl (Or.inl ⟨s, hs, rfl⟩)
        · exact Or.inl (Or.inr ⟨s, hs, rfl⟩)
      · exact Or.inr ⟨s, hs, rfl⟩

end R1csConstraint

/-! ## Polynomial constraints -/

namespace AcirConstraint

variable {p : AcirConstraint}

theorem shape_congr (h : ∀ s ∈ p.signals, labels s = labels' s) :
    p.shape labels = p.shape labels' := by
  have hmult : (p.mult.entries.map fun e => (ascendingPair (labels e.1.1) (labels e.1.2), e.2)) =
      p.mult.entries.map fun e => (ascendingPair (labels' e.1.1) (labels' e.1.2), e.2) := by
    refine List.map_congr_left fun e he => ?_
    have hkey : e.1 ∈ p.mult.keys := List.mem_map_of_mem he
    rw [h e.1.1 (mem_signals.2 (Or.inl ⟨e.1, hkey, Or.inl rfl⟩)),
      h e.1.2 (mem_signals.2 (Or.inl ⟨e.1, hkey, Or.inr rfl⟩))]
  have hlinear : (p.linear.entries.map fun e => (labels e.1, e.2)) =
      p.linear.entries.map fun e => (labels' e.1, e.2) := by
    refine List.map_congr_left fun e he => ?_
    rw [h e.1 (mem_signals.2 (Or.inr (List.mem_map_of_mem he)))]
  unfold shape
  rw [hmult, hlinear]

/-- The keys of grouped entries are those of the entries. -/
theorem mem_map_entries_groupValues {κ : Type} [Ord κ] [Std.TransOrd κ] [Std.LawfulEqOrd κ]
    [DecidableEq κ] {l : List (κ × Nat)} {k : κ} :
    k ∈ ((SortedMap.groupValues l).mapValues fun _ values => ascending values).entries.map (·.1) ↔
      k ∈ l.map (·.1) := by
  have hkeys : ∀ m : SortedMap κ (List Nat),
      (m.mapValues fun _ values => ascending values).entries.map (·.1) = m.keys := fun m => by
    simp [SortedMap.keys, SortedMap.mapValues]
  rw [hkeys, SortedMap.mem_keys_groupValues]

theorem mem_labels_shape : x ∈ (p.shape labels).labels ↔ ∃ s ∈ p.signals, labels s = x := by
  have hpair : ∀ a b : ClassLabel, x ∈ [(ascendingPair a b).1, (ascendingPair a b).2] ↔
      x = a ∨ x = b := by
    intro a b
    rw [List.mem_pair]
    unfold ascendingPair
    split
    · rfl
    · exact or_comm
  have hflat : ∀ {β : Type} (l : List ((ClassLabel × ClassLabel) × β)),
      x ∈ l.flatMap (fun e => [e.1.1, e.1.2]) ↔ ∃ k ∈ l.map (·.1), x ∈ [k.1, k.2] := by
    intro β l
    simp only [List.mem_flatMap, List.mem_map]
    constructor
    · rintro ⟨e, he, hx⟩
      exact ⟨e.1, ⟨e, he, rfl⟩, hx⟩
    · rintro ⟨-, ⟨e, he, rfl⟩, hx⟩
      exact ⟨e, he, hx⟩
  unfold shape
  simp only [NormShape.labels, List.mem_append, hflat, mem_map_entries_groupValues]
  simp only [List.mem_map, mem_signals, SortedMap.keys]
  constructor
  · rintro (⟨-, ⟨-, ⟨e, he, rfl⟩, rfl⟩, hx⟩ | ⟨-, ⟨e, he, rfl⟩, rfl⟩)
    · rcases (hpair _ _).1 hx with rfl | rfl
      · exact ⟨e.1.1, Or.inl ⟨e.1, ⟨e, he, rfl⟩, Or.inl rfl⟩, rfl⟩
      · exact ⟨e.1.2, Or.inl ⟨e.1, ⟨e, he, rfl⟩, Or.inr rfl⟩, rfl⟩
    · exact ⟨e.1, Or.inr ⟨e, he, rfl⟩, rfl⟩
  · rintro ⟨s, ⟨-, ⟨e, he, rfl⟩, hs⟩ | ⟨e, he, rfl⟩, rfl⟩
    · refine Or.inl ⟨_, ⟨_, ⟨e, he, rfl⟩, rfl⟩, (hpair _ _).2 ?_⟩
      rcases hs with rfl | rfl
      · exact Or.inl rfl
      · exact Or.inr rfl
    · exact Or.inr ⟨_, ⟨e, he, rfl⟩, rfl⟩

end AcirConstraint

/-! ## Constraints of either dialect -/

namespace Constraint

variable {c : Constraint} {s : Signal}

theorem mem_occurring_of_mem_signals (h : s ∈ c.signals) : s ∈ c.occurring := by
  cases c with
  | r1cs r =>
    have hkeys := (R1csConstraint.mem_signals.1 h).1
    simpa [occurring] using hkeys
  | acir p => exact h

theorem mem_signals_of_mem_occurring (h : s ∈ c.occurring) (hs : s ≠ constantSignal) :
    s ∈ c.signals := by
  cases c with
  | r1cs r => exact R1csConstraint.mem_signals.2 ⟨by simpa [occurring] using h, hs⟩
  | acir p => exact h

/-- The shape depends on the labels of the occurring signals. -/
theorem shape_congr (h : ∀ s ∈ c.occurring, labels s = labels' s) :
    c.shape labels = c.shape labels' := by
  cases c with
  | r1cs r => exact R1csConstraint.shape_congr h
  | acir p => exact AcirConstraint.shape_congr h

/-- The shape shows the labels of the occurring signals. -/
theorem mem_labels_shape :
    x ∈ (c.shape labels).labels ↔ ∃ s ∈ c.occurring, labels s = x := by
  cases c with
  | r1cs r => exact R1csConstraint.mem_labels_shape
  | acir p => exact AcirConstraint.mem_labels_shape

end Constraint

end CircuitEquiv
