-- SUMMARY: The classes of a refinement list every item of either side once, beside the items with the same label.
import CircuitEquiv.Equivalence.Encoding
import CircuitEquiv.Proofs.Matching.Candidates
import CircuitEquiv.Proofs.Refinement.ClassTable

/-!
# Classes

The classes of a labelling of two sides are the items of each label that is in use, left and right.
Every item is in one class, and two items share a class exactly when they share their label.
-/

namespace CircuitEquiv

namespace Labelling

variable {l : Labelling} {x y : ClassLabel}

/-- The indices of the items of one side that carry a label. -/
def sideMembers (l : Labelling) (x : ClassLabel) (k : Nat) : List Nat :=
  ((l.members x).filter (·.side = k)).map (·.index)

theorem mem_sideMembers {k a : Nat} :
    a ∈ l.sideMembers x k ↔ l.Valid ⟨k, a⟩ ∧ l.label ⟨k, a⟩ = x := by
  simp only [sideMembers, List.mem_map, List.mem_filter, decide_eq_true_eq, mem_members]
  constructor
  · rintro ⟨i, ⟨hi, rfl⟩, rfl⟩
    exact hi
  · exact fun h => ⟨⟨k, a⟩, ⟨h, rfl⟩, rfl⟩

theorem nodup_sideMembers (l : Labelling) (x : ClassLabel) (k : Nat) : (l.sideMembers x k).Nodup := by
  refine List.Nodup.map_on (fun i hi j hj heq => ?_) ((nodup_members l x).filter _)
  have hside : i.side = j.side := by
    rw [of_decide_eq_true (List.mem_filter.1 hi).2, of_decide_eq_true (List.mem_filter.1 hj).2]
  cases i
  cases j
  simp_all

/-- The class of a label on two sides. -/
def classOf (l : Labelling) (x : ClassLabel) : ClassMembers := [l.sideMembers x 0, l.sideMembers x 1]

theorem get?_classes (hsize : l.size = 2) {m : ClassMembers} :
    l.classes.get? x = some m ↔ (∃ i, l.Valid i ∧ l.label i = x) ∧ m = l.classOf x := by
  have hclass : perSide l.size (l.members x) = l.classOf x := by
    rw [hsize]
    rfl
  rw [get?_classes_eq, hclass]
  by_cases hx : l.members x = []
  · rw [if_pos hx]
    exact ⟨nofun, fun h => absurd h.1 (members_eq_nil_iff.1 hx)⟩
  · rw [if_neg hx, Option.some.injEq]
    exact ⟨fun h => ⟨not_not.1 (mt members_eq_nil_iff.2 hx), h.symm⟩, fun h => h.2.symm⟩

theorem mem_values_classes (hsize : l.size = 2) {m : ClassMembers} :
    m ∈ l.classes.values ↔ ∃ i, l.Valid i ∧ m = l.classOf (l.label i) := by
  rw [SortedMap.mem_values_iff]
  simp only [get?_classes hsize]
  constructor
  · rintro ⟨x, ⟨i, hi, rfl⟩, hm⟩
    exact ⟨i, hi, hm⟩
  · rintro ⟨i, hi, hm⟩
    exact ⟨l.label i, ⟨i, hi, rfl⟩, hm⟩

/-- Classes of different labels have no item in common. -/
theorem pairwise_values_classes (hsize : l.size = 2) :
    l.classes.values.Pairwise fun m n : ClassMembers =>
      (∀ a ∈ m.left, a ∉ n.left) ∧ ∀ a ∈ m.right, a ∉ n.right := by
  unfold SortedMap.values
  rw [List.pairwise_map]
  have hkeys : l.classes.entries.Pairwise fun e e' => e.1 ≠ e'.1 :=
    l.classes.sorted.imp ne_of_compare_lt
  refine hkeys.imp_of_mem fun {e e'} he he' hne => ?_
  have hm := ((get?_classes hsize).1 (SortedMap.get?_eq_some_iff.2 he)).2
  have hm' := ((get?_classes hsize).1 (SortedMap.get?_eq_some_iff.2 he')).2
  rw [hm, hm']
  constructor
  · intro a ha ha'
    exact hne ((mem_sideMembers.1 ha).2.symm.trans (mem_sideMembers.1 ha').2)
  · intro a ha ha'
    exact hne ((mem_sideMembers.1 ha).2.symm.trans (mem_sideMembers.1 ha').2)

end Labelling

/-! ## Partitions -/

/-- Classes that list each of `n` left and `m` right items once. -/
structure IsPartition (n m : Nat) (classes : List ClassMembers) : Prop where
  length : ∀ c ∈ classes, c.length = 2
  left_lt : ∀ c ∈ classes, ∀ l ∈ c.left, l < n
  right_lt : ∀ c ∈ classes, ∀ r ∈ c.right, r < m
  left_nodup : ∀ c ∈ classes, c.left.Nodup
  right_nodup : ∀ c ∈ classes, c.right.Nodup
  left_exists : ∀ l < n, ∃ c ∈ classes, l ∈ c.left
  right_exists : ∀ r < m, ∃ c ∈ classes, r ∈ c.right
  disjoint : classes.Pairwise fun c c' =>
    (∀ l ∈ c.left, l ∉ c'.left) ∧ ∀ r ∈ c.right, r ∉ c'.right

namespace Residual

variable {left right : Circuit} {res : Residual}

/-- What a residual of two circuits comes from. -/
theorem eq_of_ofCircuits (h : ofCircuits left right = .ok res) :
    res.leftNorms = left.normalize ∧ res.rightNorms = right.normalize ∧
      Refinement.pair left left.normalize right right.normalize = .ok res.refinement := by
  unfold ofCircuits at h
  cases hpair : Refinement.pair left left.normalize right right.normalize with
  | error e =>
    simp only [hpair] at h
    cases h
  | ok r =>
    simp only [hpair] at h
    cases h
    exact ⟨rfl, rfl, rfl⟩

variable (hres : res.refinement.IsBalanced left res.leftNorms right res.rightNorms)

include hres

theorem valid_norm_left {n : Nat} :
    res.refinement.normLabels.Valid ⟨0, n⟩ ↔ n < res.leftNorms.size := by simp [hres.norms]

theorem valid_norm_right {n : Nat} :
    res.refinement.normLabels.Valid ⟨1, n⟩ ↔ n < res.rightNorms.size := by simp [hres.norms]

theorem mem_normClasses {m : ClassMembers} :
    m ∈ res.normClasses ↔ ∃ i, res.refinement.normLabels.Valid i ∧
      m = res.refinement.normLabels.classOf (res.refinement.normLabels.label i) := by
  unfold normClasses Refinement.normClasses
  rw [(List.mergeSort_perm _ _).mem_iff, Labelling.mem_values_classes hres.size_norms]

/-- The norm classes list every norm once. -/
theorem isPartition_normClasses :
    IsPartition res.leftNorms.size res.rightNorms.size res.normClasses where
  length := fun m hm => by
    obtain ⟨i, -, rfl⟩ := (mem_normClasses hres).1 hm
    rfl
  left_lt := fun m hm n hn => by
    obtain ⟨i, -, rfl⟩ := (mem_normClasses hres).1 hm
    exact (valid_norm_left hres).1 (Labelling.mem_sideMembers.1 hn).1
  right_lt := fun m hm n hn => by
    obtain ⟨i, -, rfl⟩ := (mem_normClasses hres).1 hm
    exact (valid_norm_right hres).1 (Labelling.mem_sideMembers.1 hn).1
  left_nodup := fun m hm => by
    obtain ⟨i, -, rfl⟩ := (mem_normClasses hres).1 hm
    exact Labelling.nodup_sideMembers _ _ _
  right_nodup := fun m hm => by
    obtain ⟨i, -, rfl⟩ := (mem_normClasses hres).1 hm
    exact Labelling.nodup_sideMembers _ _ _
  left_exists := fun n hn => by
    have hvalid := (valid_norm_left hres).2 hn
    exact ⟨_, (mem_normClasses hres).2 ⟨_, hvalid, rfl⟩, Labelling.mem_sideMembers.2 ⟨hvalid, rfl⟩⟩
  right_exists := fun n hn => by
    have hvalid := (valid_norm_right hres).2 hn
    exact ⟨_, (mem_normClasses hres).2 ⟨_, hvalid, rfl⟩, Labelling.mem_sideMembers.2 ⟨hvalid, rfl⟩⟩
  disjoint := by
    unfold normClasses Refinement.normClasses
    refine ((List.mergeSort_perm _ _).pairwise_iff ?_).2
      (Labelling.pairwise_values_classes hres.size_norms)
    intro m n hmn
    exact ⟨fun a ha ha' => hmn.1 a ha' ha, fun a ha ha' => hmn.2 a ha' ha⟩

/-- Norms that carry one label are in the same class. -/
theorem mem_right_of_label_eq {m : ClassMembers} (hm : m ∈ res.normClasses) {l r : Nat}
    (hl : l ∈ m.left) (hr : r < res.rightNorms.size)
    (hlabel : res.refinement.normLabels.label ⟨1, r⟩ = res.refinement.normLabels.label ⟨0, l⟩) :
    r ∈ m.right := by
  obtain ⟨i, -, rfl⟩ := (mem_normClasses hres).1 hm
  exact Labelling.mem_sideMembers.2
    ⟨(valid_norm_right hres).2 hr, hlabel.trans (Labelling.mem_sideMembers.1 hl).2⟩

theorem mem_left_of_label_eq {m : ClassMembers} (hm : m ∈ res.normClasses) {l r : Nat}
    (hr : r ∈ m.right) (hl : l < res.leftNorms.size)
    (hlabel : res.refinement.normLabels.label ⟨1, r⟩ = res.refinement.normLabels.label ⟨0, l⟩) :
    l ∈ m.left := by
  obtain ⟨i, -, rfl⟩ := (mem_normClasses hres).1 hm
  exact Labelling.mem_sideMembers.2
    ⟨(valid_norm_left hres).2 hl, hlabel.symm.trans (Labelling.mem_sideMembers.1 hr).2⟩

end Residual

/-! ## Signal pairs -/

/-- The pairs of signals that a refinement leaves: signals with one label, the constant one apart. -/
structure Residual.IsSignalPair (left right : Circuit) (res : Residual) (s t : Signal) : Prop where
  left_ne : s ≠ constantSignal
  right_ne : t ≠ constantSignal
  left_lt : s < left.nSignals
  right_lt : t < right.nSignals
  label : res.refinement.signalLabels.label ⟨1, t⟩ = res.refinement.signalLabels.label ⟨0, s⟩

namespace Residual

variable {left right : Circuit} {res : Residual}
  (hres : res.refinement.IsBalanced left res.leftNorms right res.rightNorms)

include hres

theorem valid_signal_left {s : Signal} :
    res.refinement.signalLabels.Valid ⟨0, s⟩ ↔ s < left.nSignals := by simp [hres.signals]

theorem valid_signal_right {s : Signal} :
    res.refinement.signalLabels.Valid ⟨1, s⟩ ↔ s < right.nSignals := by simp [hres.signals]

theorem mem_classPairs_signalClasses {s t : Signal} :
    (s, t) ∈ Candidates.classPairs res.refinement.signalClasses.values ↔
      res.IsSignalPair left right s t := by
  unfold Refinement.signalClasses
  have hlength : ∀ m ∈ res.refinement.signalLabels.classes.values, m.length = 2 := fun m hm => by
    obtain ⟨i, -, rfl⟩ := (Labelling.mem_values_classes hres.size_signals).1 hm
    rfl
  rw [Candidates.mem_classPairs hlength]
  constructor
  · rintro ⟨hs, ht, m, hm, hleft, hright⟩
    obtain ⟨i, -, rfl⟩ := (Labelling.mem_values_classes hres.size_signals).1 hm
    obtain ⟨hsvalid, hslabel⟩ := Labelling.mem_sideMembers.1 hleft
    obtain ⟨htvalid, htlabel⟩ := Labelling.mem_sideMembers.1 hright
    exact ⟨hs, ht, (valid_signal_left hres).1 hsvalid, (valid_signal_right hres).1 htvalid,
      htlabel.trans hslabel.symm⟩
  · intro h
    have hsvalid := (valid_signal_left hres).2 h.left_lt
    have htvalid := (valid_signal_right hres).2 h.right_lt
    exact ⟨h.left_ne, h.right_ne, _,
      (Labelling.mem_values_classes hres.size_signals).2 ⟨_, hsvalid, rfl⟩,
      Labelling.mem_sideMembers.2 ⟨hsvalid, rfl⟩, Labelling.mem_sideMembers.2 ⟨htvalid, h.label⟩⟩

theorem IsSignalPair.role {s t : Signal} (h : res.IsSignalPair left right s t) :
    left.role s = right.role t := hres.role s h.left_lt t h.right_lt h.label.symm

/-- A balanced class that is not empty has members on both sides. -/
theorem exists_right_of_left {s : Signal} (hs : s < left.nSignals) :
    ∃ t < right.nSignals,
      res.refinement.signalLabels.label ⟨1, t⟩ = res.refinement.signalLabels.label ⟨0, s⟩ := by
  have hbalanced := hres.balanced (res.refinement.signalLabels.label ⟨0, s⟩)
  have hleft : 0 < (res.refinement.signalLabels.members
      (res.refinement.signalLabels.label ⟨0, s⟩)).countP (·.side = 0) :=
    List.countP_pos_iff.2 ⟨⟨0, s⟩,
      Labelling.mem_members.2 ⟨(valid_signal_left hres).2 hs, rfl⟩, by simp⟩
  rw [hbalanced] at hleft
  obtain ⟨⟨side, t⟩, hmem, hside⟩ := List.countP_pos_iff.1 hleft
  obtain rfl : side = 1 := of_decide_eq_true hside
  obtain ⟨hvalid, hlabel⟩ := Labelling.mem_members.1 hmem
  exact ⟨t, (valid_signal_right hres).1 hvalid, hlabel⟩

theorem exists_left_of_right {t : Signal} (ht : t < right.nSignals) :
    ∃ s < left.nSignals,
      res.refinement.signalLabels.label ⟨1, t⟩ = res.refinement.signalLabels.label ⟨0, s⟩ := by
  have hbalanced := hres.balanced (res.refinement.signalLabels.label ⟨1, t⟩)
  have hright : 0 < (res.refinement.signalLabels.members
      (res.refinement.signalLabels.label ⟨1, t⟩)).countP (·.side = 1) :=
    List.countP_pos_iff.2 ⟨⟨1, t⟩,
      Labelling.mem_members.2 ⟨(valid_signal_right hres).2 ht, rfl⟩, by simp⟩
  rw [← hbalanced] at hright
  obtain ⟨⟨side, s⟩, hmem, hside⟩ := List.countP_pos_iff.1 hright
  obtain rfl : side = 0 := of_decide_eq_true hside
  obtain ⟨hvalid, hlabel⟩ := Labelling.mem_members.1 hmem
  exact ⟨s, (valid_signal_left hres).1 hvalid, hlabel.symm⟩

/-- Every signal but the constant one is in a pair. -/
theorem exists_isSignalPair_left {s : Signal} (hs : s < left.nSignals) (hne : s ≠ constantSignal) :
    ∃ t, res.IsSignalPair left right s t := by
  obtain ⟨t, ht, hlabel⟩ := exists_right_of_left hres hs
  have hrole := hres.role s hs t ht hlabel.symm
  refine ⟨t, hne, fun h0 => hne ?_, hs, ht, hlabel⟩
  exact Circuit.role_eq_constant_iff.1 (hrole.trans (Circuit.role_eq_constant_iff.2 h0))

theorem exists_isSignalPair_right {t : Signal} (ht : t < right.nSignals) (hne : t ≠ constantSignal) :
    ∃ s, res.IsSignalPair left right s t := by
  obtain ⟨s, hs, hlabel⟩ := exists_left_of_right hres ht
  have hrole := hres.role s hs t ht hlabel.symm
  refine ⟨s, fun h0 => hne ?_, hne, hs, ht, hlabel⟩
  exact Circuit.role_eq_constant_iff.1 (hrole.symm.trans (Circuit.role_eq_constant_iff.2 h0))

end Residual

end CircuitEquiv
