-- SUMMARY: Constraints are adjacent when they share a signal, and components are the classes of linked constraints.
import CircuitEquiv.Clustering.Graph
import CircuitEquiv.Proofs.Dag.Quotient
import CircuitEquiv.Proofs.Data.Reach
import CircuitEquiv.Proofs.Refinement.SideGraph

/-!
# Constraint graphs and partitions

The edges of a constraint graph are the pairs of different constraints that share a signal. Among the
constraints that are kept, those of one component are the ones that are linked by a chain of kept
constraints, each sharing a signal with the next. The parts of a partition are the constraints of one
label, ascending and in the order of their first members. Moving the constraints of a circuit and renaming
its signals moves the chains along.
-/

namespace CircuitEquiv

open Relation (ReflTransGen)

/-! ## Parts -/

/-- Some part has both numbers. -/
def SamePart (parts : List (List Nat)) (i j : Nat) : Prop := ∃ part ∈ parts, i ∈ part ∧ j ∈ part

/-- The parts come in the order of their first members. -/
def InOrder (parts : List (List Nat)) : Prop := parts.Pairwise fun part part' =>
  part.headD 0 < part'.headD 0

namespace Reach

variable {next : Nat → List Nat} {vertices : List Nat} {i j : Nat}

/-- Two vertices are in one component if the one can be reached from the other. -/
theorem samePart_components_iff (hvertices : ∀ u ∈ vertices, ∀ v ∈ next u, v ∈ vertices)
    (hsymm : ∀ u ∈ vertices, ∀ v ∈ next u, u ∈ next v) :
    SamePart (components next vertices) i j ↔
      i ∈ vertices ∧ ReflTransGen (fun a b => b ∈ next a) i j := by
  have hcard := vertices.toFinset_card_le
  constructor
  · rintro ⟨c, hc, hi, hj⟩
    obtain ⟨v, hv, -, rfl⟩ := exists_of_mem_componentsFrom hc
    rw [mem_reachable hvertices hcard hv] at hi hj
    obtain ⟨hiv, hback⟩ := reflTransGen_symm hvertices hsymm hv hi
    exact ⟨hiv, hback.trans hj⟩
  · rintro ⟨hi, hchain⟩
    obtain ⟨c, hc, hic⟩ :=
      exists_component hvertices hcard (fun _ hv => hv) hi SortedSet.not_mem_empty
    refine ⟨c, hc, hic, ?_⟩
    obtain ⟨v, hv, -, rfl⟩ := exists_of_mem_componentsFrom hc
    rw [mem_reachable hvertices hcard hv] at hic ⊢
    exact hic.trans hchain

end Reach

theorem headD_of_least {l : List Nat} {m : Nat} (h : l.Pairwise (· < ·)) (hm : m ∈ l)
    (hle : ∀ x ∈ l, m ≤ x) : l.headD 0 = m := by
  cases l with
  | nil => cases hm
  | cons x rest =>
    refine Nat.le_antisymm ?_ (hle x List.mem_cons_self)
    rcases List.mem_cons.1 hm with rfl | hm
    · exact Nat.le_refl _
    · exact Nat.le_of_lt ((List.pairwise_cons.1 h).1 m hm)

namespace IsDivision

variable {n : Nat} {parts parts' : List (List Nat)} {part : List Nat} {i j : Nat}

theorem nodup_flatten (h : IsDivision n parts) : parts.flatten.Nodup :=
  h.cover.nodup_iff.2 List.nodup_range

theorem eq_of_mem (h : IsDivision n parts) {part' : List Nat} (hpart : part ∈ parts) (hpart' : part' ∈ parts)
    (hi : i ∈ part) (hi' : i ∈ part') : part = part' := by
  obtain ⟨-, hdisjoint⟩ := List.nodup_flatten.1 h.nodup_flatten
  by_contra hne
  have : Std.Symm (List.Disjoint : List Nat → List Nat → Prop) := ⟨fun _ _ hd => hd.symm⟩
  exact hdisjoint.forall hpart hpart' hne hi hi'

theorem mem_part_iff (h : IsDivision n parts) (hpart : part ∈ parts) (hi : i ∈ part) :
    j ∈ part ↔ SamePart parts i j :=
  ⟨fun hj => ⟨part, hpart, hi, hj⟩, fun ⟨_, hpart', hi', hj⟩ => h.eq_of_mem hpart hpart' hi hi' ▸ hj⟩

theorem lt_of_mem (h : IsDivision n parts) (hpart : part ∈ parts) (hi : i ∈ part) : i < n :=
  List.mem_range.1 (h.cover.mem_iff.1 (List.mem_flatten.2 ⟨part, hpart, hi⟩))

theorem exists_part (h : IsDivision n parts) (hi : i < n) : ∃ part ∈ parts, i ∈ part :=
  List.mem_flatten.1 (h.cover.mem_iff.2 (List.mem_range.2 hi))

theorem nodup (h : IsDivision n parts) : parts.Nodup := by
  obtain ⟨-, hdisjoint⟩ := List.nodup_flatten.1 h.nodup_flatten
  refine hdisjoint.imp_of_mem fun {a b} ha _ hab heq => ?_
  obtain ⟨i, hi⟩ := List.exists_mem_of_ne_nil a (h.ne_nil a ha)
  exact hab hi (heq ▸ hi)

/-- Every part of a division is a part of any other one that keeps the same numbers together. -/
theorem mem_of_samePart_iff (h : IsDivision n parts) (h' : IsDivision n parts')
    (hsame : ∀ i j, SamePart parts i j ↔ SamePart parts' i j) (hpart : part ∈ parts) :
    part ∈ parts' := by
  obtain ⟨i, hi⟩ := List.exists_mem_of_ne_nil part (h.ne_nil part hpart)
  obtain ⟨part', hpart', hi'⟩ := h'.exists_part (h.lt_of_mem hpart hi)
  have hperm : part.Perm part' := by
    refine (List.perm_ext_iff_of_nodup ((h.sorted part hpart).imp Nat.ne_of_lt)
      ((h'.sorted part' hpart').imp Nat.ne_of_lt)).2 fun j => ?_
    rw [h.mem_part_iff hpart hi, h'.mem_part_iff hpart' hi', hsame]
  have heq : part = part' := hperm.eq_of_pairwise
    (fun a b _ _ hab hba => absurd hba (Nat.lt_asymm hab)) (h.sorted part hpart) (h'.sorted part' hpart')
  exact heq ▸ hpart'

/-- A division is determined, up to the order of its parts, by which numbers it keeps together. -/
theorem perm_of_samePart_iff (h : IsDivision n parts) (h' : IsDivision n parts')
    (hsame : ∀ i j, SamePart parts i j ↔ SamePart parts' i j) : parts.Perm parts' :=
  (List.perm_ext_iff_of_nodup h.nodup h'.nodup).2 fun _ =>
    ⟨h.mem_of_samePart_iff h' hsame, h'.mem_of_samePart_iff h fun i j => (hsame i j).symm⟩

/-- Parts that come in the order of their first members are determined altogether. -/
theorem eq_of_samePart_iff (h : IsDivision n parts) (h' : IsDivision n parts')
    (hsame : ∀ i j, SamePart parts i j ↔ SamePart parts' i j) (horder : InOrder parts)
    (horder' : InOrder parts') : parts = parts' :=
  (h.perm_of_samePart_iff h' hsame).eq_of_pairwise
    (fun _ _ _ _ hab hba => absurd hba (Nat.lt_asymm hab)) horder horder'

theorem of_perm (h : IsDivision n parts) (hperm : parts.Perm parts') : IsDivision n parts' where
  cover := hperm.flatten.symm.trans h.cover
  ne_nil part hpart := h.ne_nil part (hperm.mem_iff.2 hpart)
  sorted part hpart := h.sorted part (hperm.mem_iff.2 hpart)

/-- Different parts have different first members. -/
theorem inOrder_of_pairwise_le (h : IsDivision n parts)
    (hle : parts.Pairwise fun part part' => part.headD 0 ≤ part'.headD 0) : InOrder parts := by
  obtain ⟨-, hdisjoint⟩ := List.nodup_flatten.1 h.nodup_flatten
  refine (hle.and hdisjoint).imp_of_mem fun {part part'} hpart hpart' ⟨hle, hdisjoint⟩ => ?_
  have hhead : ∀ {l : List Nat}, l ≠ [] → l.headD 0 ∈ l := fun {l} hne => by
    cases l with
    | nil => exact absurd rfl hne
    | cons x rest => exact List.mem_cons_self
  refine Nat.lt_of_le_of_ne hle fun heq => hdisjoint (hhead (h.ne_nil part hpart)) ?_
  rw [heq]
  exact hhead (h.ne_nil part' hpart')

section Renumbering

variable {m : Nat} {π : Nat → Nat}

/-- Numbers are together after a renumbering if they were before it. -/
theorem samePart_map_iff (h : IsDivision n parts) (hπ : Set.InjOn π (Set.Iio n)) (hi : i < n)
    (hj : j < n) : SamePart (parts.map fun part => ascending (part.map π)) (π i) (π j) ↔
      SamePart parts i j := by
  have hmem : ∀ part ∈ parts, ∀ k < n, π k ∈ ascending (part.map π) ↔ k ∈ part :=
    fun part hpart k hk => by
      rw [mem_ascending, List.mem_map]
      refine ⟨fun ⟨x, hx, heq⟩ => ?_, fun hk => ⟨k, hk, rfl⟩⟩
      exact hπ (h.lt_of_mem hpart hx) hk heq ▸ hx
  simp only [SamePart, List.mem_map, exists_exists_and_eq_and]
  exact exists_congr fun part => and_congr_right fun hpart =>
    and_congr (hmem part hpart i hi) (hmem part hpart j hj)

theorem map (h : IsDivision n parts) (hπ : Set.BijOn π (Set.Iio n) (Set.Iio m)) :
    IsDivision m (parts.map fun part => ascending (part.map π)) where
  cover := by
    have hpart : ∀ parts : List (List Nat),
        (parts.map fun part => ascending (part.map π)).flatten.Perm (parts.flatten.map π) := by
      intro parts
      induction parts with
      | nil => exact .nil
      | cons part rest ih =>
        rw [List.map_cons, List.flatten_cons, List.flatten_cons, List.map_append]
        exact (ascending_perm _).append ih
    have hrange : ((List.range n).map π).Perm (List.range m) := by
      refine (List.perm_ext_iff_of_nodup ?_ List.nodup_range).2 fun x => ?_
      · exact List.nodup_range.map_on fun a ha b hb =>
          hπ.injOn (List.mem_range.1 ha) (List.mem_range.1 hb)
      · rw [List.mem_map, List.mem_range]
        constructor
        · rintro ⟨k, hk, rfl⟩
          exact hπ.mapsTo (List.mem_range.1 hk)
        · intro hx
          obtain ⟨k, hk, rfl⟩ := hπ.surjOn hx
          exact ⟨k, List.mem_range.2 hk, rfl⟩
    exact ((hpart parts).trans (h.cover.map π)).trans hrange
  ne_nil part' hpart' := by
    obtain ⟨part, hpart, rfl⟩ := List.mem_map.1 hpart'
    obtain ⟨i, hi⟩ := List.exists_mem_of_ne_nil part (h.ne_nil part hpart)
    exact List.ne_nil_of_mem (mem_ascending.2 (List.mem_map_of_mem hi))
  sorted part' hpart' := by
    obtain ⟨part, hpart, rfl⟩ := List.mem_map.1 hpart'
    refine pairwise_lt_ascending (List.Nodup.map_on (fun a ha b hb => ?_)
      ((h.sorted part hpart).imp Nat.ne_of_lt))
    exact hπ.injOn (h.lt_of_mem hpart ha) (h.lt_of_mem hpart hb)

/-- Divisions that keep the same numbers together under a renumbering have the renumbered parts. -/
theorem perm_map_of_samePart_iff (h : IsDivision n parts) (h' : IsDivision m parts')
    (hπ : Set.BijOn π (Set.Iio n) (Set.Iio m))
    (hsame : ∀ i < n, ∀ j < n, SamePart parts' (π i) (π j) ↔ SamePart parts i j) :
    parts'.Perm (parts.map fun part => ascending (part.map π)) := by
  refine h'.perm_of_samePart_iff (h.map hπ) fun x y => ?_
  -- the parts on either side have numbers only that the renumbering reaches
  have hforward : ∀ i < n, ∀ j < n, SamePart parts' (π i) (π j) ↔
      SamePart (parts.map fun part => ascending (part.map π)) (π i) (π j) := fun i hi j hj =>
    (hsame i hi j hj).trans (h.samePart_map_iff hπ.injOn hi hj).symm
  constructor
  · rintro hxy
    obtain ⟨part, hpart, hx, hy⟩ := id hxy
    obtain ⟨i, hi, rfl⟩ := hπ.surjOn (h'.lt_of_mem hpart hx)
    obtain ⟨j, hj, rfl⟩ := hπ.surjOn (h'.lt_of_mem hpart hy)
    exact (hforward i hi j hj).1 hxy
  · rintro hxy
    obtain ⟨part, hpart, hx, hy⟩ := id hxy
    obtain ⟨i, hi, rfl⟩ := hπ.surjOn ((h.map hπ).lt_of_mem hpart hx)
    obtain ⟨j, hj, rfl⟩ := hπ.surjOn ((h.map hπ).lt_of_mem hpart hy)
    exact (hforward i hi j hj).2 hxy

end Renumbering

end IsDivision

/-! ## Partitions -/

theorem idxOf_lt_of_filter {l : List Nat} {p : Nat → Bool} {a b : Nat} (ha : p a = true)
    (hb : p b = true) (h : (l.filter p).idxOf a < (l.filter p).idxOf b) : l.idxOf a < l.idxOf b := by
  induction l with
  | nil => exact absurd h (Nat.lt_irrefl _)
  | cons x rest ih =>
    by_cases hx : p x = true
    · rw [List.filter_cons_of_pos hx] at h
      simp only [List.idxOf_cons] at h ⊢
      grind
    · have hxa : x ≠ a := fun heq => hx (heq ▸ ha)
      have hxb : x ≠ b := fun heq => hx (heq ▸ hb)
      rw [List.filter_cons_of_neg hx] at h
      simp only [List.idxOf_cons, beq_eq_false_iff_ne.2 hxa, beq_eq_false_iff_ne.2 hxb, cond_false]
      exact Nat.succ_lt_succ (ih h)

/-- Elements without repetition are listed in the order of their first places. -/
theorem pairwise_eraseDups : ∀ l : List Nat, l.eraseDups.Pairwise fun a b => l.idxOf a < l.idxOf b
  | [] => .nil
  | x :: rest => by
    rw [List.eraseDups_cons]
    refine List.pairwise_cons.2 ⟨fun b hb => ?_, (pairwise_eraseDups _).imp_of_mem fun ha hb hab => ?_⟩
    · have hne : b ≠ x := by simpa using List.of_mem_filter (List.mem_eraseDups.1 hb)
      simp [List.idxOf_cons, beq_eq_false_iff_ne.2 hne.symm]
    · have hpa := List.of_mem_filter (List.mem_eraseDups.1 ha)
      have hpb := List.of_mem_filter (List.mem_eraseDups.1 hb)
      have hlt := idxOf_lt_of_filter hpa hpb hab
      have hax := Ne.symm (by simpa using hpa)
      have hbx := Ne.symm (by simpa using hpb)
      simp only [List.idxOf_cons, beq_eq_false_iff_ne.2 hax, beq_eq_false_iff_ne.2 hbx, cond_false]
      exact Nat.succ_lt_succ hlt
termination_by l => l.length
decreasing_by exact Nat.lt_succ_of_le (List.length_filter_le _ _)

namespace Partition

variable {p : Partition} {n i j : Nat} {label : Nat → Nat}

theorem samePart_parts_iff : SamePart p.parts i j ↔ i < p.size ∧ p.labels[i]? = p.labels[j]? := by
  constructor
  · rintro ⟨_, hpart, hi, hj⟩
    obtain ⟨label, -, rfl⟩ := List.mem_map.1 hpart
    rw [mem_members] at hi hj
    exact ⟨(List.getElem?_eq_some_iff.1 hi).1, hi.trans hj.symm⟩
  · rintro ⟨hi, heq⟩
    have hget := List.getElem?_eq_getElem hi
    exact ⟨p.members p.labels[i], List.mem_map_of_mem (List.mem_eraseDups.2 (List.getElem_mem hi)),
      mem_members.2 hget, mem_members.2 (heq ▸ hget)⟩

/-- The first member of a part is the first place of its label. -/
theorem headD_members {label : Nat} (h : label ∈ p.labels) :
    (p.members label).headD 0 = p.labels.idxOf label := by
  refine headD_of_least (p.pairwise_members label) ?_ fun i hi => ?_
  · have hlt := List.idxOf_lt_length_of_mem h
    rw [mem_members, List.getElem?_eq_getElem hlt, List.getElem_idxOf hlt]
  · obtain ⟨hlt, heq⟩ := List.getElem?_eq_some_iff.1 (mem_members.1 hi)
    by_contra hle
    exact absurd heq (by simpa using List.not_of_lt_findIdx (Nat.lt_of_not_le hle))

theorem inOrder_parts (p : Partition) : InOrder p.parts := by
  refine List.pairwise_map.2 ((pairwise_eraseDups p.labels).imp_of_mem fun ha hb hab => ?_)
  rwa [headD_members (List.mem_eraseDups.1 ha), headD_members (List.mem_eraseDups.1 hb)]

@[simp]
theorem size_ofFunction : (ofFunction n label).size = n := by simp [ofFunction, size]

theorem samePart_ofFunction_iff :
    SamePart (ofFunction n label).parts i j ↔ i < n ∧ j < n ∧ label i = label j := by
  rw [samePart_parts_iff, size_ofFunction]
  simp only [ofFunction, List.getElem?_map]
  by_cases hi : i < n
  · by_cases hj : j < n <;> simp [hi, hj]
  · simp [hi]

theorem isDivision_ofFunction (n : Nat) (label : Nat → Nat) :
    IsDivision n (ofFunction n label).parts := by
  have h := isDivision_parts (ofFunction n label)
  rwa [size_ofFunction] at h

section Places

variable {parts : List (List Nat)}

theorem placeOf_lt (h : i ∈ parts.flatten) : placeOf parts i < parts.length := by
  obtain ⟨part, hpart, hi⟩ := List.mem_flatten.1 h
  exact List.findIdx_lt_length_of_exists ⟨part, hpart, List.contains_iff_mem.2 hi⟩

theorem exists_getElem?_placeOf (h : i ∈ parts.flatten) :
    ∃ part, parts[placeOf parts i]? = some part ∧ i ∈ part := by
  have hlt : parts.findIdx (·.contains i) < parts.length := placeOf_lt h
  exact ⟨_, List.getElem?_eq_getElem hlt, List.contains_iff_mem.1 (List.findIdx_getElem (w := hlt))⟩

/-- The place of a number is that of the only part that has it. -/
theorem placeOf_eq_of_mem (hnodup : parts.flatten.Nodup) {part : List Nat} {k : Nat}
    (hpart : parts[k]? = some part) (hi : i ∈ part) : placeOf parts i = k := by
  have hmem : i ∈ parts.flatten := List.mem_flatten.2 ⟨part, List.mem_of_getElem? hpart, hi⟩
  obtain ⟨part', hpart', hi'⟩ := exists_getElem?_placeOf hmem
  by_contra hne
  obtain ⟨-, hdisjoint⟩ := List.nodup_flatten.1 hnodup
  obtain ⟨hlt', rfl⟩ := List.getElem?_eq_some_iff.1 hpart'
  obtain ⟨hlt, rfl⟩ := List.getElem?_eq_some_iff.1 hpart
  rcases Nat.lt_or_gt_of_ne hne with h | h
  · exact List.pairwise_iff_getElem.1 hdisjoint _ _ hlt' hlt h hi' hi
  · exact List.pairwise_iff_getElem.1 hdisjoint _ _ hlt hlt' h hi hi'

/-- Numbers have the same place if some part has both. -/
theorem placeOf_eq_iff (hnodup : parts.flatten.Nodup) (hi : i ∈ parts.flatten)
    (hj : j ∈ parts.flatten) : placeOf parts i = placeOf parts j ↔ SamePart parts i j := by
  obtain ⟨part, hpart, hip⟩ := exists_getElem?_placeOf hi
  obtain ⟨part', hpart', hjp⟩ := exists_getElem?_placeOf hj
  constructor
  · intro heq
    rw [heq, hpart', Option.some.injEq] at hpart
    exact ⟨part, List.mem_of_getElem? (hpart ▸ hpart'), hip, hpart ▸ hjp⟩
  · rintro ⟨_, hmem, hi', hj'⟩
    obtain ⟨a, ha⟩ := List.mem_iff_getElem?.1 hmem
    rw [placeOf_eq_of_mem hnodup ha hi', placeOf_eq_of_mem hnodup ha hj']

/-- Numbers are together if some part has both; a number in no part is alone. -/
theorem samePart_ofDisjoint_iff (hnodup : parts.flatten.Nodup) (hlt : ∀ i ∈ parts.flatten, i < n) :
    SamePart (ofDisjoint n parts).parts i j ↔
      SamePart parts i j ∨ i = j ∧ i < n ∧ i ∉ parts.flatten := by
  have hany : ∀ k, parts.any (·.contains k) = true ↔ k ∈ parts.flatten := fun k => by
    simp only [List.any_eq_true, List.contains_iff_mem, List.mem_flatten]
  have hmem : SamePart parts i j → i ∈ parts.flatten ∧ j ∈ parts.flatten := fun ⟨part, hpart, hi, hj⟩ =>
    ⟨List.mem_flatten.2 ⟨part, hpart, hi⟩, List.mem_flatten.2 ⟨part, hpart, hj⟩⟩
  rw [ofDisjoint, samePart_ofFunction_iff]
  -- the label of a member is the place of its part, and the labels of the others lie above all places
  by_cases hi : i ∈ parts.flatten
  · by_cases hj : j ∈ parts.flatten
    · rw [if_pos ((hany i).2 hi), if_pos ((hany j).2 hj), placeOf_eq_iff hnodup hi hj,
        and_iff_right (hlt i hi), and_iff_right (hlt j hj)]
      simp [hi]
    · have hplace := placeOf_lt hi
      rw [if_pos ((hany i).2 hi), if_neg fun h => hj ((hany j).1 h)]
      constructor
      · rintro ⟨-, -, heq⟩
        omega
      · rintro (h | ⟨-, -, h⟩)
        · exact absurd (hmem h).2 hj
        · exact absurd hi h
  · have hnot : ¬SamePart parts i j := fun h => hi (hmem h).1
    rw [if_neg fun h => hi ((hany i).1 h)]
    by_cases hj : j ∈ parts.flatten
    · have hplace := placeOf_lt hj
      have hne : i ≠ j := fun heq => hi (heq ▸ hj)
      rw [if_pos ((hany j).2 hj)]
      simp only [hnot, hne, false_and, or_self, iff_false]
      omega
    · rw [if_neg fun h => hj ((hany j).1 h)]
      simp only [hnot, hi, not_false_eq_true, and_true, false_or, Nat.add_left_cancel_iff]
      exact ⟨fun ⟨hin, _, heq⟩ => ⟨heq, hin⟩, fun ⟨heq, hin⟩ => ⟨hin, heq ▸ hin, heq⟩⟩

end Places

end Partition

/-! ## Sharing a signal -/

namespace Circuit

variable (circuit : Circuit)

/-- Two constraints have a signal in common. The constant signal does not count: it is none of the
signals of a constraint. -/
def SharesSignal (i j : Nat) : Prop :=
  ∃ c d, circuit.constraints[i]? = some c ∧ circuit.constraints[j]? = some d ∧
    ∃ s, s ∈ c.signals ∧ s ∈ d.signals

/-- A chain of constraints with a property leads from one constraint to another, and each shares a signal
with the next. -/
def Linked (P : Nat → Prop) (i j : Nat) : Prop :=
  P i ∧ ReflTransGen (fun a b => P b ∧ circuit.SharesSignal a b) i j

variable {circuit} {P Q : Nat → Prop} {i j k : Nat}

theorem sharesSignal_iff {c d : Constraint} (hc : circuit.constraints[i]? = some c)
    (hd : circuit.constraints[j]? = some d) :
    circuit.SharesSignal i j ↔ ∃ s, s ∈ c.signals ∧ s ∈ d.signals := by
  constructor
  · rintro ⟨c', d', hc', hd', hshare⟩
    obtain rfl := Option.some.inj (hc.symm.trans hc')
    obtain rfl := Option.some.inj (hd.symm.trans hd')
    exact hshare
  · exact fun hshare => ⟨c, d, hc, hd, hshare⟩

theorem SharesSignal.symm (h : circuit.SharesSignal i j) : circuit.SharesSignal j i := by
  obtain ⟨c, d, hc, hd, s, hs, ht⟩ := h
  exact ⟨d, c, hd, hc, s, ht, hs⟩

theorem SharesSignal.lt_left (h : circuit.SharesSignal i j) : i < circuit.nConstraints := by
  obtain ⟨c, -, hc, -, -⟩ := h
  exact (Array.getElem?_eq_some_iff.1 hc).1

theorem SharesSignal.lt_right (h : circuit.SharesSignal i j) : j < circuit.nConstraints :=
  h.symm.lt_left

namespace Linked

theorem refl (h : P i) : circuit.Linked P i i := ⟨h, .refl⟩

theorem right (h : circuit.Linked P i j) : P j := by
  obtain ⟨hi, hchain⟩ := h
  cases hchain with
  | refl => exact hi
  | tail _ hstep => exact hstep.1

theorem tail (h : circuit.Linked P i j) (hk : P k) (hshare : circuit.SharesSignal j k) :
    circuit.Linked P i k := ⟨h.1, h.2.tail ⟨hk, hshare⟩⟩

theorem trans (h : circuit.Linked P i j) (h' : circuit.Linked P j k) : circuit.Linked P i k :=
  ⟨h.1, h.2.trans h'.2⟩

theorem symm (h : circuit.Linked P i j) : circuit.Linked P j i := by
  obtain ⟨hi, hchain⟩ := h
  induction hchain with
  | refl => exact refl hi
  | tail hchain hstep ih =>
    have hmiddle : P _ := right ⟨hi, hchain⟩
    exact trans (tail (refl hstep.1) hmiddle hstep.2.symm) ih

theorem mono (h : circuit.Linked P i j) (hPQ : ∀ k, P k → Q k) : circuit.Linked Q i j :=
  ⟨hPQ i h.1, ReflTransGen.mono (fun _ b hb => ⟨hPQ b hb.1, hb.2⟩) _ _ h.2⟩

/-- A chain stays among the constraints that are linked to where it starts. -/
theorem within (h : circuit.Linked P i j) : circuit.Linked (circuit.Linked P i) i j := by
  obtain ⟨hi, hchain⟩ := h
  induction hchain with
  | refl => exact refl (refl hi)
  | tail hchain hstep ih => exact ih.tail (tail ⟨hi, hchain⟩ hstep.1 hstep.2) hstep.2

end Linked

end Circuit

/-! ## Rearranged circuits -/

/-- What a checked renaming makes of the signals. -/
theorem Constraint.mem_signals_of_signalMap {f : Signal → Signal} {c d : Constraint}
    (h : c.signalMap f = .ok d) {s : Signal} : s ∈ d.signals ↔
      ∃ t ∈ c.signals, (if t = constantSignal then constantSignal else f t) = s := by
  obtain ⟨hne, -, rfl⟩ := signalMap_eq_ok_iff.1 h
  cases c with
  | acir p => exact AcirConstraint.mem_signals_rename
  | r1cs r =>
    have hsignals : ∀ {t}, t ∈ (r1cs r).signals ↔
        (t ∈ r.a.keys ∨ t ∈ r.b.keys ∨ t ∈ r.c.keys) ∧ t ≠ constantSignal :=
      R1csConstraint.mem_signals
    refine R1csConstraint.mem_signals.trans ?_
    simp only [R1csConstraint.rename, Terms.rename_eq_mapKeys, SortedMap.mem_keys_mapKeys]
    constructor
    · rintro ⟨hkeys, hs⟩
      obtain ⟨t, ht, rfl⟩ : ∃ t, (t ∈ r.a.keys ∨ t ∈ r.b.keys ∨ t ∈ r.c.keys) ∧
          (if t = constantSignal then constantSignal else f t) = s := by
        rcases hkeys with ⟨t, ht, rfl⟩ | ⟨t, ht, rfl⟩ | ⟨t, ht, rfl⟩
        · exact ⟨t, Or.inl ht, rfl⟩
        · exact ⟨t, Or.inr (Or.inl ht), rfl⟩
        · exact ⟨t, Or.inr (Or.inr ht), rfl⟩
      exact ⟨t, hsignals.2 ⟨ht, fun h0 => hs (if_pos h0)⟩, rfl⟩
    · rintro ⟨t, ht, rfl⟩
      obtain ⟨hkeys, h0⟩ := hsignals.1 ht
      refine ⟨?_, by rw [if_neg h0]; exact hne t ht⟩
      rcases hkeys with hkey | hkey | hkey
      · exact Or.inl ⟨t, hkey, rfl⟩
      · exact Or.inr (Or.inl ⟨t, hkey, rfl⟩)
      · exact Or.inr (Or.inr ⟨t, hkey, rfl⟩)

theorem Constraint.isNonlinear_of_signalMap {f : Signal → Signal} {c d : Constraint}
    (h : c.signalMap f = .ok d) : d.isNonlinear = c.isNonlinear := by
  obtain ⟨-, -, rfl⟩ := signalMap_eq_ok_iff.1 h
  cases c with
  | r1cs r => exact congrArg (!·) (R1csConstraint.isLinear_rename r)
  | acir p =>
    show (!(p.rename _).mult.isEmpty) = !p.mult.isEmpty
    rw [AcirConstraint.mult_rename, SortedMap.isEmpty_mapKeys]

namespace Circuit

/-- The constraints of the second circuit are those of the first one in another order, with the signals
renamed; no two signals that occur get one name. -/
structure IsRearrangement (circuit circuit' : Circuit) (π : Nat → Nat) (f : Signal → Signal) :
    Prop where
  bijOn : Set.BijOn π (Set.Iio circuit.nConstraints) (Set.Iio circuit'.nConstraints)
  injOn : Set.InjOn f {s | ∃ c ∈ circuit.constraints.toList, s ∈ c.signals}
  renamed : ∀ k c, circuit.constraints[k]? = some c →
    ∃ d, c.signalMap f = .ok d ∧ circuit'.constraints[π k]? = some d

namespace IsRearrangement

variable {circuit circuit' : Circuit} {π : Nat → Nat} {f : Signal → Signal} {i j : Nat}
  (h : circuit.IsRearrangement circuit' π f)
include h

theorem sharesSignal_iff (hi : i < circuit.nConstraints) (hj : j < circuit.nConstraints) :
    circuit'.SharesSignal (π i) (π j) ↔ circuit.SharesSignal i j := by
  obtain ⟨c, hc⟩ : ∃ c, circuit.constraints[i]? = some c := ⟨_, Array.getElem?_eq_getElem hi⟩
  obtain ⟨d, hd⟩ : ∃ d, circuit.constraints[j]? = some d := ⟨_, Array.getElem?_eq_getElem hj⟩
  obtain ⟨c', hrc, hc'⟩ := h.renamed i c hc
  obtain ⟨d', hrd, hd'⟩ := h.renamed j d hd
  rw [Circuit.sharesSignal_iff hc hd, Circuit.sharesSignal_iff hc' hd']
  simp only [Constraint.mem_signals_of_signalMap hrc, Constraint.mem_signals_of_signalMap hrd]
  constructor
  · rintro ⟨_, ⟨s, hs, rfl⟩, t, ht, heq⟩
    refine ⟨s, hs, ?_⟩
    have hfs := (Constraint.signalMap_eq_ok_iff.1 hrc).1 s hs
    have hft := (Constraint.signalMap_eq_ok_iff.1 hrd).1 t ht
    suffices s = t from this ▸ ht
    by_cases hs0 : s = constantSignal
    · by_cases ht0 : t = constantSignal
      · rw [hs0, ht0]
      · rw [if_pos hs0, if_neg ht0] at heq
        exact absurd heq hft
    · by_cases ht0 : t = constantSignal
      · rw [if_neg hs0, if_pos ht0] at heq
        exact absurd heq.symm hfs
      · rw [if_neg hs0, if_neg ht0] at heq
        exact h.injOn ⟨c, List.mem_of_getElem? (Array.getElem?_toList ▸ hc), hs⟩
          ⟨d, List.mem_of_getElem? (Array.getElem?_toList ▸ hd), ht⟩ heq.symm
  · rintro ⟨s, hs, ht⟩
    exact ⟨_, ⟨s, hs, rfl⟩, s, ht, rfl⟩

/-- Chains follow the constraints. -/
theorem linked_iff {P Q : Nat → Prop} (hPQ : ∀ k < circuit.nConstraints, Q (π k) ↔ P k)
    (hi : i < circuit.nConstraints) (hj : j < circuit.nConstraints) :
    circuit'.Linked Q (π i) (π j) ↔ circuit.Linked P i j := by
  constructor
  · rintro ⟨hQ, hchain⟩
    have hback : ∀ x, ReflTransGen (fun a b => Q b ∧ circuit'.SharesSignal a b) (π i) x →
        ∃ k < circuit.nConstraints, π k = x ∧ circuit.Linked P i k := by
      intro x hx
      induction hx with
      | refl => exact ⟨i, hi, rfl, .refl ((hPQ i hi).1 hQ)⟩
      | tail _ hstep ih =>
        obtain ⟨a, ha, rfl, hlinked⟩ := ih
        obtain ⟨b, hb, rfl⟩ := h.bijOn.surjOn hstep.2.lt_right
        exact ⟨b, hb, rfl, hlinked.tail ((hPQ b hb).1 hstep.1) ((h.sharesSignal_iff ha hb).1 hstep.2)⟩
    obtain ⟨k, hk, heq, hlinked⟩ := hback _ hchain
    exact h.bijOn.injOn hk hj heq ▸ hlinked
  · rintro ⟨hP, hchain⟩
    induction hchain with
    | refl => exact .refl ((hPQ i hi).2 hP)
    | tail _ hstep ih =>
      have ha := hstep.2.lt_left
      have hb := hstep.2.lt_right
      exact (ih ha).tail ((hPQ _ hb).2 hstep.1) ((h.sharesSignal_iff ha hb).2 hstep.2)

end IsRearrangement

end Circuit

namespace Circuit

variable {circuit : Circuit} {i j k : Nat}

/-! ## Occurrences -/

/-- Every signal that occurs in a constraint, with the index of the constraint. -/
def incidences (circuit : Circuit) : List (Signal × Nat) :=
  circuit.constraints.toList.zipIdx.flatMap fun (c, i) => c.signals.toList.map fun s => (s, i)

theorem mem_incidences {s : Signal} :
    (s, k) ∈ circuit.incidences ↔ ∃ c, circuit.constraints[k]? = some c ∧ s ∈ c.signals := by
  simp only [incidences, List.mem_flatMap, List.mem_map, Prod.exists, List.mem_zipIdx_iff_getElem?,
    Array.getElem?_toList]
  constructor
  · rintro ⟨c, _, hc, _, hs, heq⟩
    cases heq
    exact ⟨c, hc, hs⟩
  · rintro ⟨c, hc, hs⟩
    exact ⟨c, k, hc, s, hs, rfl⟩

theorem getElem?_occurrences (circuit : Circuit) (s : Signal) : circuit.occurrences[s]? =
    if s < circuit.nSignals then some ((circuit.incidences.filter (·.1 = s)).map (·.2)) else none := by
  have htable := getElem?_foldl_modify circuit.incidences (Array.replicate circuit.nSignals []) s
  rw [Array.getElem?_replicate] at htable
  show (Array.map List.reverse _)[s]? = _
  rw [Array.getElem?_map]
  refine (congrArg (Option.map List.reverse) htable).trans ?_
  split <;> simp

/-- The incidences of one signal come in the order of the constraints. -/
theorem pairwise_incidences (circuit : Circuit) :
    circuit.incidences.Pairwise fun e e' => e.1 = e'.1 → e.2 < e'.2 := by
  rw [incidences, List.pairwise_flatMap]
  constructor
  · rintro ⟨c, i⟩ -
    rw [List.pairwise_map]
    exact (SortedSet.nodup_toList c.signals).imp fun hne heq => absurd heq hne
  · have hindices : (circuit.constraints.toList.zipIdx.map Prod.snd).Pairwise (· < ·) := by
      rw [List.zipIdx_map_snd]
      exact List.pairwise_lt_range'
    refine (List.pairwise_map.1 hindices).imp ?_
    rintro ⟨c, i⟩ ⟨d, j⟩ hij e he e' he'
    obtain ⟨s, -, rfl⟩ := List.mem_map.1 he
    obtain ⟨t, -, rfl⟩ := List.mem_map.1 he'
    exact fun _ => hij

/-- The lists of occurrences are ascending. -/
theorem pairwise_of_mem_occurrences {users : List Nat} (h : users ∈ circuit.occurrences.toList) :
    users.Pairwise (· < ·) := by
  obtain ⟨s, hs⟩ := List.mem_iff_getElem?.1 h
  rw [Array.getElem?_toList, getElem?_occurrences] at hs
  split at hs
  · obtain rfl := Option.some.inj hs
    rw [List.pairwise_map]
    refine (circuit.pairwise_incidences.filter _).imp_of_mem fun he he' hlt => hlt ?_
    exact (of_decide_eq_true (List.mem_filter.1 he).2).trans
      (of_decide_eq_true (List.mem_filter.1 he').2).symm
  · cases hs

/-- Constraints share a signal if some list of occurrences has both. -/
theorem exists_mem_occurrences_iff :
    (∃ users ∈ circuit.occurrences.toList, i ∈ users ∧ j ∈ users) ↔ circuit.SharesSignal i j := by
  have hmem : ∀ s k, k ∈ (circuit.incidences.filter (·.1 = s)).map (·.2) ↔
      ∃ c, circuit.constraints[k]? = some c ∧ s ∈ c.signals := fun s k => by
    rw [← mem_incidences]
    simp
  constructor
  · rintro ⟨users, husers, hi, hj⟩
    obtain ⟨s, hs⟩ := List.mem_iff_getElem?.1 husers
    rw [Array.getElem?_toList, getElem?_occurrences] at hs
    split at hs
    · obtain rfl := Option.some.inj hs
      obtain ⟨c, hc, hsc⟩ := (hmem s i).1 hi
      obtain ⟨d, hd, hsd⟩ := (hmem s j).1 hj
      exact ⟨c, d, hc, hd, s, hsc, hsd⟩
    · cases hs
  · rintro ⟨c, d, hc, hd, s, hsc, hsd⟩
    have hlt := lt_nSignals_of_mem_signals hc hsc
    have husers := getElem?_occurrences circuit s
    rw [if_pos hlt, ← Array.getElem?_toList] at husers
    exact ⟨_, List.mem_of_getElem? husers, (hmem s i).2 ⟨c, hc, hsc⟩, (hmem s j).2 ⟨d, hd, hsd⟩⟩

end Circuit

/-! ## Edges -/

namespace ConstraintGraph

variable {circuit : Circuit} {keep : Nat → Bool} {i j : Nat}

theorem mem_keys_addWeight {table : Array (SortedMap Nat Nat)} {a b u v : Nat} :
    v ∈ ((addWeight table a b)[u]?.getD SortedMap.empty).keys ↔
      v ∈ (table[u]?.getD SortedMap.empty).keys ∨ u = a ∧ v = b ∧ a < table.size := by
  rw [addWeight, Array.getElem?_modify]
  by_cases hu : a = u
  · subst hu
    rw [if_pos rfl]
    by_cases ha : a < table.size
    · rw [Array.getElem?_eq_getElem ha, Option.map_some, Option.getD_some, Option.getD_some,
        SortedMap.mem_keys_iff, SortedMap.mem_keys_iff, SortedMap.get?_upsert]
      by_cases hv : v = b <;> simp [hv, ha]
    · simp [ha]
  · simp [hu, Ne.symm hu]

theorem size_addWeight {table : Array (SortedMap Nat Nat)} {a b : Nat} :
    (addWeight table a b).size = table.size := Array.size_modify

/-- A table that edges are added to has their ends as neighbours of each other. -/
theorem mem_keys_foldl_addWeight (edges : List (Nat × Nat)) {table : Array (SortedMap Nat Nat)}
    {u v : Nat} (hu : u < table.size) :
    v ∈ ((edges.foldl (fun table (a, b) => addWeight (addWeight table a b) b a)
        table)[u]?.getD SortedMap.empty).keys ↔
      v ∈ (table[u]?.getD SortedMap.empty).keys ∨ (u, v) ∈ edges ∨ (v, u) ∈ edges := by
  induction edges generalizing table with
  | nil => simp
  | cons e rest ih =>
    obtain ⟨a, b⟩ := e
    have hsize : u < (addWeight (addWeight table a b) b a).size := by
      rwa [size_addWeight, size_addWeight]
    rw [List.foldl_cons, ih hsize, mem_keys_addWeight, mem_keys_addWeight, size_addWeight]
    simp only [List.mem_cons, Prod.mk.injEq]
    grind

theorem size_foldl_addWeight (edges : List (Nat × Nat)) (table : Array (SortedMap Nat Nat)) :
    (edges.foldl (fun table (a, b) => addWeight (addWeight table a b) b a) table).size =
      table.size := by
  induction edges generalizing table with
  | nil => rfl
  | cons e rest ih => rw [List.foldl_cons, ih, size_addWeight, size_addWeight]

@[simp]
theorem size_restricted (circuit : Circuit) (keep : Nat → Bool) :
    (restricted circuit keep).size = circuit.nConstraints := by
  rw [size, restricted, size_foldl_addWeight, Array.size_replicate]

/-- The neighbours of a kept constraint are the other kept constraints that share a signal with it. -/
theorem mem_keys_edges : j ∈ ((restricted circuit keep).edges i).keys ↔
    i ≠ j ∧ keep i = true ∧ keep j = true ∧ circuit.SharesSignal i j := by
  by_cases hi : i < circuit.nConstraints
  · have hpair : ∀ a b, (a, b) ∈ circuit.occurrences.toList.flatMap
        (fun users => pairsOf (users.filter keep)) ↔
        a < b ∧ keep a = true ∧ keep b = true ∧ circuit.SharesSignal a b := fun a b => by
      rw [List.mem_flatMap, ← Circuit.exists_mem_occurrences_iff]
      constructor
      · rintro ⟨users, husers, hab⟩
        obtain ⟨ha, hb, hlt⟩ := mem_pairsOf_of_pairwise
          ((Circuit.pairwise_of_mem_occurrences husers).filter keep) hab
        rw [List.mem_filter] at ha hb
        exact ⟨hlt, ha.2, hb.2, users, husers, ha.1, hb.1⟩
      · rintro ⟨hlt, hka, hkb, users, husers, ha, hb⟩
        exact ⟨users, husers, mem_pairsOf_of_lt
          ((Circuit.pairwise_of_mem_occurrences husers).filter keep)
          (List.mem_filter.2 ⟨ha, hka⟩) (List.mem_filter.2 ⟨hb, hkb⟩) hlt⟩
    have hsize : i < (Array.replicate circuit.nConstraints (SortedMap.empty : SortedMap Nat Nat)).size := by
      rwa [Array.size_replicate]
    rw [edges, restricted, mem_keys_foldl_addWeight _ hsize, hpair, hpair, Array.getElem?_replicate,
      if_pos hi, Option.getD_some]
    constructor
    · rintro (h | ⟨hlt, hki, hkj, hshare⟩ | ⟨hlt, hkj, hki, hshare⟩)
      · cases h
      · exact ⟨hlt.ne, hki, hkj, hshare⟩
      · exact ⟨hlt.ne', hki, hkj, hshare.symm⟩
    · rintro ⟨hne, hki, hkj, hshare⟩
      rcases Nat.lt_or_gt_of_ne hne with hlt | hgt
      · exact Or.inr (Or.inl ⟨hlt, hki, hkj, hshare⟩)
      · exact Or.inr (Or.inr ⟨hgt, hkj, hki, hshare.symm⟩)
  · have hnone : (restricted circuit keep).neighbours[i]? = none :=
      Array.getElem?_eq_none (by
        have hsize := size_restricted circuit keep
        rw [size] at hsize
        omega)
    rw [edges, hnone]
    exact ⟨fun h => absurd h List.not_mem_nil, fun h => absurd h.2.2.2.lt_left hi⟩

/-! ## Components -/

section Components

variable {kept : Nat → Bool} (hkeep : ∀ k, keep k = true → kept k = true)

/-- The neighbours that a search among some of the kept constraints follows. -/
def nextIn (circuit : Circuit) (kept keep : Nat → Bool) (v : Nat) : List Nat :=
  ((restricted circuit kept).edges v).keys.filter keep

theorem mem_nextIn : j ∈ nextIn circuit kept keep i ↔
    keep j = true ∧ i ≠ j ∧ kept i = true ∧ kept j = true ∧ circuit.SharesSignal i j := by
  rw [nextIn, List.mem_filter, mem_keys_edges]
  exact and_comm

theorem mem_vertices {v : Nat} : v ∈ (List.range (restricted circuit kept).size).filter keep ↔
    v < circuit.nConstraints ∧ keep v = true := by
  rw [List.mem_filter, List.mem_range, size_restricted]

theorem mem_vertices_of_mem_nextIn (u : Nat)
    (_hu : u ∈ (List.range (restricted circuit kept).size).filter keep) (v : Nat)
    (hv : v ∈ nextIn circuit kept keep u) :
    v ∈ (List.range (restricted circuit kept).size).filter keep := by
  obtain ⟨hkv, -, -, -, hshare⟩ := mem_nextIn.1 hv
  exact mem_vertices.2 ⟨hshare.lt_right, hkv⟩

theorem mem_nextIn_symm (u : Nat)
    (hu : u ∈ (List.range (restricted circuit kept).size).filter keep) (v : Nat)
    (hv : v ∈ nextIn circuit kept keep u) : u ∈ nextIn circuit kept keep v := by
  obtain ⟨-, hne, hku, hkv, hshare⟩ := mem_nextIn.1 hv
  exact mem_nextIn.2 ⟨(mem_vertices.1 hu).2, hne.symm, hkv, hku, hshare.symm⟩

include hkeep in
theorem linked_iff_reflTransGen (hi : keep i = true) : circuit.Linked (keep · = true) i j ↔
    ReflTransGen (fun a b => b ∈ nextIn circuit kept keep a) i j := by
  constructor
  · rintro ⟨-, hchain⟩
    induction hchain with
    | refl => exact .refl
    | @tail a b hchain hstep ih =>
      by_cases hab : a = b
      · exact hab ▸ ih
      · have ha : keep a = true := Circuit.Linked.right ⟨hi, hchain⟩
        exact ih.tail (mem_nextIn.2 ⟨hstep.1, hab, hkeep a ha, hkeep b hstep.1, hstep.2⟩)
  · intro hchain
    refine ⟨hi, ReflTransGen.mono (fun a b hb => ?_) _ _ hchain⟩
    obtain ⟨hkb, -, -, -, hshare⟩ := mem_nextIn.1 hb
    exact ⟨hkb, hshare⟩

/-- The components share out the constraints that are searched. -/
theorem perm_flatten_components (circuit : Circuit) (kept keep : Nat → Bool) :
    ((restricted circuit kept).components keep).flatten.Perm
      ((List.range circuit.nConstraints).filter keep) := by
  rw [← size_restricted circuit kept]
  exact Reach.perm_flatten_components (List.nodup_range.filter keep) mem_vertices_of_mem_nextIn
    mem_nextIn_symm

include hkeep in
/-- Two constraints are in one component if they are linked. -/
theorem samePart_components_iff : SamePart ((restricted circuit kept).components keep) i j ↔
    i < circuit.nConstraints ∧ circuit.Linked (keep · = true) i j := by
  have hparts : SamePart ((restricted circuit kept).components keep) i j ↔
      i ∈ (List.range (restricted circuit kept).size).filter keep ∧
        ReflTransGen (fun a b => b ∈ nextIn circuit kept keep a) i j :=
    Reach.samePart_components_iff mem_vertices_of_mem_nextIn mem_nextIn_symm
  rw [hparts, mem_vertices, and_assoc]
  refine and_congr_right fun _ => ⟨fun ⟨hi, h⟩ => (linked_iff_reflTransGen hkeep hi).2 h, fun h => ?_⟩
  exact ⟨h.1, (linked_iff_reflTransGen hkeep h.1).1 h⟩

/-- A component is ascending. -/
theorem pairwise_of_mem_components {c : List Nat}
    (hc : c ∈ (restricted circuit kept).components keep) : c.Pairwise (· < ·) := by
  obtain ⟨v, -, -, rfl⟩ := Reach.exists_of_mem_componentsFrom hc
  exact List.pairwise_map.2 ((SortedMap.sorted _).imp Nat.compare_eq_lt.1)

end Components

end ConstraintGraph

end CircuitEquiv
