-- SUMMARY: Propagation ends with the classes of the coarsest stable partition, and its labels do not depend on the numbering.
import CircuitEquiv.Proofs.Circuit.FullEquivalence
import CircuitEquiv.Proofs.NodeClasses.Propagation

/-!
# Label propagation on renumbered vertices

A renumbering of the vertices changes the order in which a class lists its members, and nothing else:
groups are formed and labelled in the order of their keys, and keys count labels. So the rounds of two
graphs that a renumbering carries onto each other issue the same labels to corresponding vertices, from
the first labels to the last.
-/

namespace CircuitEquiv.Propagation

/-! ## Groups of renumbered items -/

/-- Groups of renumbered items, in whatever order, are the renumbered groups, their members in whatever
order. -/
theorem groupItems_map_ascending {α β κ : Type} [Ord κ] [Std.TransOrd κ] [Std.LawfulEqOrd κ]
    [DecidableEq κ] [Ord β] [Std.TransOrd β] [Std.LawfulEqOrd β] {f : α → β} {items : List α}
    {items' : List β} {label : α → ClassLabel} {label' : β → ClassLabel} {key : α → κ} {key' : β → κ}
    (hitems : items'.Perm (items.map f)) (hlabel : ∀ a ∈ items, label' (f a) = label a)
    (hkey : ∀ a ∈ items, key' (f a) = key a) :
    (groupItems label' key' items').map (fun g => (g.1, ascending g.2)) =
      (groupItems label key items).map fun g => (g.1, ascending (g.2.map f)) := by
  have hgroups : groupItems (fun a => label' (f a)) (fun a => key' (f a)) items =
      groupItems label key items := by
    rw [groupItems, groupItems, List.map_congr_left fun a ha => by rw [hlabel a ha, hkey a ha]]
  have hperm := congrArg SortedMap.entries
    (SortedMap.ascending_groupValues_eq_of_perm (hitems.map fun i => ((label' i, key' i), i)))
  refine hperm.trans ?_
  show (groupItems label' key' (items.map f)).map (fun g => (g.1, ascending g.2)) = _
  rw [groupItems_map, List.map_map, hgroups]
  rfl

variable {π : Nat → Nat} {n m : Nat} {successors predecessors successors' predecessors' : Array (List Nat)}
  {labels labels' : Array ClassLabel} {round nSingular : Nat}

/-! ## Labels of corresponding vertices -/

/-- Corresponding vertices carry the same labels. -/
structure Agree (π : Nat → Nat) (labels labels' : Array ClassLabel) : Prop where
  bijOn : Set.BijOn π (Set.Iio labels.size) (Set.Iio labels'.size)
  label_eq : ∀ v < labels.size, label labels' (π v) = label labels v

theorem label_setIfInBounds {v w : Nat} (x : ClassLabel) (hv : v < labels.size) :
    label (labels.setIfInBounds v x) w = if w = v then x else label labels w := by
  unfold label
  rw [Array.getElem?_setIfInBounds]
  by_cases h : w = v
  · subst h
    simp [hv]
  · simp [h, Ne.symm h]

theorem Agree.set (h : Agree π labels labels') {v : Nat} (hv : v < labels.size) (x : ClassLabel) :
    Agree π (labels.setIfInBounds v x) (labels'.setIfInBounds (π v) x) where
  bijOn := by
    rw [Array.size_setIfInBounds, Array.size_setIfInBounds]
    exact h.bijOn
  label_eq w hw := by
    rw [Array.size_setIfInBounds] at hw
    rw [label_setIfInBounds x hv, label_setIfInBounds x (h.bijOn.mapsTo hv), h.label_eq w hw]
    simp only [h.bijOn.injOn.eq_iff hw hv]

theorem Agree.foldl_set (h : Agree π labels labels') {vertices : List Nat}
    (hvertices : ∀ v ∈ vertices, v < labels.size) (x : ClassLabel) :
    Agree π (vertices.foldl (fun labels v => labels.setIfInBounds v x) labels)
      ((vertices.map π).foldl (fun labels v => labels.setIfInBounds v x) labels') := by
  induction vertices generalizing labels labels' with
  | nil => exact h
  | cons v rest ih =>
    obtain ⟨hv, hrest⟩ := List.forall_mem_cons.1 hvertices
    refine ih (h.set hv x) fun w hw => ?_
    rw [Array.size_setIfInBounds]
    exact hrest w hw

/-- Corresponding parts with the same labels keep corresponding vertices together. -/
theorem Agree.relabelled (h : Agree π labels labels') {parts : List (ClassLabel × List Nat)}
    (hparts : ∀ part ∈ parts, ∀ v ∈ part.2, v < labels.size) :
    Agree π (relabel labels parts) (relabel labels' (parts.map fun part => (part.1, part.2.map π))) := by
  induction parts generalizing labels labels' with
  | nil => exact h
  | cons part rest ih =>
    obtain ⟨hpart, hrest⟩ := List.forall_mem_cons.1 hparts
    refine ih (h.foldl_set hpart part.1) fun q hq v hv => ?_
    rw [size_foldl_setIfInBounds]
    exact hrest q hq v hv

/-- The order of the members of a part does not matter. -/
theorem relabel_map_of_perm {f : List Nat → List Nat} (hf : ∀ l, (f l).Perm l)
    (parts : List (ClassLabel × List Nat)) :
    relabel labels (parts.map fun part => (part.1, f part.2)) = relabel labels parts := by
  induction parts generalizing labels with
  | nil => rfl
  | cons part rest ih =>
    have hpart : (f part.2).foldl (fun labels v => labels.setIfInBounds v part.1) labels =
        part.2.foldl (fun labels v => labels.setIfInBounds v part.1) labels := by
      refine (hf part.2).foldl_eq' (fun v _ w _ labels => ?_) labels
      by_cases h : v = w
      · rw [h]
      · exact Array.setIfInBounds_comm _ _ h
    exact (congrArg (fun labels => relabel labels _) hpart).trans ih

/-- Parts that correspond up to the order of their members keep corresponding vertices together. -/
theorem Agree.relabelled_ascending (h : Agree π labels labels')
    {parts parts' : List (ClassLabel × List Nat)}
    (hparts : ∀ part ∈ parts, ∀ v ∈ part.2, v < labels.size)
    (hparts' : parts'.map (fun part => (part.1, ascending part.2)) =
      parts.map fun part => (part.1, ascending (part.2.map π))) :
    Agree π (relabel labels parts) (relabel labels' parts') := by
  have hsorted : ∀ parts : List (ClassLabel × List Nat),
      relabel labels' (parts.map fun part => (part.1, ascending part.2)) =
        relabel labels' parts := relabel_map_of_perm ascending_perm
  have hmembers : parts.map (fun part => (part.1, ascending (part.2.map π))) =
      (parts.map fun part => (part.1, part.2.map π)).map fun part => (part.1, ascending part.2) := by
    rw [List.map_map]
    rfl
  rw [← hsorted parts', hparts', hmembers, hsorted]
  exact h.relabelled hparts

/-! ## Rounds -/

/-- The neighbours of corresponding vertices correspond, in whatever order they are listed. -/
def CarriesNeighbours (π : Nat → Nat) (n : Nat) (neighbours neighbours' : Array (List Nat)) : Prop :=
  ∀ v < n, (neighbours'[π v]?.getD []).Perm ((neighbours[v]?.getD []).map π)

instance (π : Nat → Nat) (n : Nat) (neighbours neighbours' : Array (List Nat)) :
    Decidable (CarriesNeighbours π n neighbours neighbours') :=
  inferInstanceAs (Decidable (∀ v < n, (neighbours'[π v]?.getD []).Perm ((neighbours[v]?.getD []).map π)))

theorem Agree.neighbourLabels_eq (h : Agree π labels labels') {neighbours neighbours' : Array (List Nat)}
    (hneighbours : CarriesNeighbours π labels.size neighbours neighbours')
    (hwithin : IsWithin labels.size neighbours) {v : Nat} (hv : v < labels.size) :
    neighbourLabels labels' neighbours' (π v) = neighbourLabels labels neighbours v := by
  refine ascending_eq_of_perm (((hneighbours v hv).map _).trans (List.Perm.of_eq ?_))
  rw [List.map_map]
  exact List.map_congr_left fun w hw => h.label_eq w (hwithin v w hw)

theorem isSettled_ascending (l : List Nat) : isSettled (ascending l) = isSettled l := by
  rw [isSettled, isSettled, (ascending_perm l).length_eq]

theorem isSettled_ascending_map (l : List Nat) : isSettled (ascending (l.map π)) = isSettled l := by
  rw [isSettled_ascending, isSettled, isSettled, List.length_map]

/-- The open vertices of one graph correspond to those of the other. -/
theorem Agree.openVertices_perm (h : Agree π labels labels') :
    ((List.range labels'.size).filter fun v => !(label labels' v).isSingular).Perm
      (((List.range labels.size).filter fun v => !(label labels v).isSingular).map π) := by
  have hnodup : (((List.range labels.size).filter fun v =>
      !(label labels v).isSingular).map π).Nodup :=
    (List.nodup_range.filter _).map_on fun v hv w hw heq => h.bijOn.injOn
      (List.mem_range.1 (List.mem_of_mem_filter hv)) (List.mem_range.1 (List.mem_of_mem_filter hw)) heq
  refine (List.perm_ext_iff_of_nodup (List.nodup_range.filter _) hnodup).2 fun w => ?_
  simp only [List.mem_filter, List.mem_map, List.mem_range]
  constructor
  · rintro ⟨hw, hopen⟩
    obtain ⟨v, hv, rfl⟩ := h.bijOn.surjOn hw
    exact ⟨v, ⟨hv, h.label_eq v hv ▸ hopen⟩, rfl⟩
  · rintro ⟨v, ⟨hv, hopen⟩, rfl⟩
    exact ⟨h.bijOn.mapsTo hv, (h.label_eq v hv).symm ▸ hopen⟩

section Carried

variable (hsuccessors : CarriesNeighbours π labels.size successors successors')
  (hpredecessors : CarriesNeighbours π labels.size predecessors predecessors')
  (hwithin : IsWithin labels.size successors) (hwithin' : IsWithin labels.size predecessors)
include hsuccessors hpredecessors hwithin hwithin'

/-- The parts of a round correspond, and carry the same labels. -/
theorem Agree.roundParts_eq (h : Agree π labels labels') (round nSingular : Nat) :
    (roundParts successors' predecessors' round nSingular labels').1.map
        (fun part => (part.1, ascending part.2)) =
      (roundParts successors predecessors round nSingular labels).1.map
        (fun part => (part.1, ascending (part.2.map π))) ∧
    (roundParts successors' predecessors' round nSingular labels').2 =
      (roundParts successors predecessors round nSingular labels).2 := by
  have hgroups : (roundGroups successors' predecessors' labels').map (fun g => (g.1, ascending g.2)) =
      (roundGroups successors predecessors labels).map fun g => (g.1, ascending (g.2.map π)) := by
    have hlt : ∀ v ∈ (List.range labels.size).filter (fun v =>
        !(label labels v).isSingular), v < labels.size :=
      fun v hv => List.mem_range.1 (List.mem_of_mem_filter hv)
    refine groupItems_map_ascending h.openVertices_perm (fun v hv => h.label_eq v (hlt v hv)) fun v hv => ?_
    exact Prod.ext (h.neighbourLabels_eq hsuccessors hwithin (hlt v hv))
      (h.neighbourLabels_eq hpredecessors hwithin' (hlt v hv))
  have hsplit : splitGroups round isSettled nSingular
      ((roundGroups successors' predecessors' labels').map fun g => (g.1, ascending g.2)) = _ :=
    splitGroups_map isSettled_ascending _
  rw [hgroups, splitGroups_map isSettled_ascending_map] at hsplit
  exact Prod.mk.inj hsplit.symm

/-- A round splits something in both graphs or in neither. -/
theorem Agree.quiet_iff (h : Agree π labels labels') (round nSingular : Nat) :
    (roundParts successors' predecessors' round nSingular labels').1 = [] ↔
      (roundParts successors predecessors round nSingular labels).1 = [] := by
  have hparts := (h.roundParts_eq hsuccessors hpredecessors hwithin hwithin' round nSingular).1
  rw [← List.map_eq_nil_iff, hparts, List.map_eq_nil_iff]

theorem Agree.next (h : Agree π labels labels') (round nSingular : Nat) :
    Agree π (nextLabels successors predecessors round nSingular labels)
      (nextLabels successors' predecessors' round nSingular labels') := by
  refine h.relabelled_ascending (fun part hpart v hv => ?_)
    (h.roundParts_eq hsuccessors hpredecessors hwithin hwithin' round nSingular).1
  obtain ⟨g, hg, heq⟩ := mem_splitGroups hpart
  exact List.mem_range.1 (List.mem_of_mem_filter ((mem_of_mem_group hg).1 (heq ▸ hv)).1)

end Carried

/-- Runs over corresponding labels end with corresponding labels. -/
theorem Runs.agree {r : Nat} {last last' : Array ClassLabel}
    (hruns : Runs successors predecessors r nSingular labels last)
    (hruns' : Runs successors' predecessors' r nSingular labels' last') (h : Agree π labels labels')
    (hsuccessors : CarriesNeighbours π labels.size successors successors')
    (hpredecessors : CarriesNeighbours π labels.size predecessors predecessors')
    (hwithin : IsWithin labels.size successors) (hwithin' : IsWithin labels.size predecessors) :
    Agree π last last' := by
  induction hruns generalizing labels' with
  | @quiet r nSingular labels hparts =>
    have hquiet := h.quiet_iff hsuccessors hpredecessors hwithin hwithin' r nSingular
    cases hruns' with
    | quiet _ => exact h
    | split hparts' _ => exact absurd (hquiet.2 hparts) hparts'
  | @split r nSingular labels last hparts _ ih =>
    have hquiet := h.quiet_iff hsuccessors hpredecessors hwithin hwithin' r nSingular
    have hnext := h.next hsuccessors hpredecessors hwithin hwithin' r nSingular
    have hcount := (h.roundParts_eq hsuccessors hpredecessors hwithin hwithin' r nSingular).2
    have hsize := @size_nextLabels successors predecessors r nSingular labels
    cases hruns' with
    | quiet hparts' => exact absurd (hquiet.1 hparts') hparts
    | split _ hrest' =>
      rw [hcount] at hrest'
      exact ih hrest' hnext (hsize ▸ hsuccessors) (hsize ▸ hpredecessors) (hsize ▸ hwithin)
        (hsize ▸ hwithin')

/-! ## The start -/

theorem seedLabels_map {f : List Nat → List Nat} (h : ∀ l, isSettled (f l) = isSettled l)
    (rank nSingular : Nat) (lists : List (List Nat)) :
    seedLabels rank nSingular (lists.map f) =
      ((seedLabels rank nSingular lists).1.map fun part => (part.1, f part.2),
        (seedLabels rank nSingular lists).2) := by
  induction lists generalizing rank nSingular with
  | nil => rfl
  | cons vertices rest ih =>
    rw [List.map_cons, seedLabels, seedLabels, h]
    split <;> rw [ih] <;> rfl

theorem agree_replicate (hπ : Set.BijOn π (Set.Iio n) (Set.Iio m)) (x : ClassLabel) :
    Agree π (.replicate n x) (.replicate m x) where
  bijOn := by
    rw [Array.size_replicate, Array.size_replicate]
    exact hπ
  label_eq v hv := by
    rw [Array.size_replicate] at hv
    have hv' : π v < m := hπ.mapsTo hv
    simp [label, hv, hv']

section Start

variable {α : Type} [Ord α] [Std.TransOrd α] [Std.LawfulEqOrd α] [DecidableEq α]
  {initial initial' : List α}

/-- The vertices of each initial label correspond. -/
theorem seedLists_map_ascending (hπ : Set.BijOn π (Set.Iio initial.length) (Set.Iio initial'.length))
    (hinitial : ∀ v < initial.length, initial'[π v]? = initial[v]?) :
    (seedLists initial').map ascending = (seedLists initial).map fun l => ascending (l.map π) := by
  have hindices : ∀ l : List α, (l.zipIdx.map (·.2)).Nodup := fun l => by
    rw [List.zipIdx_map_snd]
    exact List.nodup_range'
  have hmapped : ((initial.zipIdx.map fun e => (e.1, π e.2)).map (·.2)).Nodup := by
    rw [List.map_map]
    show (initial.zipIdx.map (π ∘ (·.2))).Nodup
    rw [← List.map_map, List.zipIdx_map_snd, ← List.range_eq_range']
    exact List.nodup_range.map_on fun v hv w hw heq =>
      hπ.injOn (List.mem_range.1 hv) (List.mem_range.1 hw) heq
  have hperm : initial'.zipIdx.Perm (initial.zipIdx.map fun e => (e.1, π e.2)) := by
    refine (List.perm_ext_iff_of_nodup (.of_map _ (hindices initial')) (.of_map _ hmapped)).2 ?_
    rintro ⟨a, w⟩
    simp only [List.mem_map, List.mem_zipIdx_iff_getElem?, Prod.exists, Prod.mk.injEq]
    constructor
    · intro hw
      obtain ⟨hlt, -⟩ := List.getElem?_eq_some_iff.1 hw
      obtain ⟨v, hv, rfl⟩ := hπ.surjOn hlt
      exact ⟨a, v, (hinitial v hv).symm.trans hw, rfl, rfl⟩
    · rintro ⟨a, v, hv, rfl, rfl⟩
      obtain ⟨hlt, -⟩ := List.getElem?_eq_some_iff.1 hv
      exact (hinitial v hlt).trans hv
  have hgroups := congrArg SortedMap.values (SortedMap.ascending_groupValues_eq_of_perm hperm)
  rw [SortedMap.groupValues_map_snd] at hgroups
  simpa [seedLists, SortedMap.values, SortedMap.mapValues, Function.comp_def] using hgroups

theorem mem_of_mem_seedLabels {rank : Nat} {lists : List (List Nat)} {part : ClassLabel × List Nat}
    (h : part ∈ (seedLabels rank nSingular lists).1) : part.2 ∈ lists := by
  induction lists generalizing rank nSingular with
  | nil => cases h
  | cons vertices rest ih =>
    rw [seedLabels] at h
    split at h
    all_goals
      rcases List.mem_cons.1 h with rfl | h
      · exact List.mem_cons_self
      · exact List.mem_cons_of_mem _ (ih h)

theorem agree_seeded (hπ : Set.BijOn π (Set.Iio initial.length) (Set.Iio initial'.length))
    (hinitial : ∀ v < initial.length, initial'[π v]? = initial[v]?) :
    Agree π (seeded initial) (seeded initial') ∧
      (seedLabels 0 0 (seedLists initial')).2 = (seedLabels 0 0 (seedLists initial)).2 := by
  have hlists := congrArg (seedLabels 0 0) (seedLists_map_ascending hπ hinitial)
  rw [seedLabels_map isSettled_ascending, seedLabels_map isSettled_ascending_map] at hlists
  obtain ⟨hparts, hcount⟩ := Prod.mk.inj hlists
  refine ⟨(agree_replicate hπ _).relabelled_ascending (fun part hpart v hv => ?_) hparts, hcount⟩
  rw [Array.size_replicate]
  exact lt_of_mem_seedList (mem_of_mem_seedLabels hpart) hv

end Start

/-! ## Stable partitions and renumberings -/

section Numbering

variable {α : Type} {initial initial' : List α}

/-- A partition of the vertices, as the map to their parts, that refines the initial labels and gives
the vertices of a part equally many successors, and predecessors, in every part. -/
structure IsStablePartition {κ : Type} (initial : List α) (successors predecessors : Array (List Nat))
    (part : Nat → κ) : Prop where
  refines : ∀ v < initial.length, ∀ w < initial.length, part v = part w → initial[v]? = initial[w]?
  stable : IsStable successors predecessors initial.length part

theorem isWithin_iff {neighbours : Array (List Nat)} :
    IsWithin n neighbours ↔ ∀ l ∈ neighbours.toList, ∀ w ∈ l, w < n := by
  constructor
  · intro h l hl w hw
    obtain ⟨v, hv⟩ := List.mem_iff_getElem?.1 hl
    exact h v w (by rwa [← Array.getElem?_toList, hv])
  · intro h v w hw
    rw [← Array.getElem?_toList] at hw
    cases hv : neighbours.toList[v]? with
    | none => simp [hv] at hw
    | some l =>
      rw [hv, Option.getD_some] at hw
      exact h l (List.mem_of_getElem? hv) w hw

instance (n : Nat) (neighbours : Array (List Nat)) : Decidable (IsWithin n neighbours) :=
  decidable_of_iff _ isWithin_iff.symm

/-- A bijection of the vertices carries one labelled graph onto another. -/
structure IsRenumbering (π : Nat → Nat) (initial initial' : List α)
    (successors predecessors successors' predecessors' : Array (List Nat)) : Prop where
  bijOn : Set.BijOn π (Set.Iio initial.length) (Set.Iio initial'.length)
  initial_eq : ∀ v < initial.length, initial'[π v]? = initial[v]?
  successors : CarriesNeighbours π initial.length successors successors'
  predecessors : CarriesNeighbours π initial.length predecessors predecessors'

variable [Ord α] [Std.TransOrd α] [Std.LawfulEqOrd α] [DecidableEq α]

/-- The stable labels of corresponding vertices are the same. -/
theorem IsRenumbering.agree (h : IsRenumbering π initial initial' successors predecessors successors'
      predecessors') (hsuccessors : IsWithin initial.length successors)
    (hpredecessors : IsWithin initial.length predecessors) :
    Agree π (stableLabels initial successors predecessors)
      (stableLabels initial' successors' predecessors') := by
  obtain ⟨hseeded, hcount⟩ := agree_seeded h.bijOn h.initial_eq
  have hsize := size_seeded initial
  have hruns' := runs_stableLabels initial' successors' predecessors'
  rw [hcount] at hruns'
  exact (runs_stableLabels initial successors predecessors).agree hruns' hseeded (hsize ▸ h.successors)
    (hsize ▸ h.predecessors) (hsize ▸ hsuccessors) (hsize ▸ hpredecessors)

/-- Propagation computes the coarsest stable labelling, however the vertices are numbered. Its rounds
come to an end. Two vertices end with the same label exactly if they lie in one part of some partition
that refines the initial labels and whose parts count neighbours alike. And vertices that correspond
under a bijection that carries one labelled graph onto another end with identical labels. -/
theorem stableLabels_exact (initial : List α) (hsuccessors : IsWithin initial.length successors)
    (hpredecessors : IsWithin initial.length predecessors) :
    Runs successors predecessors 1 (seedLabels 0 0 (seedLists initial)).2 (seeded initial)
        (stableLabels initial successors predecessors) ∧
      (stableLabels initial successors predecessors).size = initial.length ∧
      (∀ v < initial.length, ∀ w < initial.length,
        label (stableLabels initial successors predecessors) v =
            label (stableLabels initial successors predecessors) w ↔
          ∃ (κ : Type) (part : Nat → κ),
            IsStablePartition initial successors predecessors part ∧ part v = part w) ∧
      ∀ (initial' : List α) (successors' predecessors' : Array (List Nat)) (π : Nat → Nat),
        IsRenumbering π initial initial' successors predecessors successors' predecessors' →
        ∀ v < initial.length, label (stableLabels initial' successors' predecessors') (π v) =
          label (stableLabels initial successors predecessors) v := by
  have hstable := stabilizes_stableLabels initial hsuccessors hpredecessors
  refine ⟨runs_stableLabels initial successors predecessors, hstable.size,
    fun v hv w hw => ⟨fun heq => ?_, ?_⟩, ?_⟩
  · exact ⟨ClassLabel, _, ⟨hstable.refines, hstable.stable⟩, heq⟩
  · rintro ⟨κ, part, hpart, heq⟩
    exact hstable.coarsest part hpart.stable hpart.refines v hv w hw heq
  · intro initial' successors' predecessors' π hπ v hv
    exact (hπ.agree hsuccessors hpredecessors).label_eq v (hstable.size.symm ▸ hv)

namespace Sample

/-- The successors and predecessors of a fork, one branch of which goes on. -/
def fork : Array (List Nat) × Array (List Nat) := (#[[1, 2], [], [3], []], #[[], [0], [0], [2]])

/-- The fork with other numbers. -/
def renumberedFork : Array (List Nat) × Array (List Nat) :=
  (#[[], [0, 3], [], [2]], #[[1], [], [3], [1]])

def renumber (v : Nat) : Nat := [1, 0, 3, 2].getD v v

end Sample

open Sample in
/-- The vertex at the end of the long branch gets the same label in both forks. -/
theorem stableLabels_exact_fork :
    IsWithin 4 fork.1 ∧ IsWithin 4 fork.2 ∧
      IsRenumbering renumber [0, 0, 0, 0] [0, 0, 0, 0] fork.1 fork.2 renumberedFork.1 renumberedFork.2 ∧
      label (stableLabels [0, 0, 0, 0] renumberedFork.1 renumberedFork.2) 2 =
        label (stableLabels [0, 0, 0, 0] fork.1 fork.2) 3 := by
  have hsuccessors : IsWithin 4 fork.1 := by decide
  have hpredecessors : IsWithin 4 fork.2 := by decide
  have hmaps : ∀ v < 4, renumber v < 4 := by decide
  have hinj : ∀ v < 4, ∀ w < 4, renumber v = renumber w → v = w := by decide
  have hrenumbering : IsRenumbering renumber [0, 0, 0, 0] [0, 0, 0, 0] fork.1 fork.2 renumberedFork.1
      renumberedFork.2 :=
    ⟨bijOn_Iio_of_injOn hmaps fun v hv w hw heq => hinj v hv w hw heq, by decide, by decide, by decide⟩
  exact ⟨hsuccessors, hpredecessors, hrenumbering,
    (stableLabels_exact [0, 0, 0, 0] hsuccessors hpredecessors).2.2.2 _ _ _ _ hrenumbering 3 (by decide)⟩

end Numbering

end CircuitEquiv.Propagation
