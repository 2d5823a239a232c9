-- SUMMARY: Label propagation ends with the coarsest stable labels that refine the initial ones.
import CircuitEquiv.Propagation
import CircuitEquiv.Proofs.Refinement.ClassTable
import CircuitEquiv.Proofs.Refinement.Saturation

/-!
# Label propagation

Propagation over a graph splits classes as refinement of one side does, with a key that counts the
labels of neighbours. It stops by itself, because every round that splits brings more labels into use.
Vertices with equal final labels then have equally many neighbours of every label, and vertices that
no round can tell apart keep equal labels.
-/

namespace CircuitEquiv.Propagation

open RefinementState (HasBeenIssued SettlesOne)

/-! ## Vertices as items of one side -/

/-- A vertex as an item of the only side. -/
def vertex (v : Nat) : Item := ⟨0, v⟩

/-- Labels of vertices as labels of items. -/
def asSide (labels : Array ClassLabel) : Labelling := #[labels]

/-- A part with its vertices as items. -/
def onSide (part : ClassLabel × List Nat) : ClassLabel × List Item := (part.1, part.2.map vertex)

section Side

variable {labels : Array ClassLabel} {v w : Nat} {i : Item}

theorem label_asSide (labels : Array ClassLabel) (v : Nat) :
    (asSide labels).label (vertex v) = label labels v := rfl

theorem valid_vertex : (asSide labels).Valid (vertex v) ↔ v < labels.size := Iff.rfl

theorem exists_vertex (h : (asSide labels).Valid i) : ∃ v < labels.size, i = vertex v := by
  obtain ⟨side, v⟩ := i
  match side with
  | 0 => exact ⟨v, h, rfl⟩
  | side + 1 => simp [Labelling.Valid, asSide] at h

theorem items_asSide (labels : Array ClassLabel) :
    (asSide labels).items = (List.range labels.size).map vertex := by
  rw [Labelling.items_eq]
  show (List.range 1).flatMap _ = _
  simp [Labelling.sideSize, asSide, vertex, List.range_succ]

theorem setIfInBounds_asSide (labels : Array ClassLabel) (v : Nat) (x : ClassLabel) :
    (asSide labels).set (vertex v) x = asSide (labels.setIfInBounds v x) := by
  simp [Labelling.set, asSide, vertex, Array.modify, Array.modifyM]

theorem relabel_asSide (labels : Array ClassLabel) (parts : List (ClassLabel × List Nat)) :
    (asSide labels).relabel (parts.map onSide) = asSide (relabel labels parts) := by
  have hvertices : ∀ (x : ClassLabel) (vertices : List Nat) (labels : Array ClassLabel),
      (vertices.map vertex).foldl (fun l i => l.set i x) (asSide labels) =
        asSide (vertices.foldl (fun labels v => labels.setIfInBounds v x) labels) := by
    intro x vertices
    induction vertices with
    | nil => exact fun _ => rfl
    | cons v rest ih =>
      intro labels
      rw [List.map_cons, List.foldl_cons, setIfInBounds_asSide, ih, List.foldl_cons]
  induction parts generalizing labels with
  | nil => rfl
  | cons part rest ih =>
    rw [List.map_cons, Labelling.relabel_cons, onSide, hvertices, ih]
    rfl

theorem size_foldl_setIfInBounds (vertices : List Nat) (x : ClassLabel) :
    (vertices.foldl (fun labels v => labels.setIfInBounds v x) labels).size = labels.size := by
  induction vertices generalizing labels with
  | nil => rfl
  | cons v rest ih => rw [List.foldl_cons, ih, Array.size_setIfInBounds]

theorem size_relabel (labels : Array ClassLabel) (parts : List (ClassLabel × List Nat)) :
    (relabel labels parts).size = labels.size := by
  induction parts generalizing labels with
  | nil => rfl
  | cons part rest ih => exact (ih _).trans (size_foldl_setIfInBounds part.2 part.1)

end Side

/-! ## Groups of vertices -/

section Groups

variable {α β κ : Type}

theorem groupItems_map [Ord κ] [Std.TransOrd κ] [Std.LawfulEqOrd κ] [DecidableEq κ] (f : α → β)
    (label : β → ClassLabel) (key : β → κ) (items : List α) :
    groupItems label key (items.map f) =
      (groupItems (fun a => label (f a)) (fun a => key (f a)) items).map fun g => (g.1, g.2.map f) := by
  have hentries : (items.map f).map (fun i => ((label i, key i), i)) =
      (items.map fun a => ((label (f a), key (f a)), a)).map fun e => (e.1, f e.2) := by
    rw [List.map_map, List.map_map]
    rfl
  rw [groupItems, hentries, SortedMap.groupValues_map_snd]
  rfl

theorem splitParts_map (f : List α → List β) (groups : List (Group κ α)) :
    splitParts (groups.map fun g => (g.1, f g.2)) = (splitParts groups).map fun g => (g.1, f g.2) := by
  unfold splitParts
  rw [List.filter_map]
  refine congrArg _ (List.filter_congr fun g _ => ?_)
  simp only [Function.comp_def, List.countP_map]

theorem labelParts_map {round : Nat} {settled : List α → Bool} {settled' : List β → Bool}
    {f : List α → List β} (h : ∀ l, settled' (f l) = settled l) (supply : LabelSupply)
    (groups : List (Group κ α)) :
    labelParts round settled' supply (groups.map fun g => (g.1, f g.2)) =
      ((labelParts round settled supply groups).1.map fun part => (part.1, f part.2),
        (labelParts round settled supply groups).2) := by
  induction groups generalizing supply with
  | nil => rfl
  | cons g rest ih => rw [List.map_cons, labelParts_cons, labelParts_cons, h, ih, List.map_cons]

/-- Changing the members of groups, but not which groups are settled, changes the members of the
parts only. -/
theorem splitGroups_map {round nSingular : Nat} {settled : List α → Bool} {settled' : List β → Bool}
    {f : List α → List β} (h : ∀ l, settled' (f l) = settled l) (groups : List (Group κ α)) :
    splitGroups round settled' nSingular (groups.map fun g => (g.1, f g.2)) =
      ((splitGroups round settled nSingular groups).1.map fun part => (part.1, f part.2),
        (splitGroups round settled nSingular groups).2) := by
  unfold splitGroups
  rw [splitParts_map, labelParts_map h]

theorem isSettled_map_vertex (vertices : List Nat) :
    RefinementState.isSettled 1 (vertices.map vertex) = isSettled vertices := by
  have hcount : (vertices.map vertex).countP (·.side = 0) = vertices.length := by
    rw [← List.length_map (f := vertex)]
    exact List.countP_eq_length.2 fun i hi => by
      obtain ⟨v, -, rfl⟩ := List.mem_map.1 hi
      rfl
  unfold RefinementState.isSettled RefinementState.sizes isSettled
  rw [List.range_one, List.map_singleton, hcount]
  simp

theorem seedLabels_map_vertex (rank nSingular : Nat) (lists : List (List Nat)) :
    RefinementState.seedLabels 1 rank nSingular (lists.map (·.map vertex)) =
      ((seedLabels rank nSingular lists).1.map onSide, (seedLabels rank nSingular lists).2) := by
  induction lists generalizing rank nSingular with
  | nil => rfl
  | cons vertices rest ih =>
    rw [List.map_cons, seedLabels_cons, isSettled_map_vertex, seedLabels]
    split <;> rw [ih] <;> rfl

end Groups

/-! ## Rounds -/

/-- The key of a vertex under the given labels. -/
def neighbourKey (successors predecessors : Array (List Nat)) (labels : Array ClassLabel) (v : Nat) :
    NeighbourKey :=
  (neighbourLabels labels successors v, neighbourLabels labels predecessors v)

instance : Std.TransOrd NeighbourKey := inferInstanceAs (Std.TransOrd (List ClassLabel × List ClassLabel))

/-- The groups of a round. -/
def roundGroups (successors predecessors : Array (List Nat)) (labels : Array ClassLabel) :
    List (Group NeighbourKey Nat) :=
  groupItems (label labels) (neighbourKey successors predecessors labels)
    ((List.range labels.size).filter fun v => !(label labels v).isSingular)

/-- The parts of a round, and the number of settled classes afterwards. -/
def roundParts (successors predecessors : Array (List Nat)) (round nSingular : Nat)
    (labels : Array ClassLabel) : List (ClassLabel × List Nat) × Nat :=
  splitGroups round isSettled nSingular (roundGroups successors predecessors labels)

/-- A run is over with a round that splits nothing. -/
theorem run_succ (successors predecessors : Array (List Nat)) (fuel round nSingular : Nat)
    (labels : Array ClassLabel) :
    run successors predecessors (fuel + 1) round nSingular labels =
      if (roundParts successors predecessors round nSingular labels).1.isEmpty then labels
      else run successors predecessors fuel (round + 1)
        (roundParts successors predecessors round nSingular labels).2
        (relabel labels (roundParts successors predecessors round nSingular labels).1) := rfl

/-- The labels as those of a side whose open classes are looked at in the next round. -/
def sideMode (labels : Array ClassLabel) : RefinementMode :=
  ⟨asSide labels, .ofList (RefinementState.openLabels (asSide labels) (asSide labels).items)⟩

/-- A state before the given round. -/
def sideState (round nSingular : Nat) (labels : Array ClassLabel) : RefinementState :=
  ⟨sideMode labels, sideMode labels, nSingular, round, []⟩

section Round

variable {successors predecessors : Array (List Nat)} {round nSingular : Nat} {labels : Array ClassLabel}
  {v w : Nat}

theorem mem_frontier_sideMode {i : Item} (hi : (asSide labels).Valid i) :
    (asSide labels).label i ∈ (sideMode labels).frontier ↔
      ((asSide labels).label i).isSingular = false := by
  rw [sideMode, SortedSet.mem_ofList, RefinementState.openLabels, List.mem_filter]
  have hmem : (asSide labels).label i ∈ (asSide labels).items.map (asSide labels).label :=
    List.mem_map_of_mem (Labelling.mem_items.2 hi)
  simp [hmem]

/-- The key of a vertex as an item. -/
def itemKey (successors predecessors : Array (List Nat)) (labels : Array ClassLabel) (i : Item) :
    NeighbourKey := neighbourKey successors predecessors labels i.index

/-- The groups of a round of refinement on the side. -/
abbrev sideGroups (successors predecessors : Array (List Nat)) (labels : Array ClassLabel) :
    List (Group NeighbourKey Item) :=
  RefinementState.frontierGroups (sideMode labels) (itemKey successors predecessors labels)

/-- The parts of a round are those of a round of refinement on one side. -/
theorem roundParts_onSide :
    ((roundParts successors predecessors (round + 1) nSingular labels).1.map onSide,
        (roundParts successors predecessors (round + 1) nSingular labels).2) =
      (sideState round nSingular labels).splitRound 1 (sideGroups successors predecessors labels) := by
  have hitems : (asSide labels).items.filter
        (fun i => (sideMode labels).labels.label i ∈ (sideMode labels).frontier) =
      ((List.range labels.size).filter fun v => !(label labels v).isSingular).map vertex := by
    rw [show (sideMode labels).labels = asSide labels from rfl, items_asSide, List.filter_map]
    refine congrArg _ (List.filter_congr fun v hv => ?_)
    have hvalid : (asSide labels).Valid (vertex v) := valid_vertex.2 (List.mem_range.1 hv)
    rw [Function.comp_apply, Bool.eq_iff_iff, decide_eq_true_eq, mem_frontier_sideMode hvalid,
      label_asSide, Bool.not_eq_true']
  have hgroups : sideGroups successors predecessors labels =
      (roundGroups successors predecessors labels).map fun g => (g.1, g.2.map vertex) := by
    have hunfold : sideGroups successors predecessors labels =
        groupItems (asSide labels).label (itemKey successors predecessors labels)
          ((asSide labels).items.filter
            fun i => (sideMode labels).labels.label i ∈ (sideMode labels).frontier) := rfl
    rw [hunfold, hitems, groupItems_map, roundGroups]
    rfl
  rw [hgroups, RefinementState.splitRound, splitGroups_map isSettled_map_vertex]
  rfl

/-- The labels after a round. -/
def nextLabels (successors predecessors : Array (List Nat)) (round nSingular : Nat)
    (labels : Array ClassLabel) : Array ClassLabel :=
  relabel labels (roundParts successors predecessors round nSingular labels).1

theorem asSide_nextLabels :
    asSide (nextLabels successors predecessors (round + 1) nSingular labels) =
      (sideMode labels).labels.relabel ((sideState round nSingular labels).splitRound 1
        (sideGroups successors predecessors labels)).1 := by
  rw [nextLabels, ← relabel_asSide, ← roundParts_onSide]
  rfl

theorem size_nextLabels :
    (nextLabels successors predecessors round nSingular labels).size = labels.size := size_relabel _ _

/-- What holds of the labels before every round: they have been issued, and a settled one belongs to
one vertex. -/
structure IsRunning (round nSingular : Nat) (labels : Array ClassLabel) : Prop where
  issued : ∀ i, (asSide labels).Valid i → HasBeenIssued round nSingular ((asSide labels).label i)
  settles : SettlesOne (asSide labels)

theorem IsRunning.eq_of_isSingular (h : IsRunning round nSingular labels) (hv : v < labels.size)
    (hw : w < labels.size) (heq : label labels v = label labels w)
    (hsingular : (label labels v).isSingular = true) : v = w :=
  congrArg Item.index (h.settles (vertex v) (vertex w) hv hw heq hsingular rfl)

theorem IsRunning.isSplit (h : IsRunning round nSingular labels) :
    (sideMode labels).labels.IsSplit ((sideState round nSingular labels).splitRound 1
      (sideGroups successors predecessors labels)).1 :=
  RefinementState.isSplit_splitRound h.issued

theorem IsRunning.next (h : IsRunning round nSingular labels) :
    IsRunning (round + 1) (roundParts successors predecessors (round + 1) nSingular labels).2
      (nextLabels successors predecessors (round + 1) nSingular labels) where
  issued i hi := by
    rw [asSide_nextLabels, Labelling.valid_relabel] at hi
    rw [asSide_nextLabels, congrArg Prod.snd roundParts_onSide]
    exact RefinementState.hasBeenIssued_relabel_splitRound (s := sideState round nSingular labels) h.issued hi
  settles := by
    rw [asSide_nextLabels]
    exact h.settles.relabel h.isSplit fun part hpart => RefinementState.isSingular_labelParts hpart

/-- The part of a vertex that a round moves. -/
theorem IsRunning.label_nextLabels_of_mem (h : IsRunning round nSingular labels)
    {part : ClassLabel × List Item}
    (hpart : part ∈ ((sideState round nSingular labels).splitRound 1
      (sideGroups successors predecessors labels)).1) (hv : vertex v ∈ part.2) :
    label (nextLabels successors predecessors (round + 1) nSingular labels) v = part.1 := by
  rw [← label_asSide, asSide_nextLabels]
  exact Labelling.label_relabel_of_mem h.isSplit.valid h.isSplit.disjoint hpart hv

theorem IsRunning.label_nextLabels_of_not_mem (h : IsRunning round nSingular labels)
    (hv : ∀ part ∈ ((sideState round nSingular labels).splitRound 1
      (sideGroups successors predecessors labels)).1, vertex v ∉ part.2) :
    label (nextLabels successors predecessors (round + 1) nSingular labels) v = label labels v := by
  rw [← label_asSide, asSide_nextLabels]
  exact Labelling.label_relabel_of_not_mem h.isSplit.valid hv

theorem key_eq_of_label_nextLabels_eq (h : IsRunning round nSingular labels)
    (hv : v < labels.size) (hw : w < labels.size)
    (heq : label (nextLabels successors predecessors (round + 1) nSingular labels) v =
      label (nextLabels successors predecessors (round + 1) nSingular labels) w) :
    neighbourKey successors predecessors labels v = neighbourKey successors predecessors labels w := by
  have hsize := @size_nextLabels successors predecessors (round + 1) nSingular labels
  cases hsingular :
      (label (nextLabels successors predecessors (round + 1) nSingular labels) v).isSingular with
  | true => rw [h.next.eq_of_isSingular (hv.trans_eq hsize.symm) (hw.trans_eq hsize.symm) heq hsingular]
  | false =>
    have hopen : RefinementState.IsUniform (sideMode labels)
        (itemKey successors predecessors labels) := fun i j hi _ _ hopen hfrontier =>
      absurd ((mem_frontier_sideMode hi).2 hopen) hfrontier
    rw [← label_asSide, ← label_asSide, asSide_nextLabels] at heq
    rw [← label_asSide, asSide_nextLabels] at hsingular
    exact @RefinementState.key_eq_of_label_relabel_eq (sideState round nSingular labels) (vertex v)
      (vertex w) _ _ _ _ _ (sideMode labels) (itemKey successors predecessors labels) 1 _
      (fun _ _ h => h) h.issued hopen hv hw heq hsingular

/-- A round tells two vertices of a class apart exactly if their keys differ. -/
theorem IsRunning.label_nextLabels_eq_iff (h : IsRunning round nSingular labels)
    (hv : v < labels.size) (hw : w < labels.size) :
    label (nextLabels successors predecessors (round + 1) nSingular labels) v =
        label (nextLabels successors predecessors (round + 1) nSingular labels) w ↔
      label labels v = label labels w ∧
        neighbourKey successors predecessors labels v =
          neighbourKey successors predecessors labels w := by
  have hv' : (sideMode labels).labels.Valid (vertex v) := hv
  have hw' : (sideMode labels).labels.Valid (vertex w) := hw
  constructor
  · intro heq
    refine ⟨?_, key_eq_of_label_nextLabels_eq h hv hw heq⟩
    rw [← label_asSide, ← label_asSide, asSide_nextLabels] at heq
    exact RefinementState.label_eq_of_label_relabel_eq (s := sideState round nSingular labels)
      h.issued hv' hw' heq
  · rintro ⟨hlabel, hkey⟩
    by_cases hmoved : ∃ part ∈ ((sideState round nSingular labels).splitRound 1
        (sideGroups successors predecessors labels)).1, vertex v ∈ part.2
    · -- the part of one vertex is a group of its label and key, so it has the other one, too
      obtain ⟨part, hpart, hvp⟩ := hmoved
      obtain ⟨g, hg, heq⟩ := mem_splitGroups hpart
      have hvg := (mem_of_mem_group hg).1 (heq ▸ hvp)
      have hfrontier := (List.mem_filter.1 hvg.1).2
      have hwp : vertex w ∈ part.2 := by
        rw [heq]
        refine (mem_of_mem_group hg).2 ⟨List.mem_filter.2 ⟨Labelling.mem_items.2 hw', ?_⟩,
          hlabel.symm.trans hvg.2.1, hkey.symm.trans hvg.2.2⟩
        have hside : (sideMode labels).labels.label (vertex w) =
            (sideMode labels).labels.label (vertex v) := hlabel.symm
        rw [hside]
        exact hfrontier
      rw [h.label_nextLabels_of_mem hpart hvp, h.label_nextLabels_of_mem hpart hwp]
    · rw [h.label_nextLabels_of_not_mem fun part hpart hvp => hmoved ⟨part, hpart, hvp⟩,
        h.label_nextLabels_of_not_mem fun part hpart hwp =>
          hmoved (RefinementState.mem_splitRound_of_label_eq hpart hwp hv' hlabel), hlabel]

/-- A round that splits brings more labels into use. -/
theorem IsRunning.card_inUse_lt (h : IsRunning round nSingular labels)
    (hsplit : (roundParts successors predecessors (round + 1) nSingular labels).1 ≠ []) :
    (asSide labels).inUse.card <
      (asSide (nextLabels successors predecessors (round + 1) nSingular labels)).inUse.card := by
  have hparts : ((sideState round nSingular labels).splitRound 1
      (sideGroups successors predecessors labels)).1 ≠ [] := fun hnil =>
    hsplit (List.map_eq_nil_iff.1 ((congrArg Prod.fst roundParts_onSide).trans hnil))
  have hlt := @RefinementState.card_inUse_lt _ _ _ _ _ (sideMode labels) _ (sideState round nSingular labels)
    1 h.issued hparts
  exact hlt.trans_eq (congrArg (·.inUse.card) asSide_nextLabels.symm)

theorem card_inUse_asSide_le (labels : Array ClassLabel) :
    (asSide labels).inUse.card ≤ labels.size := by
  refine (Labelling.card_inUse_le _).trans_eq ?_
  rw [items_asSide, List.length_map, List.length_range]

end Round

/-! ## Stable values -/

/-- A value that is the same for two vertices is so for their neighbours, one by one. -/
def IsStable {κ : Type} (successors predecessors : Array (List Nat)) (n : Nat) (f : Nat → κ) : Prop :=
  ∀ v < n, ∀ w < n, f v = f w →
    ((successors[v]?.getD []).map f).Perm ((successors[w]?.getD []).map f) ∧
      ((predecessors[v]?.getD []).map f).Perm ((predecessors[w]?.getD []).map f)

/-- All neighbours are among the first `n` vertices. -/
def IsWithin (n : Nat) (neighbours : Array (List Nat)) : Prop :=
  ∀ v : Nat, ∀ w ∈ neighbours[v]?.getD [], w < n

theorem neighbourKey_eq_iff {successors predecessors : Array (List Nat)} {labels : Array ClassLabel}
    {v w : Nat} :
    neighbourKey successors predecessors labels v = neighbourKey successors predecessors labels w ↔
      ((successors[v]?.getD []).map (label labels)).Perm ((successors[w]?.getD []).map (label labels)) ∧
        ((predecessors[v]?.getD []).map (label labels)).Perm
          ((predecessors[w]?.getD []).map (label labels)) := by
  rw [neighbourKey, neighbourKey, Prod.mk.injEq]
  exact and_congr ⟨perm_of_ascending_eq, ascending_eq_of_perm⟩
    ⟨perm_of_ascending_eq, ascending_eq_of_perm⟩

/-- Lists with the same values of one function have the same values of every function that it
determines. -/
theorem map_perm_map_of_factors {κ β : Type} [Nonempty β] {n : Nat} {f : Nat → κ} {g : Nat → β}
    (h : ∀ v < n, ∀ w < n, f v = f w → g v = g w) {l l' : List Nat} (hl : ∀ v ∈ l, v < n)
    (hl' : ∀ v ∈ l', v < n) (hperm : (l.map f).Perm (l'.map f)) : (l.map g).Perm (l'.map g) := by
  have hfactors : Function.FactorsThrough (fun v : Fin n => g v) fun v : Fin n => f v :=
    fun v w => h v v.2 w w.2
  obtain ⟨e, he⟩ := (Function.factorsThrough_iff _).1 hfactors
  have hmap : ∀ l : List Nat, (∀ v ∈ l, v < n) → l.map g = (l.map f).map e := fun l hl => by
    rw [List.map_map]
    exact List.map_congr_left fun v hv => congrFun he ⟨v, hl v hv⟩
  rw [hmap l hl, hmap l' hl']
  exact hperm.map e

section Run

variable {successors predecessors : Array (List Nat)} {labels : Array ClassLabel}

/-- The labels of `n` vertices are the coarsest stable ones that refine what is given. -/
structure Stabilizes {β : Type} (successors predecessors : Array (List Nat)) (n : Nat) (given : Nat → β)
    (labels : Array ClassLabel) : Prop where
  size : labels.size = n
  refines : ∀ v < n, ∀ w < n, label labels v = label labels w → given v = given w
  stable : IsStable successors predecessors n (label labels)
  coarsest : ∀ {κ : Type} (f : Nat → κ), IsStable successors predecessors n f →
    (∀ v < n, ∀ w < n, f v = f w → given v = given w) →
    ∀ v < n, ∀ w < n, f v = f w → label labels v = label labels w

theorem Stabilizes.congr {β γ : Type} {n : Nat} {given : Nat → β} {given' : Nat → γ}
    (h : Stabilizes successors predecessors n given labels)
    (hgiven : ∀ v < n, ∀ w < n, given v = given w ↔ given' v = given' w) :
    Stabilizes successors predecessors n given' labels where
  size := h.size
  refines v hv w hw heq := (hgiven v hv w hw).1 (h.refines v hv w hw heq)
  stable := h.stable
  coarsest f hf hrefines := h.coarsest f hf fun v hv w hw heq =>
    (hgiven v hv w hw).2 (hrefines v hv w hw heq)

/-- Vertices that a stable value does not tell apart are not told apart by a round. -/
theorem IsRunning.label_nextLabels_eq_of_isStable {κ : Type} {round nSingular : Nat}
    (h : IsRunning round nSingular labels)
    (hsuccessors : IsWithin labels.size successors) (hpredecessors : IsWithin labels.size predecessors)
    {f : Nat → κ} (hf : IsStable successors predecessors labels.size f)
    (hlabels : ∀ v < labels.size, ∀ w < labels.size, f v = f w → label labels v = label labels w) :
    ∀ v < labels.size, ∀ w < labels.size, f v = f w →
      label (nextLabels successors predecessors (round + 1) nSingular labels) v =
        label (nextLabels successors predecessors (round + 1) nSingular labels) w := by
  intro v hv w hw heq
  obtain ⟨hsucc, hpred⟩ := hf v hv w hw heq
  exact (h.label_nextLabels_eq_iff hv hw).2 ⟨hlabels v hv w hw heq, neighbourKey_eq_iff.2
    ⟨map_perm_map_of_factors hlabels (hsuccessors v) (hsuccessors w) hsucc,
      map_perm_map_of_factors hlabels (hpredecessors v) (hpredecessors w) hpred⟩⟩

/-! ## Runs -/

/-- Rounds from the given one on, until one splits nothing. -/
inductive Runs (successors predecessors : Array (List Nat)) :
    Nat → Nat → Array ClassLabel → Array ClassLabel → Prop
  /-- The round splits nothing. -/
  | quiet {round nSingular : Nat} {labels : Array ClassLabel}
      (hparts : (roundParts successors predecessors round nSingular labels).1 = []) :
      Runs successors predecessors round nSingular labels labels
  /-- The round splits a class. -/
  | split {round nSingular : Nat} {labels last : Array ClassLabel}
      (hparts : (roundParts successors predecessors round nSingular labels).1 ≠ [])
      (hrest : Runs successors predecessors (round + 1)
        (roundParts successors predecessors round nSingular labels).2
        (nextLabels successors predecessors round nSingular labels) last) :
      Runs successors predecessors round nSingular labels last

/-- Rounds come to an end, since each one that splits brings more labels into use. -/
theorem IsRunning.runs {round nSingular fuel : Nat} (h : IsRunning round nSingular labels)
    (hfuel : labels.size < (asSide labels).inUse.card + fuel) :
    Runs successors predecessors (round + 1) nSingular labels
      (run successors predecessors fuel (round + 1) nSingular labels) := by
  induction fuel generalizing round nSingular labels with
  | zero => exact absurd hfuel (Nat.not_lt.2 (card_inUse_asSide_le labels))
  | succ fuel ih =>
    rw [run_succ]
    split
    · rename_i hempty
      exact .quiet (List.isEmpty_iff.1 hempty)
    · rename_i hsplit
      have hparts : (roundParts successors predecessors (round + 1) nSingular labels).1 ≠ [] :=
        fun hnil => hsplit (List.isEmpty_iff.2 hnil)
      have hsize := @size_nextLabels successors predecessors (round + 1) nSingular labels
      have hcard := h.card_inUse_lt hparts
      exact .split hparts (ih h.next (by omega))

/-- A run ends with the coarsest stable labels below those that it starts from. -/
theorem Runs.stabilizes {round nSingular : Nat} {last : Array ClassLabel}
    (hruns : Runs successors predecessors (round + 1) nSingular labels last)
    (h : IsRunning round nSingular labels) (hsuccessors : IsWithin labels.size successors)
    (hpredecessors : IsWithin labels.size predecessors) :
    Stabilizes successors predecessors labels.size (label labels) last := by
  generalize hround : round + 1 = r at hruns
  induction hruns generalizing round with
  | @quiet r nSingular labels hparts =>
    subst hround
    -- the round splits nothing, so vertices with equal labels have equal keys
    have hnext : nextLabels successors predecessors (round + 1) nSingular labels = labels := by
      rw [nextLabels, hparts]
      rfl
    refine ⟨rfl, fun _ _ _ _ h => h, fun v hv w hw heq => ?_, fun _ _ h => h⟩
    have hiff := @IsRunning.label_nextLabels_eq_iff successors predecessors _ _ _ _ _ h hv hw
    rw [hnext] at hiff
    exact neighbourKey_eq_iff.1 (hiff.1 heq).2
  | @split r nSingular labels last _ _ ih =>
    subst hround
    have hsize := @size_nextLabels successors predecessors (round + 1) nSingular labels
    have hrest := ih h.next (hsize ▸ hsuccessors) (hsize ▸ hpredecessors) rfl
    refine ⟨hrest.size.trans hsize, fun v hv w hw heq => ?_, hsize ▸ hrest.stable,
      fun f hf hlabels v hv w hw heq => ?_⟩
    · have hround := hrest.refines v (hsize ▸ hv) w (hsize ▸ hw) heq
      exact ((h.label_nextLabels_eq_iff hv hw).1 hround).1
    · exact hrest.coarsest f (hsize ▸ hf)
        (hsize ▸ h.label_nextLabels_eq_of_isStable hsuccessors hpredecessors hf hlabels)
        v (hsize ▸ hv) w (hsize ▸ hw) heq

end Run

/-! ## The start -/

section Start

variable {α : Type} [Ord α] [Std.TransOrd α] {initial : List α}

/-- The vertices of each initial label. -/
def seedLists (initial : List α) : List (List Nat) := (SortedMap.groupValues initial.zipIdx).values

/-- The labels that a run starts from. -/
def seeded (initial : List α) : Array ClassLabel :=
  relabel (.replicate initial.length (.initial 0)) (seedLabels 0 0 (seedLists initial)).1

theorem flatten_seedLists_perm (initial : List α) :
    (seedLists initial).flatten.Perm (List.range initial.length) := by
  have hperm := SortedMap.flatten_values_groupValues_perm initial.zipIdx
  rwa [List.zipIdx_map_snd, ← List.range_eq_range'] at hperm

theorem nodup_seedLists (initial : List α) :
    (∀ vertices ∈ seedLists initial, vertices.Nodup) ∧ (seedLists initial).Pairwise List.Disjoint :=
  List.nodup_flatten.1 ((flatten_seedLists_perm initial).nodup_iff.2 List.nodup_range)

theorem exists_seedList {v : Nat} (hv : v < initial.length) :
    ∃ vertices ∈ seedLists initial, v ∈ vertices :=
  List.mem_flatten.1 ((flatten_seedLists_perm initial).mem_iff.2 (List.mem_range.2 hv))

theorem lt_of_mem_seedList {vertices : List Nat} (h : vertices ∈ seedLists initial) {v : Nat}
    (hv : v ∈ vertices) : v < initial.length :=
  List.mem_range.1 ((flatten_seedLists_perm initial).mem_iff.1 (List.mem_flatten.2 ⟨vertices, h, hv⟩))

theorem isSeeding_seedLists (initial : List α) :
    RefinementState.IsSeeding (asSide (.replicate initial.length (.initial 0)))
      ((seedLists initial).map (·.map vertex)) where
  valid items hitems i hi := by
    obtain ⟨vertices, hvertices, rfl⟩ := List.mem_map.1 hitems
    obtain ⟨v, hv, rfl⟩ := List.mem_map.1 hi
    rw [valid_vertex, Array.size_replicate]
    exact lt_of_mem_seedList hvertices hv
  nodup items hitems := by
    obtain ⟨vertices, hvertices, rfl⟩ := List.mem_map.1 hitems
    exact ((nodup_seedLists initial).1 vertices hvertices).map fun v w h => congrArg Item.index h
  disjoint := by
    refine List.pairwise_map.2 ((nodup_seedLists initial).2.imp fun hdisjoint i hi hi' => ?_)
    obtain ⟨v, hv, rfl⟩ := List.mem_map.1 hi
    obtain ⟨w, hw, heq⟩ := List.mem_map.1 hi'
    cases (congrArg Item.index heq : w = v)
    exact hdisjoint hv hw

theorem exists_seedItems {i : Item}
    (hi : (asSide (.replicate initial.length (.initial 0))).Valid i) :
    ∃ items ∈ (seedLists initial).map (·.map vertex), i ∈ items := by
  obtain ⟨v, hv, rfl⟩ := exists_vertex hi
  rw [Array.size_replicate] at hv
  obtain ⟨vertices, hvertices, hmem⟩ := exists_seedList hv
  exact ⟨_, List.mem_map_of_mem hvertices, List.mem_map_of_mem hmem⟩

/-- The seed labels of the vertices as items. -/
abbrev sideSeeds (initial : List α) : List (ClassLabel × List Item) × Nat :=
  RefinementState.seedLabels 1 0 0 ((seedLists initial).map (·.map vertex))

theorem asSide_seeded (initial : List α) :
    asSide (seeded initial) =
      (asSide (.replicate initial.length (.initial 0))).relabel (sideSeeds initial).1 := by
  rw [sideSeeds, seedLabels_map_vertex, relabel_asSide]
  rfl

theorem size_seeded (initial : List α) : (seeded initial).size = initial.length :=
  (size_relabel _ _).trans Array.size_replicate

/-- Every item carries the label of its seed class. -/
theorem exists_sideSeed {i : Item} (hi : (asSide (seeded initial)).Valid i) :
    ∃ part ∈ (sideSeeds initial).1, i ∈ part.2 ∧ (asSide (seeded initial)).label i = part.1 := by
  rw [asSide_seeded, Labelling.valid_relabel] at hi
  rw [asSide_seeded]
  exact (isSeeding_seedLists initial).exists_label (fun _ => exists_seedItems) hi

theorem part_eq_of_label_eq {part part' : ClassLabel × List Item} (hpart : part ∈ (sideSeeds initial).1)
    (hpart' : part' ∈ (sideSeeds initial).1) (h : part.1 = part'.1) : part = part' :=
  List.inj_on_of_nodup_map (nodup_seedLabels _ _ _ _) hpart hpart' h

theorem isRunning_seeded (initial : List α) :
    IsRunning 0 (seedLabels 0 0 (seedLists initial)).2 (seeded initial) where
  issued i hi := by
    obtain ⟨part, hpart, -, heq⟩ := exists_sideSeed hi
    have hissued := RefinementState.hasBeenIssued_of_mem_seedLabels hpart
    rw [seedLabels_map_vertex] at hissued
    rwa [heq]
  settles i j hi hj heq hsingular hside := by
    obtain ⟨part, hpart, hip, hi'⟩ := exists_sideSeed hi
    obtain ⟨part', hpart', hjp, hj'⟩ := exists_sideSeed hj
    cases part_eq_of_label_eq hpart hpart' (hi'.symm.trans (heq.trans hj'))
    rw [hi', RefinementState.isSingular_seedLabels hpart] at hsingular
    exact RefinementState.eq_of_isSettled hsingular hip hjp hside (RefinementState.side_lt_of_valid hi)

/-- The rounds of propagation come to an end. -/
theorem runs_stableLabels (initial : List α) (successors predecessors : Array (List Nat)) :
    Runs successors predecessors 1 (seedLabels 0 0 (seedLists initial)).2 (seeded initial)
      (stableLabels initial successors predecessors) := by
  have hsize := size_seeded initial
  exact (isRunning_seeded initial).runs
    (show (seeded initial).size < _ + (initial.length + 1) by omega)

section Values

variable [Std.LawfulEqOrd α] [DecidableEq α] {v w : Nat}

theorem exists_seedList_value {vertices : List Nat} (h : vertices ∈ seedLists initial) :
    ∃ a : α, ∀ v, v ∈ vertices ↔ initial[v]? = some a := by
  have hzip : initial.zipIdx = initial.zipIdx.map fun e => (e.1, e.2) := (List.map_id _).symm
  rw [seedLists, hzip, SortedMap.mem_values_groupValues_map] at h
  obtain ⟨⟨a, n⟩, -, rfl⟩ := h
  refine ⟨a, fun v => ?_⟩
  simp only [List.mem_map, List.mem_filter, decide_eq_true_eq, Prod.exists,
    List.mem_zipIdx_iff_getElem?]
  constructor
  · rintro ⟨b, m, ⟨hb, rfl⟩, rfl⟩
    exact hb
  · exact fun hv => ⟨a, v, ⟨hv, rfl⟩, rfl⟩

/-- Seed labels tell vertices apart exactly if their initial labels differ. -/
theorem label_seeded_eq_iff (hv : v < initial.length) (hw : w < initial.length) :
    label (seeded initial) v = label (seeded initial) w ↔ initial[v]? = initial[w]? := by
  have hvalid : ∀ v < initial.length, (asSide (seeded initial)).Valid (vertex v) := fun v hv =>
    valid_vertex.2 (hv.trans_eq (size_seeded initial).symm)
  have hvertex : ∀ {part : ClassLabel × List Item}, part ∈ (sideSeeds initial).1 →
      ∃ a : α, ∀ v, vertex v ∈ part.2 ↔ initial[v]? = some a := by
    intro part hpart
    obtain ⟨vertices, hvertices, heq⟩ := List.mem_map.1 (mem_seedLabels hpart)
    obtain ⟨a, ha⟩ := exists_seedList_value hvertices
    refine ⟨a, fun v => ?_⟩
    rw [← ha, ← heq]
    exact List.mem_map_of_injective fun v w h => congrArg Item.index h
  obtain ⟨part, hpart, hvp, hv'⟩ := exists_sideSeed (hvalid v hv)
  obtain ⟨part', hpart', hwp, hw'⟩ := exists_sideSeed (hvalid w hw)
  obtain ⟨a, ha⟩ := hvertex hpart
  rw [label_asSide] at hv' hw'
  constructor
  · intro heq
    cases part_eq_of_label_eq hpart hpart' (hv'.symm.trans (heq.trans hw'))
    rw [(ha v).1 hvp, (ha w).1 hwp]
  · intro heq
    have hwp' : vertex w ∈ part.2 := (ha w).2 (heq.symm.trans ((ha v).1 hvp))
    rw [hv', ← label_asSide, asSide_seeded]
    exact ((isSeeding_seedLists initial).label_of_mem hpart hwp').symm

/-- Propagation gives the coarsest stable labels that refine the initial ones. -/
theorem stabilizes_stableLabels {successors predecessors : Array (List Nat)} (initial : List α)
    (hsuccessors : IsWithin initial.length successors)
    (hpredecessors : IsWithin initial.length predecessors) :
    Stabilizes successors predecessors initial.length (fun v => initial[v]?)
      (stableLabels initial successors predecessors) := by
  have hsize := size_seeded initial
  have hrun := (runs_stableLabels initial successors predecessors).stabilizes (isRunning_seeded initial)
    (hsize ▸ hsuccessors) (hsize ▸ hpredecessors)
  rw [hsize] at hrun
  exact hrun.congr fun v hv w hw => label_seeded_eq_iff hv hw

end Values

end Start

end CircuitEquiv.Propagation
