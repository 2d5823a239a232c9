-- SUMMARY: Refining two circuits in lockstep does to each of them what refining it alone does.
import CircuitEquiv.Proofs.Refinement.Saturation

/-!
# One side of a refinement

A refinement of two sides that finds no difference, seen from one of its sides, is the refinement of
that side alone. The state of a run has a projection to each side, and every round commutes with it:
a checked group has as many members on the left as on the right, so it is there on either side, is
settled on either side or on none, and its members have neighbours with the same labels.
-/

namespace CircuitEquiv

/-! ## Items of a side -/

/-- The items of a side, as items of a single side. -/
def sideItems (k : Nat) (items : List Item) : List Item :=
  (items.filter (·.side = k)).map fun i => ⟨0, i.index⟩

variable {k : Nat} {items : List Item} {i : Item}

theorem mem_sideItems : i ∈ sideItems k items ↔ i.side = 0 ∧ ⟨k, i.index⟩ ∈ items := by
  obtain ⟨side, index⟩ := i
  simp only [sideItems, List.mem_map, List.mem_filter, decide_eq_true_eq, Item.mk.injEq]
  constructor
  · rintro ⟨j, ⟨hj, rfl⟩, rfl, rfl⟩
    exact ⟨rfl, hj⟩
  · rintro ⟨rfl, hmem⟩
    exact ⟨_, ⟨hmem, rfl⟩, rfl, rfl⟩

theorem mem_sideItems_mk {index : Nat} : ⟨0, index⟩ ∈ sideItems k items ↔ ⟨k, index⟩ ∈ items :=
  mem_sideItems.trans (and_iff_right rfl)

/-- Choosing items by what the single side knows of them, before or after the projection. -/
theorem filter_sideItems {p q : Item → Bool} (h : ∀ index, p ⟨0, index⟩ = q ⟨k, index⟩) :
    (sideItems k items).filter p = sideItems k (items.filter q) := by
  rw [sideItems, sideItems, List.filter_map, List.filter_filter, List.filter_filter]
  congr 1
  refine List.filter_congr fun i _ => ?_
  obtain ⟨side, index⟩ := i
  by_cases hside : side = k
  · subst hside
    simp [h]
  · simp [hside]

theorem countP_sideItems (k : Nat) (items : List Item) :
    (sideItems k items).countP (·.side = 0) = items.countP (·.side = k) := by
  rw [sideItems, List.countP_map, List.countP_eq_length_filter (l := items)]
  exact List.countP_eq_length.2 fun i _ => rfl

theorem sideItems_append (k : Nat) (items items' : List Item) :
    sideItems k (items ++ items') = sideItems k items ++ sideItems k items' := by
  simp [sideItems]

theorem sideItems_cons (k : Nat) (i : Item) (rest : List Item) :
    sideItems k (i :: rest) = if i.side = k then ⟨0, i.index⟩ :: sideItems k rest
      else sideItems k rest := by
  by_cases hside : i.side = k <;> simp [sideItems, hside]

theorem sideItems_map_range (k side n : Nat) :
    sideItems k ((List.range n).map (⟨side, ·⟩)) =
      if side = k then (List.range n).map (⟨0, ·⟩) else [] := by
  by_cases hside : side = k <;> simp [sideItems, hside, List.filter_map, Function.comp_def]

/-! ## Labellings of a side -/

namespace Labelling

variable {l : Labelling}

/-- The labels of one side. -/
def side (l : Labelling) (k : Nat) : Labelling := #[l[k]?.getD #[]]

theorem label_side (l : Labelling) (k index : Nat) :
    (l.side k).label ⟨0, index⟩ = l.label ⟨k, index⟩ := rfl

theorem side_constant (sizes : List Nat) (x : ClassLabel) (k : Nat) :
    (constant sizes x).side k = constant [sizes[k]?.getD 0] x := by
  unfold Labelling.side constant
  cases h : sizes[k]? <;> simp [h]

theorem items_side (l : Labelling) (k : Nat) : (l.side k).items = sideItems k l.items := by
  have hsides : ∀ (n : Nat) (sides : List (Array ClassLabel)),
      sideItems k ((sides.zipIdx n).flatMap fun e =>
        (List.range e.1.size).map fun i => (⟨e.2, i⟩ : Item)) =
      if n ≤ k then (List.range (sides[k - n]?.getD #[]).size).map (⟨0, ·⟩) else [] := by
    intro n sides
    induction sides generalizing n with
    | nil => simp [sideItems]
    | cons side rest ih =>
      rw [List.zipIdx_cons, List.flatMap_cons, sideItems_append, ih, sideItems_map_range]
      rcases Nat.lt_trichotomy n k with hlt | rfl | hgt
      · have hindex : k - n = k - (n + 1) + 1 := by omega
        rw [if_neg (Nat.ne_of_lt hlt), if_pos (Nat.succ_le_of_lt hlt), if_pos hlt.le, hindex, List.getElem?_cons_succ,
          List.nil_append]
      · simp
      · rw [if_neg (Nat.ne_of_gt hgt), if_neg (by omega), if_neg (by omega), List.append_nil]
  have hall := hsides 0 l.toList
  rw [if_pos (Nat.zero_le k), Nat.sub_zero, Array.getElem?_toList] at hall
  refine Eq.trans ?_ hall.symm
  simp [items, Labelling.side]

theorem side_set (l : Labelling) (i : Item) (x : ClassLabel) (k : Nat) :
    (l.set i x).side k = if i.side = k then (l.side k).set ⟨0, i.index⟩ x else l.side k := by
  unfold Labelling.side
  rw [getElem?_set]
  split
  · cases l[k]? <;> simp [Labelling.set]
  · rfl

theorem side_foldl_set (l : Labelling) (items : List Item) (x : ClassLabel) (k : Nat) :
    (items.foldl (fun l i => l.set i x) l).side k =
      (sideItems k items).foldl (fun l i => l.set i x) (l.side k) := by
  induction items generalizing l with
  | nil => rfl
  | cons i rest ih =>
    rw [List.foldl_cons, ih, side_set, sideItems_cons]
    split <;> rfl

/-- Relabelling a side gives its members of each part the label of the part. -/
theorem side_relabel (l : Labelling) (parts : List (ClassLabel × List Item)) (k : Nat) :
    (l.relabel parts).side k =
      (l.side k).relabel (parts.map fun part => (part.1, sideItems k part.2)) := by
  induction parts generalizing l with
  | nil => rfl
  | cons part rest ih =>
    rw [relabel_cons, ih, side_foldl_set]
    rfl

/-- Every label is carried on both of two sides. -/
def IsShared (l : Labelling) : Prop :=
  ∀ i, l.Valid i → ∀ k < 2, ∃ j, l.Valid j ∧ j.side = k ∧ l.label j = l.label i

end Labelling

/-! ## Groups of a side -/

section Groups

variable {κ : Type} [Ord κ] [Std.TransOrd κ] [Std.LawfulEqOrd κ] [DecidableEq κ]

/-- The members of a group on one side. -/
def sideGroup (k : Nat) (g : Group κ Item) : Group κ Item := (g.1, sideItems k g.2)

omit [Ord κ] [Std.TransOrd κ] [Std.LawfulEqOrd κ] [DecidableEq κ] in
theorem splitParts_map_sideGroup (k : Nat) (groups : List (Group κ Item)) :
    splitParts (groups.map (sideGroup k)) = (splitParts groups).map (sideGroup k) := by
  rw [splitParts, splitParts, List.filter_map]
  refine congrArg _ (List.filter_congr fun g _ => ?_)
  rw [Function.comp_apply, List.countP_map]
  rfl

omit [Ord κ] [Std.TransOrd κ] [Std.LawfulEqOrd κ] in
/-- The single items with a value are those on the side with the value. -/
theorem filter_sideItems_eq {f f' : Item → κ} (hf : ∀ index, f' ⟨0, index⟩ = f ⟨k, index⟩)
    (items : List Item) (x : κ) :
    (sideItems k items).filter (fun i => f' i = x) =
      sideItems k (items.filter fun i => f i = x) :=
  filter_sideItems fun index => by rw [hf]

/-- When every value occurs on a side, grouping the items of the side gives what is there of the
groups. -/
theorem groupValues_sideItems {f f' : Item → κ} (hf : ∀ index, f' ⟨0, index⟩ = f ⟨k, index⟩)
    (hside : ∀ i ∈ items, ∃ j ∈ items, j.side = k ∧ f j = f i) :
    SortedMap.groupValues ((sideItems k items).map fun i => (f' i, i)) =
      (SortedMap.groupValues (items.map fun i => (f i, i))).mapValues fun _ => sideItems k := by
  have hfilter : ∀ (g : Item → κ) (items : List Item) (x : κ),
      ((items.map fun i => (g i, i)).filter fun e => e.1 = x).map (·.2) =
        items.filter fun i => g i = x := fun g items x => by
    rw [List.filter_map, List.map_map]
    exact List.map_id _
  have hkeys : ∀ x, x ∈ ((sideItems k items).map fun i => (f' i, i)).map (·.1) ↔
      x ∈ (items.map fun i => (f i, i)).map (·.1) := by
    intro x
    simp only [List.map_map, List.mem_map, Function.comp_apply]
    constructor
    · rintro ⟨⟨side, index⟩, hi, rfl⟩
      obtain ⟨rfl, hi⟩ := mem_sideItems.1 hi
      exact ⟨_, hi, (hf index).symm⟩
    · rintro ⟨i, hi, rfl⟩
      obtain ⟨⟨side, index⟩, hj, rfl, heq⟩ := hside i hi
      exact ⟨_, mem_sideItems_mk.2 hj, (hf index).trans heq⟩
  refine SortedMap.ext_get? fun x => ?_
  rw [SortedMap.get?_mapValues, SortedMap.get?_groupValues, SortedMap.get?_groupValues, hfilter,
    hfilter, filter_sideItems_eq hf]
  by_cases hx : x ∈ (items.map fun i => (f i, i)).map (·.1)
  · rw [if_pos hx, if_pos ((hkeys x).2 hx), Option.map_some]
  · rw [if_neg hx, if_neg fun h => hx ((hkeys x).1 h), Option.map_none]

/-- When every group has a member on a side, the groups of the side are what is there of the
groups. -/
theorem groupItems_sideItems {label label' : Item → ClassLabel} {key key' : Item → κ}
    (hlabel : ∀ index, label' ⟨0, index⟩ = label ⟨k, index⟩)
    (hkey : ∀ index, key' ⟨0, index⟩ = key ⟨k, index⟩)
    (hmember : ∀ g ∈ groupItems label key items, ∃ i ∈ g.2, i.side = k) :
    groupItems label' key' (sideItems k items) = (groupItems label key items).map (sideGroup k) := by
  have hside : ∀ i ∈ items, ∃ j ∈ items, j.side = k ∧ (label j, key j) = (label i, key i) := by
    intro i hi
    obtain ⟨g, hg, hgi, -⟩ := @exists_group _ _ _ _ _ _ label key _ _ hi
    obtain ⟨j, hj, hjside⟩ := hmember g hg
    obtain ⟨hjmem, hjlabel, hjkey⟩ := (mem_of_mem_group hg).1 hj
    exact ⟨j, hjmem, hjside, (Prod.ext hjlabel hjkey).trans hgi⟩
  exact congrArg SortedMap.entries (@groupValues_sideItems k items _ _ _ _ _
    (fun i => (label i, key i)) (fun i => (label' i, key' i))
    (fun index => by rw [hlabel, hkey]) hside)

end Groups

/-- What an entry says of one of two sides with equal sizes. -/
def TraceEntry.single : TraceEntry → TraceEntry
  | .signalSeed role sizes => .signalSeed role (sizes.take 1)
  | .normSeed sizes => .normSeed (sizes.take 1)
  | .norm round label key sizes => .norm round label key (sizes.take 1)
  | .signal round label key sizes => .signal round label key (sizes.take 1)

attribute [ext] RefinementMode RefinementState

/-- The labels of one side, to be looked at where they were. -/
def RefinementMode.side (mode : RefinementMode) (k : Nat) : RefinementMode :=
  { mode with labels := mode.labels.side k }

namespace RefinementState

/-- The state of one of the sides. -/
def side (s : RefinementState) (k : Nat) : RefinementState where
  norms := s.norms.side k
  signals := s.signals.side k
  nSingular := s.nSingular
  round := s.round
  trace := s.trace.map (·.single)

section Projections

variable (s : RefinementState) (k : Nat)

@[simp]
theorem norm_labels_side : (s.side k).norms.labels = s.norms.labels.side k := rfl

@[simp]
theorem norm_frontier_side : (s.side k).norms.frontier = s.norms.frontier := rfl

@[simp]
theorem signal_labels_side : (s.side k).signals.labels = s.signals.labels.side k := rfl

@[simp]
theorem signal_frontier_side : (s.side k).signals.frontier = s.signals.frontier := rfl

@[simp]
theorem nSingular_side : (s.side k).nSingular = s.nSingular := rfl

@[simp]
theorem round_side : (s.side k).round = s.round := rfl

@[simp]
theorem trace_side : (s.side k).trace = s.trace.map (·.single) := rfl

end Projections

/-! ## Sizes -/

theorem sizes_sideItems (k : Nat) (items : List Item) :
    sizes 1 (sideItems k items) = [items.countP (·.side = k)] :=
  congrArg (fun n => [n]) (countP_sideItems k items)

theorem sizes_two (items : List Item) :
    sizes 2 items = [items.countP (·.side = 0), items.countP (·.side = 1)] := rfl

theorem countP_side_of_isBalanced (h : CircuitEquiv.IsBalanced items) (hk : k < 2) :
    items.countP (·.side = k) = items.countP (·.side = 0) := by
  have hsides : k = 0 ∨ k = 1 := by omega
  rcases hsides with rfl | rfl
  · rfl
  · exact h.symm

/-- A balanced list is settled if it is on one of the sides. -/
theorem isSettled_sideItems (h : CircuitEquiv.IsBalanced items) (hk : k < 2) :
    isSettled 1 (sideItems k items) = isSettled 2 items := by
  unfold isSettled
  rw [sizes_sideItems, sizes_two, countP_side_of_isBalanced h hk, ← h]
  simp

theorem take_sizes (h : CircuitEquiv.IsBalanced items) (hk : k < 2) :
    sizes 1 (sideItems k items) = (sizes 2 items).take 1 := by
  rw [sizes_sideItems, sizes_two, countP_side_of_isBalanced h hk]
  rfl

/-! ## Labels of a side -/

/-- Labels are issued to the parts of a side as to the parts. -/
theorem labelParts_map_sideGroup {κ : Type} {round : Nat} {supply : LabelSupply}
    {groups : List (Group κ Item)} (h : ∀ g ∈ groups, CircuitEquiv.IsBalanced g.2) (hk : k < 2) :
    labelParts round (isSettled 1) supply (groups.map (sideGroup k)) =
      ((labelParts round (isSettled 2) supply groups).1.map
          fun part => (part.1, sideItems k part.2),
        (labelParts round (isSettled 2) supply groups).2) := by
  induction groups generalizing supply with
  | nil => rfl
  | cons g rest ih =>
    have hsettled : isSettled 1 (sideGroup k g).2 = isSettled 2 g.2 :=
      isSettled_sideItems (h g List.mem_cons_self) hk
    have hrest := fun supply => @ih supply fun g' hg' => h g' (List.mem_cons_of_mem g hg')
    rw [List.map_cons, labelParts_cons, labelParts_cons, hsettled, hrest]
    rfl

theorem seedLabels_map_sideItems {rank nSingular : Nat} {lists : List (List Item)}
    (h : ∀ items ∈ lists, CircuitEquiv.IsBalanced items) (hk : k < 2) :
    seedLabels 1 rank nSingular (lists.map (sideItems k)) =
      ((seedLabels 2 rank nSingular lists).1.map fun part => (part.1, sideItems k part.2),
        (seedLabels 2 rank nSingular lists).2) := by
  induction lists generalizing rank nSingular with
  | nil => rfl
  | cons items rest ih =>
    have hsettled := isSettled_sideItems (h items List.mem_cons_self) hk
    have hrest := fun rank nSingular =>
      @ih rank nSingular fun items' hitems' => h items' (List.mem_cons_of_mem items hitems')
    rw [List.map_cons, seedLabels_cons, seedLabels_cons, hsettled]
    split <;> simp [hrest]

/-! ## Graphs of a side -/

section Graphs

variable {graphs : Array SideGraph} {G : SideGraph} {l norms signals : Labelling} {i' j : Item}

section Side

variable (hG : graphs[k]? = some G) (index : Nat)
include hG

theorem normOf_side : normOf #[G] ⟨0, index⟩ = normOf graphs ⟨k, index⟩ := by
  simp [normOf, hG]

theorem roleOf_side : roleOf #[G] ⟨0, index⟩ = roleOf graphs ⟨k, index⟩ := by
  simp [roleOf, hG]

theorem signalsOf_side : signalsOf #[G] ⟨0, index⟩ = sideItems k (signalsOf graphs ⟨k, index⟩) := by
  simp [signalsOf, hG, sideItems, List.filter_map, Function.comp_def]

theorem normsOf_side : normsOf #[G] ⟨0, index⟩ = sideItems k (normsOf graphs ⟨k, index⟩) := by
  simp [normsOf, hG, sideItems, List.filter_map, Function.comp_def]

theorem normKey_side (l : Labelling) :
    normKey #[G] (l.side k) ⟨0, index⟩ = normKey graphs l ⟨k, index⟩ := by
  rw [normKey_eq, normKey_eq, normOf_side hG]
  rfl

theorem signalKey_side (norms signals : Labelling) :
    signalKey #[G] (norms.side k) (signals.side k) ⟨0, index⟩ =
      signalKey graphs norms signals ⟨k, index⟩ := by
  have hnorms : ∀ n ∈ normsOf graphs ⟨k, index⟩, n.side = k := by
    intro n hn
    obtain ⟨m, -, rfl⟩ := List.mem_map.1 hn
    rfl
  rw [signalKey_eq, signalKey_eq, normsOf_side hG, sideItems, List.map_map]
  refine congrArg ascending ?_
  rw [List.filter_eq_self.2 fun n hn => decide_eq_true (hnorms n hn)]
  refine List.map_congr_left fun n hn => ?_
  obtain ⟨side, m⟩ := n
  cases hnorms _ hn
  rw [Function.comp_apply, normOf_side hG]
  rfl

theorem uniformNorms_side : (uniformNorms graphs).side k = uniformNorms #[G] := by
  simp [uniformNorms, Labelling.side_constant, hG]

theorem uniformSignals_side : (uniformSignals graphs).side k = uniformSignals #[G] := by
  simp [uniformSignals, Labelling.side_constant, hG]

end Side

theorem side_of_mem_signalsOf (h : j ∈ signalsOf graphs i) : j.side = i.side := by
  obtain ⟨s, -, rfl⟩ := List.mem_map.1 h
  rfl

theorem side_of_mem_normsOf (h : j ∈ normsOf graphs i) : j.side = i.side := by
  obtain ⟨n, -, rfl⟩ := List.mem_map.1 h
  rfl

/-- Norms with one key have signals with the same open labels. -/
theorem exists_mem_signalsOf_of_normKey_eq (hgraphs : ∀ G ∈ graphs, G.IsIncidence)
    (hconstant : (l.label ⟨i'.side, constantSignal⟩).isSingular = true)
    (hkey : normKey graphs l i = normKey graphs l i') (hj : j ∈ signalsOf graphs i)
    (hopen : (l.label j).isSingular = false) :
    ∃ j' ∈ signalsOf graphs i', l.label j' = l.label j := by
  obtain ⟨hside, G, hG, c, hc, hx⟩ := (mem_signalsOf hgraphs).1 hj
  have hnorm : normOf graphs i = c := by rw [normOf, hG, Option.bind_some, hc, Option.getD_some]
  rw [normKey_eq, normKey_eq, hnorm] at hkey
  have hlabel : l.label j ∈ (c.shape fun s => l.label ⟨i.side, s⟩).labels :=
    Constraint.mem_labels_shape.2
      ⟨j.index, Constraint.mem_occurring_of_mem_signals hx, by rw [← hside]⟩
  rw [hkey] at hlabel
  obtain ⟨x, hx', heq⟩ := Constraint.mem_labels_shape.1 hlabel
  have hne : x ≠ constantSignal := by
    rintro rfl
    rw [heq, hopen] at hconstant
    cases hconstant
  exact ⟨_, mem_signalsOf_of_mem_signals hgraphs (Constraint.mem_signals_of_mem_occurring hx' hne),
    heq⟩

/-- Signals with one key have norms with the same labels. -/
theorem exists_mem_normsOf_of_signalKey_eq
    (hkey : signalKey graphs norms signals i = signalKey graphs norms signals i')
    (hj : j ∈ normsOf graphs i) : ∃ j' ∈ normsOf graphs i', norms.label j' = norms.label j := by
  rw [signalKey_eq, signalKey_eq] at hkey
  obtain ⟨j', hj', heq⟩ := List.mem_map.1
    ((perm_of_ascending_eq hkey).mem_iff.1 (List.mem_map_of_mem hj))
  exact ⟨j', hj', congrArg Prod.fst heq⟩

/-- The open labels beside some parts are those beside the members of the parts on one side, when
these have neighbours with all the labels. -/
theorem insertAll_openLabels_side {adjacent adjacent' : Item → List Item}
    {parts : List (ClassLabel × List Item)} (frontier : SortedSet ClassLabel)
    (hadjacent : ∀ index, adjacent' ⟨0, index⟩ = sideItems k (adjacent ⟨k, index⟩))
    (hside : ∀ i, ∀ j ∈ adjacent i, j.side = i.side)
    (htwin : ∀ part ∈ parts, ∀ i ∈ part.2, ∀ j ∈ adjacent i, (l.label j).isSingular = false →
      ∃ i' ∈ part.2, i'.side = k ∧ ∃ j' ∈ adjacent i', l.label j' = l.label j) :
    frontier.insertAll (openLabels (l.side k)
        (neighbours adjacent' (parts.map fun part => (part.1, sideItems k part.2)))) =
      frontier.insertAll (openLabels l (neighbours adjacent parts)) := by
  refine SortedSet.ext fun x => ?_
  rw [mem_insertAll_openLabels, mem_insertAll_openLabels]
  refine or_congr_left ⟨?_, ?_⟩
  · rintro ⟨_, hmem, i, hi, j, hj, rfl, hopen⟩
    obtain ⟨part, hpart, rfl⟩ := List.mem_map.1 hmem
    obtain ⟨hi0, hi⟩ := mem_sideItems.1 hi
    obtain ⟨side, index⟩ := i
    cases hi0
    rw [hadjacent] at hj
    obtain ⟨hj0, hj⟩ := mem_sideItems.1 hj
    obtain ⟨side', index'⟩ := j
    cases hj0
    exact ⟨part, hpart, _, hi, _, hj, rfl, hopen⟩
  · rintro ⟨part, hpart, i, hi, j, hj, rfl, hopen⟩
    obtain ⟨⟨side, index⟩, hi', rfl, ⟨side', index'⟩, hj', heq⟩ := htwin part hpart i hi j hj hopen
    cases hside _ _ hj'
    refine ⟨_, List.mem_map_of_mem hpart, ⟨0, index⟩, mem_sideItems_mk.2 hi', ⟨0, index'⟩, ?_, ?_, hopen⟩
    · rw [hadjacent]
      exact mem_sideItems_mk.2 hj'
    · rw [Labelling.label_side, heq]

end Graphs

/-! ## Rounds of a side -/

theorem splitRound_side {κ : Type} {s : RefinementState} {groups : List (Group κ Item)}
    (h : ∀ g ∈ groups, CircuitEquiv.IsBalanced g.2) (hk : k < 2) :
    (s.side k).splitRound 1 (groups.map (sideGroup k)) =
      ((s.splitRound 2 groups).1.map fun part => (part.1, sideItems k part.2),
        (s.splitRound 2 groups).2) := by
  have hparts : ∀ g ∈ splitParts groups, CircuitEquiv.IsBalanced g.2 := fun g hg =>
    h g (List.mem_of_mem_filter hg)
  unfold splitRound splitGroups
  rw [splitParts_map_sideGroup, labelParts_map_sideGroup hparts hk]
  rfl

section Checked

variable {κ : Type} [Ord κ] [Std.TransOrd κ] [Std.LawfulEqOrd κ] [DecidableEq κ]
  {mode : RefinementMode} {key key' : Item → κ} {kind : ItemKind} {round : Nat}

/-- A checked group has members on both sides. -/
theorem exists_mem_side_of_checkGroups (hsize : mode.labels.size = 2)
    (hcheck : checkGroups kind 2 round (frontierGroups mode key) = .ok ()) {g : Group κ Item}
    (hg : g ∈ frontierGroups mode key) (hk : k < 2) : ∃ i ∈ g.2, i.side = k := by
  obtain ⟨⟨i, hi, hig⟩, hmembers⟩ := mem_groupItems_iff.1 hg
  have hmem : i ∈ g.2 := hmembers ▸ List.mem_filter.2 ⟨hi, decide_eq_true hig⟩
  exact exists_mem_side_of_checkSizes (Or.inr rfl) (forM_eq_ok_iff.1 hcheck g hg)
    (fun j hj => hsize ▸ side_lt_of_valid (valid_of_mem_frontierGroups hg hj)) hmem hk

/-- The groups that a round on one side looks at. -/
theorem frontierGroups_side (hsize : mode.labels.size = 2)
    (hcheck : checkGroups kind 2 round (frontierGroups mode key) = .ok ()) (hk : k < 2)
    (hkey : ∀ index, key' ⟨0, index⟩ = key ⟨k, index⟩) :
    frontierGroups (mode.side k) key' = (frontierGroups mode key).map (sideGroup k) := by
  have hitems : (mode.labels.side k).items.filter
      (fun i => (mode.labels.side k).label i ∈ mode.frontier) =
      sideItems k (mode.labels.items.filter fun i => mode.labels.label i ∈ mode.frontier) := by
    rw [Labelling.items_side]
    exact filter_sideItems fun index => rfl
  refine (congrArg (groupItems (mode.labels.side k).label key') hitems).trans ?_
  exact groupItems_sideItems (fun _ => rfl) hkey fun g hg =>
    exists_mem_side_of_checkGroups hsize hcheck hg hk

omit [Ord κ] [Std.TransOrd κ] [Std.LawfulEqOrd κ] [DecidableEq κ] in
theorem isBalanced_of_checkGroups {groups : List (Group κ Item)}
    (hcheck : checkGroups kind 2 round groups = .ok ()) :
    ∀ g ∈ groups, CircuitEquiv.IsBalanced g.2 := fun g hg =>
  isBalanced_of_checkSizes (forM_eq_ok_iff.1 hcheck g hg)

/-- A round on one side puts the same classes onto the other frontier, when items with one key have
neighbours with the same open labels. -/
theorem frontier_side {s : RefinementState} {l : Labelling} {adjacent adjacent' : Item → List Item}
    (hsize : mode.labels.size = 2)
    (hcheck : checkGroups kind 2 round (frontierGroups mode key) = .ok ()) (hk : k < 2)
    (frontier : SortedSet ClassLabel)
    (hadjacent : ∀ index, adjacent' ⟨0, index⟩ = sideItems k (adjacent ⟨k, index⟩))
    (hside : ∀ i, ∀ j ∈ adjacent i, j.side = i.side)
    (htwin : ∀ i i' j, i'.side = k → key i = key i' → j ∈ adjacent i →
      (l.label j).isSingular = false → ∃ j' ∈ adjacent i', l.label j' = l.label j) :
    frontier.insertAll (openLabels (l.side k) (neighbours adjacent'
        ((s.splitRound 2 (frontierGroups mode key)).1.map fun part => (part.1, sideItems k part.2)))) =
      frontier.insertAll (openLabels l
        (neighbours adjacent (s.splitRound 2 (frontierGroups mode key)).1)) := by
  refine insertAll_openLabels_side frontier hadjacent hside fun part hpart i hi j hj hopen => ?_
  obtain ⟨g, hg, heq⟩ := mem_splitGroups hpart
  obtain ⟨i', hi', hside'⟩ := exists_mem_side_of_checkGroups hsize hcheck hg hk
  rw [heq] at hi ⊢
  have hkey := ((mem_of_mem_group hg).1 hi).2.2.trans ((mem_of_mem_group hg).1 hi').2.2.symm
  exact ⟨i', hi', hside', htwin i i' j hside' hkey hj hopen⟩

end Checked

/-! ## Rounds of two sides -/

theorem isShared_relabel_splitRound {κ : Type} [Ord κ] [Std.TransOrd κ] [Std.LawfulEqOrd κ]
    [DecidableEq κ] {mode : RefinementMode} {key : Item → κ} {kind : ItemKind} {s : RefinementState}
    (hissued : ∀ i, mode.labels.Valid i → HasBeenIssued s.round s.nSingular (mode.labels.label i))
    (hsize : mode.labels.size = 2)
    (hcheck : checkGroups kind 2 (s.round + 1) (frontierGroups mode key) = .ok ())
    (hshared : mode.labels.IsShared) :
    (mode.labels.relabel (s.splitRound 2 (frontierGroups mode key)).1).IsShared := by
  have hsplit := @isSplit_splitRound _ _ _ _ _ _ key _ 2 hissued
  intro i hi k hk
  rw [Labelling.valid_relabel] at hi
  by_cases hmoved : ∃ part ∈ (s.splitRound 2 (frontierGroups mode key)).1, i ∈ part.2
  · obtain ⟨part, hpart, hip⟩ := hmoved
    obtain ⟨g, hg, heq⟩ := mem_splitGroups hpart
    obtain ⟨j, hj, hside⟩ := exists_mem_side_of_checkGroups hsize hcheck hg hk
    rw [← heq] at hj
    refine ⟨j, (Labelling.valid_relabel _).2 (hsplit.valid part hpart j hj), hside, ?_⟩
    rw [Labelling.label_relabel_of_mem hsplit.valid hsplit.disjoint hpart hj,
      Labelling.label_relabel_of_mem hsplit.valid hsplit.disjoint hpart hip]
  · obtain ⟨j, hj, hside, hlabel⟩ := hshared i hi k hk
    have hnone : ∀ part ∈ (s.splitRound 2 (frontierGroups mode key)).1, j ∉ part.2 :=
      fun part hpart hjp => hmoved (mem_splitRound_of_label_eq hpart hjp hi hlabel.symm)
    refine ⟨j, (Labelling.valid_relabel _).2 hj, hside, ?_⟩
    rw [Labelling.label_relabel_of_not_mem hsplit.valid hnone, hlabel,
      Labelling.label_relabel_of_not_mem hsplit.valid fun part hp hip => hmoved ⟨part, hp, hip⟩]

/-- What every state of a run on two sides satisfies besides: the constant signals are settled, and
every label is carried on both sides. -/
structure IsShared (graphs : Array SideGraph) (s : RefinementState) : Prop
    extends s.IsLabelled graphs where
  constant : ∀ k < 2, (s.signals.labels.label ⟨k, constantSignal⟩).isSingular = true
  shared_norms : s.norms.labels.IsShared
  shared_signals : s.signals.labels.IsShared

section Rounds

variable {graphs : Array SideGraph} {G : SideGraph} {s t : RefinementState} {kind : ItemKind}
  {split : Bool}
variable (hsize : graphs.size = 2) (hgraphs : ∀ G ∈ graphs, G.IsIncidence)
  (hG : graphs[k]? = some G) (hk : k < 2)
include hsize hgraphs hG hk

/-- A norm round commutes with the projection to a side. -/
theorem afterNorms_side (hs : s.IsShared graphs)
    (hcheck : checkGroups .norm 2 (s.round + 1) (s.normGroups graphs) = .ok ()) :
    (s.side k).afterNorms #[G] = (s.afterNorms graphs).side k ∧
      ((s.side k).splitRound 1 ((s.side k).normGroups #[G])).1.isEmpty =
        (s.splitRound 2 (s.normGroups graphs)).1.isEmpty := by
  have hlabels : s.norms.labels.size = 2 := hs.size_norms.trans hsize
  have hgroups : (s.side k).normGroups #[G] = (s.normGroups graphs).map (sideGroup k) :=
    frontierGroups_side hlabels hcheck hk fun index => normKey_side hG index _
  have hbalanced := isBalanced_of_checkGroups hcheck
  have hparts := @splitRound_side k _ s _ hbalanced hk
  have hfrontier := @frontier_side k _ _ _ _ _ _ _ _ _ s s.signals.labels _ _ hlabels hcheck hk
    s.signals.frontier (signalsOf_side hG) (fun i j => side_of_mem_signalsOf)
    fun i i' j hside hkey hj hopen =>
      exists_mem_signalsOf_of_normKey_eq hgraphs (hside ▸ hs.constant k hk) hkey hj hopen
  have htrace : ((s.normGroups graphs).map (sideGroup k)).map (fun g =>
      TraceEntry.norm (s.round + 1) g.1.1 g.1.2 (sizes 1 g.2)) =
      ((s.normGroups graphs).map fun g =>
        TraceEntry.norm (s.round + 1) g.1.1 g.1.2 (sizes 2 g.2)).map (·.single) := by
    rw [List.map_map, List.map_map]
    refine List.map_congr_left fun g hg => ?_
    exact congrArg (TraceEntry.norm _ _ _) (take_sizes (hbalanced g hg) hk)
  rw [← hgroups] at hparts htrace
  rw [← hsize] at hparts hfrontier htrace ⊢
  refine ⟨?_, by rw [hparts, List.isEmpty_map]⟩
  refine RefinementState.ext (RefinementMode.ext ?_ ?_) (RefinementMode.ext ?_ ?_) ?_ rfl ?_
  · rw [norm_labels_afterNorms, norm_labels_side, norm_labels_side, norm_labels_afterNorms,
      Labelling.side_relabel, List.size_toArray, List.length_singleton, hparts]
  · rw [norm_frontier_afterNorms, norm_frontier_side, norm_frontier_afterNorms]
  · rw [signal_labels_afterNorms, signal_labels_side, signal_labels_side, signal_labels_afterNorms]
  · rw [signal_frontier_afterNorms, signal_frontier_side, signal_frontier_side,
      signal_frontier_afterNorms, List.size_toArray, List.length_singleton, hparts]
    exact hfrontier
  · rw [nSingular_afterNorms, nSingular_side, nSingular_afterNorms, List.size_toArray,
      List.length_singleton, hparts]
  · rw [trace_afterNorms, trace_side, trace_side, trace_afterNorms, List.map_append, ← htrace]
    rfl

omit hgraphs in
/-- A signal round commutes with the projection to a side. -/
theorem afterSignals_side (hs : s.IsShared graphs)
    (hcheck : checkGroups .signal 2 (s.round + 1) (s.signalGroups graphs) = .ok ()) :
    (s.side k).afterSignals #[G] = (s.afterSignals graphs).side k ∧
      ((s.side k).splitRound 1 ((s.side k).signalGroups #[G])).1.isEmpty =
        (s.splitRound 2 (s.signalGroups graphs)).1.isEmpty := by
  have hlabels : s.signals.labels.size = 2 := hs.size_signals.trans hsize
  have hgroups : (s.side k).signalGroups #[G] = (s.signalGroups graphs).map (sideGroup k) :=
    frontierGroups_side hlabels hcheck hk fun index => signalKey_side hG index _ _
  have hbalanced := isBalanced_of_checkGroups hcheck
  have hparts := @splitRound_side k _ s _ hbalanced hk
  have hfrontier := @frontier_side k _ _ _ _ _ _ _ _ _ s s.norms.labels _ _ hlabels hcheck hk
    s.norms.frontier (normsOf_side hG) (fun i j => side_of_mem_normsOf)
    fun i i' j _ hkey hj _ => exists_mem_normsOf_of_signalKey_eq hkey hj
  have htrace : ((s.signalGroups graphs).map (sideGroup k)).map (fun g =>
      TraceEntry.signal (s.round + 1) g.1.1 g.1.2 (sizes 1 g.2)) =
      ((s.signalGroups graphs).map fun g =>
        TraceEntry.signal (s.round + 1) g.1.1 g.1.2 (sizes 2 g.2)).map (·.single) := by
    rw [List.map_map, List.map_map]
    refine List.map_congr_left fun g hg => ?_
    exact congrArg (TraceEntry.signal _ _ _) (take_sizes (hbalanced g hg) hk)
  rw [← hgroups] at hparts htrace
  rw [← hsize] at hparts hfrontier htrace ⊢
  refine ⟨?_, by rw [hparts, List.isEmpty_map]⟩
  refine RefinementState.ext (RefinementMode.ext ?_ ?_) (RefinementMode.ext ?_ ?_) ?_ rfl ?_
  · rw [norm_labels_afterSignals, norm_labels_side, norm_labels_side, norm_labels_afterSignals]
  · rw [norm_frontier_afterSignals, norm_frontier_side, norm_frontier_side,
      norm_frontier_afterSignals, List.size_toArray, List.length_singleton, hparts]
    exact hfrontier
  · rw [signal_labels_afterSignals, signal_labels_side, signal_labels_side,
      signal_labels_afterSignals, Labelling.side_relabel, List.size_toArray, List.length_singleton,
      hparts]
  · rw [signal_frontier_afterSignals, signal_frontier_side, signal_frontier_afterSignals]
  · rw [nSingular_afterSignals, nSingular_side, nSingular_afterSignals, List.size_toArray,
      List.length_singleton, hparts]
  · rw [trace_afterSignals, trace_side, trace_side, trace_afterSignals, List.map_append, ← htrace]
    rfl

theorem roundOf_side (hs : s.IsShared graphs) (h : s.roundOf graphs kind = .ok (t, split)) :
    (s.side k).roundOf #[G] kind = .ok (t.side k, split) := by
  cases kind with
  | norm =>
    obtain ⟨hcheck, rfl, hsplit⟩ := (normRound_eq_ok_iff graphs s).1 h
    rw [hsize] at hcheck hsplit
    obtain ⟨hstate, hempty⟩ := afterNorms_side hsize hgraphs hG hk hs hcheck
    exact (normRound_eq_ok_iff _ _).2 ⟨forM_eq_ok_iff.2 fun g _ => Refinement.checkSizes_single ..,
      hstate, (congrArg (! ·) hempty).trans hsplit⟩
  | signal =>
    obtain ⟨hcheck, rfl, hsplit⟩ := (signalRound_eq_ok_iff graphs s).1 h
    rw [hsize] at hcheck hsplit
    obtain ⟨hstate, hempty⟩ := afterSignals_side hsize hG hk hs hcheck
    exact (signalRound_eq_ok_iff _ _).2 ⟨forM_eq_ok_iff.2 fun g _ => Refinement.checkSizes_single ..,
      hstate, (congrArg (! ·) hempty).trans hsplit⟩

omit hG hk in
theorem roundOf_isShared (kind : ItemKind) (s t : RefinementState) (split : Bool)
    (hs : s.IsShared graphs) (h : s.roundOf graphs kind = .ok (t, split)) : t.IsShared graphs := by
  refine ⟨roundOf_isLabelled kind s t split hs.toIsLabelled h, ?_, ?_, ?_⟩
  all_goals cases kind
  case refine_1.norm =>
    obtain ⟨-, rfl, -⟩ := (normRound_eq_ok_iff graphs s).1 h
    rw [signal_labels_afterNorms]
    exact hs.constant
  case refine_1.signal =>
    obtain ⟨hcheck, rfl, -⟩ := (signalRound_eq_ok_iff graphs s).1 h
    intro k hk
    rw [label_constant_afterSignals (Or.inr hsize) hgraphs hs.toIsLabelled hcheck]
    exact hs.constant k hk
  case refine_2.norm =>
    obtain ⟨hcheck, rfl, -⟩ := (normRound_eq_ok_iff graphs s).1 h
    rw [hsize] at hcheck
    rw [norm_labels_afterNorms, hsize]
    exact isShared_relabel_splitRound hs.issued_norms (hs.size_norms.trans hsize) hcheck
      hs.shared_norms
  case refine_2.signal =>
    obtain ⟨-, rfl, -⟩ := (signalRound_eq_ok_iff graphs s).1 h
    rw [norm_labels_afterSignals]
    exact hs.shared_norms
  case refine_3.norm =>
    obtain ⟨-, rfl, -⟩ := (normRound_eq_ok_iff graphs s).1 h
    rw [signal_labels_afterNorms]
    exact hs.shared_signals
  case refine_3.signal =>
    obtain ⟨hcheck, rfl, -⟩ := (signalRound_eq_ok_iff graphs s).1 h
    rw [hsize] at hcheck
    rw [signal_labels_afterSignals, hsize]
    exact isShared_relabel_splitRound hs.issued_signals (hs.size_signals.trans hsize) hcheck
      hs.shared_signals

/-- A run commutes with the projection to a side. -/
theorem Runs.side {quiet : Bool} {s' : RefinementState} (h : Runs graphs kind quiet s s')
    (hs : s.IsShared graphs) : Runs #[G] kind quiet (s.side k) (s'.side k) := by
  induction h with
  | idle hidle => exact .idle hidle
  | split hbusy hround _ ih =>
    exact .split hbusy (roundOf_side hsize hgraphs hG hk hs hround)
      (ih (roundOf_isShared hsize hgraphs _ _ _ _ hs hround))
  | calm hbusy hround _ ih =>
    exact .calm hbusy (roundOf_side hsize hgraphs hG hk hs hround)
      (ih (roundOf_isShared hsize hgraphs _ _ _ _ hs hround))
  | still hbusy hround => exact .still hbusy (roundOf_side hsize hgraphs hG hk hs hround)

end Rounds

/-! ## Seeds of a side -/

theorem isEmpty_sideItems {items : List Item} (h : items ≠ [] → ∃ i ∈ items, i.side = k) :
    (sideItems k items).isEmpty = items.isEmpty := by
  cases hempty : items.isEmpty with
  | true =>
    rw [List.isEmpty_iff.1 hempty]
    rfl
  | false =>
    obtain ⟨⟨side, index⟩, hi, rfl⟩ := h (List.isEmpty_eq_false_iff.1 hempty)
    exact List.isEmpty_eq_false_iff.2 (List.ne_nil_of_mem (mem_sideItems_mk.2 hi))

section Seeds

variable {graphs : Array SideGraph} {G : SideGraph} (hsize : graphs.size = 2)
include hsize

/-- A checked seed class has members on both sides. -/
theorem exists_mem_side_of_checkSeeds {kind : ItemKind} {l : Labelling} {lists : List (List Item)}
    {rank nSingular : Nat} (hl : l.size = graphs.size) (hlists : IsSeeding l lists)
    (hcheck : checkSeeds kind graphs.size (seedLabels graphs.size rank nSingular lists).1 = .ok ())
    {items : List Item} (hitems : items ∈ lists) (hne : items ≠ []) (hk : k < 2) :
    ∃ i ∈ items, i.side = k := by
  obtain ⟨i, hi⟩ := List.exists_mem_of_ne_nil _ hne
  obtain ⟨part, hpart, rfl, -⟩ := @IsSeeding.exists_part l lists graphs.size rank nSingular hlists
    items hitems i hi
  have hchecked := forM_eq_ok_iff.1 hcheck part hpart
  rw [hsize] at hchecked
  refine exists_mem_side_of_checkSizes (Or.inr rfl) hchecked (fun j hj => ?_) hi hk
  have hlt := side_lt_of_valid (hlists.valid _ hitems j hj)
  omega

theorem isBalanced_of_checkSeeds {kind : ItemKind} {lists : List (List Item)} {rank nSingular : Nat}
    (hcheck : checkSeeds kind graphs.size (seedLabels graphs.size rank nSingular lists).1 = .ok ()) :
    ∀ items ∈ lists, CircuitEquiv.IsBalanced items := by
  intro items hitems
  rw [← map_snd_seedLabels graphs.size rank nSingular lists] at hitems
  obtain ⟨part, hpart, rfl⟩ := List.mem_map.1 hitems
  have hchecked := forM_eq_ok_iff.1 hcheck part hpart
  rw [hsize] at hchecked
  exact isBalanced_of_checkSizes hchecked

omit hsize in
theorem size_uniformSignals : (uniformSignals graphs).size = graphs.size := by simp [uniformSignals]

omit hsize in
theorem size_uniformNorms : (uniformNorms graphs).size = graphs.size := by simp [uniformNorms]

variable (hsignals : checkSeeds .signal graphs.size (signalSeeds graphs).1 = .ok ())
  (hnorms : checkSeeds .norm graphs.size (normSeeds graphs).1 = .ok ())

section Side

variable (hG : graphs[k]? = some G) (hk : k < 2)
include hsignals hG hk

theorem roleClasses_side :
    roleClasses #[G] = (roleClasses graphs).map fun c => (c.1, sideItems k c.2) := by
  have hmembers : ∀ role, (uniformSignals #[G]).items.filter (fun i => roleOf #[G] i = role) =
      sideItems k ((uniformSignals graphs).items.filter fun i => roleOf graphs i = role) := by
    intro role
    rw [← uniformSignals_side hG, Labelling.items_side]
    exact filter_sideItems fun index => by rw [roleOf_side hG]
  rw [roleClasses, roleClasses, List.map_filterMap]
  congr 1
  funext role
  dsimp only
  rw [hmembers, isEmpty_sideItems fun hne => exists_mem_side_of_checkSeeds hsize size_uniformSignals
    (isSeeding_roleClasses graphs) hsignals
    (List.mem_map_of_mem ((mem_roleClasses graphs).2 ⟨rfl, hne⟩)) hne hk]
  split <;> rfl

theorem signalSeeds_side :
    signalSeeds #[G] =
      ((signalSeeds graphs).1.map fun part => (part.1, sideItems k part.2), (signalSeeds graphs).2) := by
  have hbalanced := isBalanced_of_checkSeeds hsize hsignals
  have hlabels := @seedLabels_map_sideItems k 0 0 _ hbalanced hk
  rw [List.map_map] at hlabels
  rw [signalSeeds, signalSeeds, roleClasses_side hsize hsignals hG hk, List.map_map, hsize]
  exact hlabels

include hnorms

theorem normSeeds_side :
    normSeeds #[G] =
      ((normSeeds graphs).1.map fun part => (part.1, sideItems k part.2), (normSeeds graphs).2) := by
  have hbalanced := isBalanced_of_checkSeeds hsize hnorms
  have hlabels := @seedLabels_map_sideItems k 0 (signalSeeds graphs).2 _ hbalanced hk
  have hlists : normSeedLists #[G] = (normSeedLists graphs).map (sideItems k) := by
    rw [normSeedLists, normSeedLists, ← uniformNorms_side hG, Labelling.items_side,
      isEmpty_sideItems fun hne => exists_mem_side_of_checkSeeds hsize size_uniformNorms
        (isSeeding_normSeedLists graphs) hnorms (mem_normSeedLists.2 ⟨rfl, hne⟩) hne hk]
    split <;> rfl
  rw [normSeeds, normSeeds, signalSeeds_side hsize hsignals hG hk, hsize]
  exact (congrArg (seedLabels 1 0 (signalSeeds graphs).2) hlists).trans hlabels

/-- The seed classes of a side are what is there of the seed classes. -/
theorem seeded_side : seeded #[G] = (seeded graphs).side k := by
  have hsignalSeeds := signalSeeds_side hsize hsignals hG hk
  have hnormSeeds := normSeeds_side hsize hsignals hnorms hG hk
  have hroles := roleClasses_side hsize hsignals hG hk
  have hmode : ∀ (l : Labelling) (parts : List (ClassLabel × List Item)),
      seedMode (l.side k) (parts.map fun part => (part.1, sideItems k part.2)) =
        (seedMode l parts).side k := by
    intro l parts
    rw [seedMode, ← Labelling.side_relabel, List.map_map]
    rfl
  refine RefinementState.mk.injEq .. ▸ ⟨?_, ?_, ?_, rfl, ?_⟩
  · rw [hnormSeeds, ← uniformNorms_side hG]
    exact hmode _ _
  · rw [hsignalSeeds, ← uniformSignals_side hG]
    exact hmode _ _
  · rw [hnormSeeds]
    rfl
  · show List.map _ _ ++ List.map _ _ = List.map _ (List.map _ _ ++ List.map _ _)
    rw [hroles, hnormSeeds, hsize]
    simp only [List.map_append, List.map_map]
    refine congrArg₂ _ (List.map_congr_left fun c hc => ?_) (List.map_congr_left fun part hpart => ?_)
    · exact congrArg (TraceEntry.signalSeed _)
        (take_sizes (isBalanced_of_checkSeeds hsize hsignals _ (List.mem_map_of_mem hc)) hk)
    · exact congrArg TraceEntry.normSeed
        (take_sizes (isBalanced_of_checkSeeds hsize hnorms _ (mem_seedLabels hpart)) hk)

end Side

/-- A seed label is carried on both sides. -/
theorem isShared_seedLabels {kind : ItemKind} {l : Labelling} {lists : List (List Item)}
    {rank nSingular : Nat} (hl : l.size = graphs.size) (hlists : IsSeeding l lists)
    (hcheck : checkSeeds kind graphs.size (seedLabels graphs.size rank nSingular lists).1 = .ok ())
    (hcover : ∀ i, l.Valid i → ∃ items ∈ lists, i ∈ items) :
    (l.relabel (seedLabels graphs.size rank nSingular lists).1).IsShared := by
  intro i hi k hk
  obtain ⟨items, hitems, hmem⟩ := hcover i ((Labelling.valid_relabel _).1 hi)
  obtain ⟨part, hpart, rfl, hlabel⟩ :=
    @IsSeeding.exists_part l lists graphs.size rank nSingular hlists items hitems i hmem
  obtain ⟨j, hj, hside⟩ := exists_mem_side_of_checkSeeds hsize hl hlists hcheck hitems
    (List.ne_nil_of_mem hmem) hk
  refine ⟨j, (Labelling.valid_relabel _).2 (hlists.valid _ hitems j hj), hside, ?_⟩
  rw [hlabel, hlists.label_of_mem hpart hj]

include hsignals

/-- The constant signals make a settled class. -/
theorem label_constant_seeded (hgraphs : ∀ G ∈ graphs, G.IsIncidence) (hk : k < 2) :
    ((seeded graphs).signals.labels.label ⟨k, constantSignal⟩).isSingular = true := by
  have hvalid : ∀ m < 2, (uniformSignals graphs).Valid ⟨m, constantSignal⟩ := by
    intro m hm
    have hG := Array.getElem?_eq_getElem (hsize.symm ▸ hm : m < graphs.size)
    exact valid_uniformSignals.2 ⟨_, hG, (hgraphs _ (Array.mem_of_getElem? hG)).constant_lt⟩
  obtain ⟨part, hpart, hmem, hroles, hlabel⟩ := exists_signalSeed (hvalid k hk)
  have hlist := mem_seedLabels hpart
  have hconstant : ∀ j ∈ part.2, j.index = constantSignal := fun j hj =>
    (roleOf_eq_constant_iff hgraphs ((isSeeding_roleClasses graphs).valid _ hlist j hj)).1
      ((hroles j hj).trans ((roleOf_eq_constant_iff hgraphs (hvalid k hk)).2 rfl))
  rw [hlabel, isSingular_seedLabels hpart, hsize]
  refine List.all_eq_true.2 fun n hn => ?_
  obtain ⟨m, hm, rfl⟩ := List.mem_map.1 hn
  -- the only constant signal of a side is there, since the class has members on both sides
  obtain ⟨j, hj, hside⟩ := exists_mem_side_of_checkSeeds hsize size_uniformSignals
    (isSeeding_roleClasses graphs) hsignals hlist (List.ne_nil_of_mem hmem) (List.mem_range.1 hm)
  have hsingle : part.2.filter (·.side = m) = [j] := by
    refine List.perm_singleton.1 ((List.perm_ext_iff_of_nodup
      (((isSeeding_roleClasses graphs).nodup _ hlist).filter _) (List.nodup_singleton j)).2
      fun i => ?_)
    rw [List.mem_filter, List.mem_singleton, decide_eq_true_eq]
    constructor
    · rintro ⟨hi, hi'⟩
      obtain ⟨side, index⟩ := i
      obtain ⟨side', index'⟩ := j
      cases hside
      cases hi'
      exact congrArg (Item.mk _) ((hconstant _ hi).trans (hconstant _ hj).symm)
    · rintro rfl
      exact ⟨hj, hside⟩
  rw [List.countP_eq_length_filter, hsingle]
  rfl

include hnorms

theorem seeded_isShared (hgraphs : ∀ G ∈ graphs, G.IsIncidence) : (seeded graphs).IsShared graphs where
  toIsLabelled := seeded_isLabelled graphs
  constant _ hk := label_constant_seeded hsize hsignals hgraphs hk
  shared_norms := isShared_seedLabels hsize size_uniformNorms (isSeeding_normSeedLists graphs) hnorms
    fun _ hi => ⟨_, mem_normSeedLists.2 ⟨rfl, List.ne_nil_of_mem (Labelling.mem_items.2 hi)⟩,
      Labelling.mem_items.2 hi⟩
  shared_signals := isShared_seedLabels hsize size_uniformSignals (isSeeding_roleClasses graphs)
    hsignals fun i hi => by
      obtain ⟨part, hpart, hmem, -⟩ := exists_signalSeed hi
      exact ⟨part.2, mem_seedLabels hpart, hmem⟩

end Seeds

end RefinementState

/-! ## Classes of a side -/

/-- On each of two sides that share all labels, the classes have the members that they have there. -/
theorem Labelling.IsShared.classes_side {l : Labelling} (h : l.IsShared) (hsize : l.size = 2)
    (hk : k < 2) :
    (l.side k).classes = l.classes.mapValues fun _ members => [members.getD k []] := by
  have hmembers : SortedMap.groupValues ((l.side k).items.map fun i => ((l.side k).label i, i)) =
      (SortedMap.groupValues (l.items.map fun i => (l.label i, i))).mapValues
        fun _ => sideItems k := by
    rw [Labelling.items_side]
    refine groupValues_sideItems (fun _ => rfl) fun i hi => ?_
    obtain ⟨j, hj, hside, hlabel⟩ := h i (Labelling.mem_items.1 hi) k hk
    exact ⟨j, Labelling.mem_items.2 hj, hside, hlabel⟩
  have hindices : ∀ members : List Item, ((sideItems k members).filter (·.side = 0)).map (·.index) =
      (members.filter (·.side = k)).map (·.index) := by
    intro members
    have hall : (sideItems k members).filter (·.side = 0) = sideItems k members :=
      List.filter_eq_self.2 fun i hi => decide_eq_true (mem_sideItems.1 hi).1
    rw [hall, sideItems, List.map_map]
    rfl
  refine SortedMap.ext_get? fun x => ?_
  rw [classes, classes, hmembers]
  simp only [SortedMap.get?_mapValues, Option.map_map]
  refine congrArg (Option.map · _) (funext fun members => ?_)
  have hsides : k = 0 ∨ k = 1 := by omega
  show [((sideItems k members).filter (·.side = 0)).map (·.index)] = [_]
  rw [hindices, hsize]
  rcases hsides with rfl | rfl <;> rfl

/-! ## Refinements of a side -/

namespace Refinement

open RefinementState

/-- A refinement of two sides, seen from one of them. -/
def side (r : Refinement) (k : Nat) : Refinement where
  normLabels := r.normLabels.side k
  signalLabels := r.signalLabels.side k
  rounds := r.rounds
  trace := r.trace.map (·.single)

variable {graphs : Array SideGraph} {G : SideGraph} {r : Refinement}

theorem ofGraphs_side (hsize : graphs.size = 2) (hgraphs : ∀ G ∈ graphs, G.IsIncidence)
    (hG : graphs[k]? = some G) (hk : k < 2) (h : ofGraphs graphs = .ok r) :
    ofGraphs #[G] = .ok (r.side k) := by
  obtain ⟨hsignals, hnorms, s, hruns, rfl⟩ := ofGraphs_eq_ok_iff.1 h
  have hrun := hruns.side hsize hgraphs hG hk (seeded_isShared hsize hsignals hnorms hgraphs)
  rw [← seeded_side hsize hsignals hnorms hG hk] at hrun
  exact ofGraphs_eq_ok_iff.2 ⟨forM_eq_ok_iff.2 fun _ _ => checkSizes_single ..,
    forM_eq_ok_iff.2 fun _ _ => checkSizes_single .., _, hrun, rfl⟩

/-- What a refinement of two sides gives to one of them is what refining that side alone gives it: the
labels, the members of the classes, and the number of rounds. -/
structure AgreesOnSide (r : Refinement) (k : Nat) (alone : Refinement) : Prop where
  normLabels : alone.normLabels = r.normLabels.side k
  signalLabels : alone.signalLabels = r.signalLabels.side k
  normClasses : alone.normClasses = r.normClasses.mapValues fun _ members => [members.getD k []]
  signalClasses :
    alone.signalClasses = r.signalClasses.mapValues fun _ members => [members.getD k []]
  rounds : alone.rounds = r.rounds

theorem agreesOnSide (hsize : graphs.size = 2) (hgraphs : ∀ G ∈ graphs, G.IsIncidence) (hk : k < 2)
    (h : ofGraphs graphs = .ok r) : r.AgreesOnSide k (r.side k) := by
  obtain ⟨hsignals, hnorms, s, hruns, rfl⟩ := ofGraphs_eq_ok_iff.1 h
  have hs := hruns.invariant (roundOf_isShared hsize hgraphs)
    (seeded_isShared hsize hsignals hnorms hgraphs)
  exact ⟨rfl, rfl, hs.shared_norms.classes_side (hs.size_norms.trans hsize) hk,
    hs.shared_signals.classes_side (hs.size_signals.trans hsize) hk, rfl⟩

theorem single_eq_side {left right : Circuit} {leftNorms rightNorms : Array Norm} {r : Refinement}
    (h : pair left leftNorms right rightNorms = .ok r) :
    single left leftNorms = r.side 0 ∧ single right rightNorms = r.side 1 := by
  have hgraphs := SideGraph.isIncidence_pair left leftNorms right rightNorms
  exact ⟨Except.ok.inj
      ((ofGraphs_single left leftNorms).symm.trans (ofGraphs_side rfl hgraphs rfl Nat.two_pos h)),
    Except.ok.inj
      ((ofGraphs_single right rightNorms).symm.trans (ofGraphs_side rfl hgraphs rfl Nat.one_lt_two h))⟩

/-- Refining two circuits in lockstep does to each of them what refining it alone does, and the two
runs alone leave the same trace. -/
theorem pair_agrees_single {left right : Circuit} {leftNorms rightNorms : Array Norm} {r : Refinement}
    (h : pair left leftNorms right rightNorms = .ok r) :
    r.AgreesOnSide 0 (single left leftNorms) ∧ r.AgreesOnSide 1 (single right rightNorms) ∧
      (single left leftNorms).trace = (single right rightNorms).trace := by
  have hgraphs := SideGraph.isIncidence_pair left leftNorms right rightNorms
  have hleft : single left leftNorms = r.side 0 := Except.ok.inj
    ((ofGraphs_single left leftNorms).symm.trans (ofGraphs_side rfl hgraphs rfl Nat.two_pos h))
  have hright : single right rightNorms = r.side 1 := Except.ok.inj
    ((ofGraphs_single right rightNorms).symm.trans (ofGraphs_side rfl hgraphs rfl Nat.one_lt_two h))
  rw [hleft, hright]
  exact ⟨agreesOnSide rfl hgraphs Nat.two_pos h, agreesOnSide rfl hgraphs Nat.one_lt_two h, rfl⟩

theorem pair_agrees_single_sample :
    ∃ r, pair Circuit.Sample.left Circuit.Sample.left.normalize
        Circuit.Sample.right Circuit.Sample.right.normalize = .ok r ∧
      r.AgreesOnSide 0 (single Circuit.Sample.left Circuit.Sample.left.normalize) ∧
      r.AgreesOnSide 1 (single Circuit.Sample.right Circuit.Sample.right.normalize) := by
  obtain ⟨r, hpair⟩ := Circuit.Sample.fullEquivalence.exists_pair_eq_ok Circuit.Sample.isProper_left
    Circuit.Sample.isProper_right.reduced
  obtain ⟨hleft, hright, -⟩ := pair_agrees_single hpair
  exact ⟨r, hpair, hleft, hright⟩

end Refinement

end CircuitEquiv
