-- SUMMARY: Refinement with tables of class members beside the labels, and that it makes the rounds of refinement without them.
import CircuitEquiv.Proofs.Refinement.Balance
import Mathlib.Data.List.TakeWhile

/-!
# Tables of classes

Refinement reads the classes off the labels of the items. It can also be run with a table of the
members of every class: a round looks up the classes on its frontier, and a class that falls apart is
taken out of the table before its parts are put in. The labels and the table are changed one by one,
and after every round the table still is what can be read off the labels.
-/

namespace CircuitEquiv

/-- The members of every class of one kind, per side. -/
abbrev ClassTable := SortedMap ClassLabel (List (List Nat))

/-- The indices of some items, per side. -/
def perSide (n : Nat) (items : List Item) : List (List Nat) :=
  (List.range n).map fun k => (items.filter (·.side = k)).map (·.index)

/-- The items that are listed per side. -/
def itemsOf (members : List (List Nat)) : List Item :=
  members.zipIdx.flatMap fun (indices, k) => indices.map fun i => ⟨k, i⟩

/-- A class that falls apart: its label, and its parts with their new labels. -/
structure ClassSplit where
  old : ClassLabel
  parts : List (ClassLabel × List Item)

/-- Splits the classes of ascending groups; a class with a single group is kept. -/
def splitClasses {κ : Type} (round : Nat) (settled : List Item → Bool) (supply : LabelSupply) :
    List (Group κ Item) → List ClassSplit × LabelSupply
  | [] => ([], supply)
  | g :: rest =>
    let siblings := rest.takeWhile (·.1.1 = g.1.1)
    let others := rest.dropWhile (·.1.1 = g.1.1)
    if siblings.isEmpty then splitClasses round settled supply others
    else
      let (parts, supply) := labelParts round settled supply (g :: siblings)
      let (splits, supply) := splitClasses round settled supply others
      (⟨g.1.1, parts⟩ :: splits, supply)
termination_by groups => groups.length
decreasing_by
  all_goals exact Nat.lt_succ_of_le (List.dropWhile_sublist _).length_le

namespace ClassTable

/-- The groups of the classes on a frontier, looked up in the table. -/
def groups {κ : Type} [Ord κ] [Std.TransOrd κ] (classes : ClassTable) (frontier : SortedSet ClassLabel)
    (key : Item → κ) : List (Group κ Item) :=
  (SortedMap.groupValues (frontier.toList.flatMap fun x =>
    (itemsOf ((classes.get? x).getD [])).map fun i => ((x, key i), i))).entries

/-- Puts classes into the table. -/
def install (n : Nat) (classes : ClassTable) (parts : List (ClassLabel × List Item)) : ClassTable :=
  parts.foldl (fun t (x, items) => t.insert x (perSide n items)) classes

/-- Takes a class out of the table and puts its parts in. -/
def replace (n : Nat) (classes : ClassTable) (split : ClassSplit) : ClassTable :=
  install n (classes.erase split.old) split.parts

end ClassTable

/-- The state between two rounds, with the classes of both kinds. -/
structure TabledState extends RefinementState where
  normClasses : ClassTable
  signalClasses : ClassTable

namespace TabledState

open RefinementState

/-- The state before the first round. -/
def start (graphs : Array SideGraph) : Except Difference TabledState := do
  let s ← RefinementState.start graphs
  return ⟨s, ClassTable.install graphs.size .empty (normSeeds graphs).1,
    ClassTable.install graphs.size .empty (signalSeeds graphs).1⟩

/-- A norm round: the next state, and whether a class was split. -/
def normRound (graphs : Array SideGraph) (s : TabledState) : Except Difference (TabledState × Bool) := do
  let n := graphs.size
  let round := s.round + 1
  let groups := s.normClasses.groups s.norms.frontier (normKey graphs s.signals.labels)
  groups.forM fun g => checkSizes .norm g.1.1 round (sizes n g.2)
  let (splits, supply) := splitClasses round (isSettled n) ⟨s.nSingular, 0⟩ groups
  let changed := splits.flatMap fun split => split.parts.flatMap (·.2)
  let next : TabledState := {
    norms := ⟨splits.foldl (fun l split => l.relabel split.parts) s.norms.labels, SortedSet.empty⟩
    normClasses := splits.foldl (ClassTable.replace n) s.normClasses
    signals := { s.signals with
      frontier := s.signals.frontier.insertAll
        (openLabels s.signals.labels (changed.flatMap (signalsOf graphs))) }
    signalClasses := s.signalClasses
    nSingular := supply.nSingular, round
    trace := s.trace ++ groups.map fun g => .norm round g.1.1 g.1.2 (sizes n g.2) }
  return (next, !changed.isEmpty)

/-- A signal round: the next state, and whether a class was split. -/
def signalRound (graphs : Array SideGraph) (s : TabledState) :
    Except Difference (TabledState × Bool) := do
  let n := graphs.size
  let round := s.round + 1
  let groups := s.signalClasses.groups s.signals.frontier
    (signalKey graphs s.norms.labels s.signals.labels)
  groups.forM fun g => checkSizes .signal g.1.1 round (sizes n g.2)
  let (splits, supply) := splitClasses round (isSettled n) ⟨s.nSingular, 0⟩ groups
  let changed := splits.flatMap fun split => split.parts.flatMap (·.2)
  let next : TabledState := {
    norms := { s.norms with
      frontier := s.norms.frontier.insertAll
        (openLabels s.norms.labels (changed.flatMap (normsOf graphs))) }
    normClasses := s.normClasses
    signals := ⟨splits.foldl (fun l split => l.relabel split.parts) s.signals.labels, SortedSet.empty⟩
    signalClasses := splits.foldl (ClassTable.replace n) s.signalClasses
    nSingular := supply.nSingular, round
    trace := s.trace ++ groups.map fun g => .signal round g.1.1 g.1.2 (sizes n g.2) }
  return (next, !changed.isEmpty)

/-- The round of a kind. -/
def roundOf (graphs : Array SideGraph) (kind : ItemKind) (s : TabledState) :
    Except Difference (TabledState × Bool) :=
  match kind with
  | .norm => s.normRound graphs
  | .signal => s.signalRound graphs

/-- The table of one kind. -/
def classes (s : TabledState) : ItemKind → ClassTable
  | .norm => s.normClasses
  | .signal => s.signalClasses

end TabledState

/-! ## Items side by side -/

theorem flatMap_zipIdx {α β : Type} (l : List α) (d : α) (f : α × Nat → List β) :
    l.zipIdx.flatMap f = (List.range l.length).flatMap fun k => f (l.getD k d, k) := by
  have hzip : l.zipIdx = (List.range l.length).map fun k => (l.getD k d, k) := by
    refine List.ext_getElem (by simp) fun k hk _ => ?_
    have hk' : k < l.length := by simpa using hk
    simp [List.getD, List.getElem?_eq_getElem hk']
  rw [hzip, List.flatMap_map]

/-- Of a list without repetition, only the element itself contributes what is asked of it alone. -/
theorem flatMap_ite_eq {α β : Type} [DecidableEq α] {l : List α} (h : l.Nodup) (a : α) (r : List β) :
    (l.flatMap fun b => if b = a then r else []) = if a ∈ l then r else [] := by
  induction l with
  | nil => rfl
  | cons b rest ih =>
    obtain ⟨hb, hrest⟩ := List.nodup_cons.1 h
    rw [List.flatMap_cons, ih hrest]
    by_cases hba : b = a
    · subst hba
      simp [hb]
    · simp [hba, Ne.symm hba]

namespace Labelling

variable {l : Labelling} {x : ClassLabel} {parts : List (ClassLabel × List Item)}

/-- The number of items on a side. -/
def sideSize (l : Labelling) (k : Nat) : Nat := (l[k]?.getD #[]).size

theorem items_eq (l : Labelling) :
    l.items = (List.range l.size).flatMap fun k => (List.range (l.sideSize k)).map fun i => ⟨k, i⟩ := by
  rw [items, flatMap_zipIdx l.toList #[]]
  simp [sideSize, List.getD]

theorem filter_items_side {k : Nat} (hk : k < l.size) :
    l.items.filter (·.side = k) = (List.range (l.sideSize k)).map fun i => ⟨k, i⟩ := by
  have hside : ∀ j, ((List.range (l.sideSize j)).map fun i => (⟨j, i⟩ : Item)).filter (·.side = k) =
      if j = k then (List.range (l.sideSize k)).map fun i => ⟨k, i⟩ else [] := fun j => by
    by_cases hj : j = k
    · subst hj
      simp
    · simp [hj]
  rw [items_eq, List.filter_flatMap]
  simp only [hside]
  rw [flatMap_ite_eq List.nodup_range, if_pos (List.mem_range.2 hk)]

/-- Items are listed side by side. -/
theorem items_eq_flatMap_filter (l : Labelling) :
    l.items = (List.range l.size).flatMap fun k => l.items.filter (·.side = k) := by
  conv_lhs => rw [items_eq]
  refine List.flatMap_congr fun k hk => ?_
  rw [filter_items_side (List.mem_range.1 hk)]

theorem map_index_filter_side (k : Nat) (items : List Item) :
    ((items.filter (·.side = k)).map (·.index)).map (fun i => (⟨k, i⟩ : Item)) =
      items.filter (·.side = k) := by
  rw [List.map_map]
  refine (List.map_congr_left fun i hi => ?_).trans (List.map_id _)
  rw [← of_decide_eq_true (List.mem_filter.1 hi).2]
  rfl

/-- Listing some items per side loses nothing. -/
theorem itemsOf_perSide (p : Item → Bool) :
    itemsOf (perSide l.size (l.items.filter p)) = l.items.filter p := by
  rw [itemsOf, flatMap_zipIdx _ [], perSide, List.length_map, List.length_range]
  conv_rhs => rw [items_eq_flatMap_filter, List.filter_flatMap]
  refine List.flatMap_congr fun k hk => ?_
  have hget : ((List.range l.size).map fun k =>
      ((l.items.filter p).filter (·.side = k)).map (·.index)).getD k [] =
        ((l.items.filter p).filter (·.side = k)).map (·.index) := by
    simp [List.getD, List.mem_range.1 hk]
  rw [hget]
  refine (map_index_filter_side k _).trans ?_
  rw [List.filter_filter, List.filter_filter]
  exact List.filter_congr fun i _ => Bool.and_comm _ _

/-! ## Classes of a labelling -/

theorem members_eq_nil_iff : l.members x = [] ↔ ¬∃ i, l.Valid i ∧ l.label i = x := by
  rw [List.eq_nil_iff_forall_not_mem]
  simp only [mem_members, not_exists]

/-- A labelling has a class for every label in use, with the items that carry it. -/
theorem get?_classes_eq (l : Labelling) (x : ClassLabel) :
    l.classes.get? x = if l.members x = [] then none else some (perSide l.size (l.members x)) := by
  unfold classes
  rw [SortedMap.get?_mapValues, SortedMap.get?_groupValues]
  have hused : x ∈ (l.items.map fun i => (l.label i, i)).map (·.1) ↔ ¬l.members x = [] := by
    rw [members_eq_nil_iff, not_not]
    simp [mem_items]
  have hmembers : ((l.items.map fun i => (l.label i, i)).filter fun e => e.1 = x).map (·.2) =
      l.members x := by
    rw [List.filter_map, List.map_map]
    exact List.map_id _
  rw [hmembers]
  by_cases hx : l.members x = []
  · rw [if_pos hx, if_neg fun h => hused.1 h hx]
    rfl
  · rw [if_neg hx, if_pos (hused.2 hx)]
    rfl

/-- The items of a class that is looked up are those that carry its label. -/
theorem itemsOf_get?_classes (l : Labelling) (x : ClassLabel) :
    itemsOf ((l.classes.get? x).getD []) = l.members x := by
  rw [get?_classes_eq]
  split
  · rename_i h
    rw [h]
    rfl
  · exact itemsOf_perSide _

theorem sideSize_set (l : Labelling) (i : Item) (x : ClassLabel) (k : Nat) :
    (l.set i x).sideSize k = l.sideSize k := by
  unfold sideSize
  rw [getElem?_set]
  split
  · cases l[k]? <;> simp
  · rfl

theorem sideSize_relabel (l : Labelling) (parts : List (ClassLabel × List Item)) (k : Nat) :
    (l.relabel parts).sideSize k = l.sideSize k := by
  have hitems : ∀ (items : List Item) (x : ClassLabel) (l : Labelling),
      (items.foldl (fun l i => l.set i x) l).sideSize k = l.sideSize k := by
    intro items x
    induction items with
    | nil => exact fun _ => rfl
    | cons i rest ih => exact fun l => (ih _).trans (sideSize_set ..)
  induction parts generalizing l with
  | nil => rfl
  | cons part rest ih => rw [relabel_cons, ih, hitems]

/-- Relabelling keeps the list of items. -/
theorem items_relabel (l : Labelling) (parts : List (ClassLabel × List Item)) :
    (l.relabel parts).items = l.items := by
  rw [items_eq, items_eq, size_relabel]
  simp only [sideSize_relabel]

/-- The members of a label after relabelling, if some of the items are known to be them. -/
theorem members_relabel_eq {items : List Item} (hitems : ∃ p : Item → Bool, items = l.items.filter p)
    (h : ∀ i, i ∈ (l.relabel parts).members x ↔ i ∈ items) : (l.relabel parts).members x = items := by
  obtain ⟨p, rfl⟩ := hitems
  have hfilter : (l.relabel parts).members x = l.items.filter fun i => (l.relabel parts).label i = x := by
    rw [members, items_relabel]
  rw [hfilter] at h ⊢
  refine List.filter_congr fun i hi => Bool.eq_iff_iff.2 ?_
  simpa only [List.mem_filter, hi, true_and] using h i

theorem relabel_append (l : Labelling) (parts parts' : List (ClassLabel × List Item)) :
    l.relabel (parts ++ parts') = (l.relabel parts).relabel parts' := List.foldl_append

end Labelling

/-! ## Groups that are looked up -/

section Groups

variable {κ : Type} [Ord κ] [Std.TransOrd κ] [Std.LawfulEqOrd κ] [DecidableEq κ]

/-- Groups depend on the order of the items within each class only. -/
theorem groupItems_congr {label : Item → ClassLabel} {key : Item → κ} {items items' : List Item}
    (h : ∀ x, items.filter (label · = x) = items'.filter (label · = x)) :
    groupItems label key items = groupItems label key items' := by
  have hgroup : ∀ (l : List Item) (k : ClassLabel × κ), l.filter (fun i => (label i, key i) = k) =
      (l.filter (label · = k.1)).filter (key · = k.2) := fun l k => by
    rw [List.filter_filter]
    refine List.filter_congr fun i _ => ?_
    rw [← Bool.decide_and, decide_eq_decide, Prod.ext_iff]
    exact and_comm
  have hsame : ∀ k : ClassLabel × κ, items.filter (fun i => (label i, key i) = k) =
      items'.filter (fun i => (label i, key i) = k) := fun k => by
    rw [hgroup, hgroup, h]
  have hex : ∀ (l : List Item) (k : ClassLabel × κ), (∃ i ∈ l, (label i, key i) = k) ↔
      ∃ i, i ∈ l.filter fun i => (label i, key i) = k := fun l k => by
    simp only [List.mem_filter, decide_eq_true_eq]
  refine congrArg SortedMap.entries (SortedMap.ext_entries_perm ?_)
  refine (List.perm_ext_iff_of_nodup (SortedMap.nodup_entries _) (SortedMap.nodup_entries _)).2
    fun g => ?_
  have hmem := @mem_groupItems_iff κ Item _ _ _ _ label key items g
  have hmem' := @mem_groupItems_iff κ Item _ _ _ _ label key items' g
  rw [hex, hsame] at hmem
  rw [hex] at hmem'
  exact hmem.trans hmem'.symm

/-- A round without tables looks at the same groups. -/
theorem groups_classes (l : Labelling) (frontier : SortedSet ClassLabel) (key : Item → κ) :
    ClassTable.groups l.classes frontier key = RefinementState.frontierGroups ⟨l, frontier⟩ key := by
  have hlooked : (frontier.toList.flatMap fun x =>
      (itemsOf ((l.classes.get? x).getD [])).map fun i => ((x, key i), i)) =
      (frontier.toList.flatMap l.members).map fun i => ((l.label i, key i), i) := by
    rw [List.map_flatMap]
    refine List.flatMap_congr fun x _ => ?_
    rw [Labelling.itemsOf_get?_classes]
    exact List.map_congr_left fun i hi => by rw [(Labelling.mem_members.1 hi).2]
  unfold ClassTable.groups
  rw [hlooked]
  refine groupItems_congr fun x => ?_
  have hmembers : ∀ y, (l.members y).filter (l.label · = x) = if y = x then l.members x else [] := by
    intro y
    by_cases hy : y = x
    · subst hy
      rw [if_pos rfl]
      exact List.filter_eq_self.2 fun i hi => decide_eq_true (Labelling.mem_members.1 hi).2
    · rw [if_neg hy, List.filter_eq_nil_iff]
      intro i hi hx
      exact hy ((Labelling.mem_members.1 hi).2.symm.trans (of_decide_eq_true hx))
  rw [List.filter_flatMap]
  simp only [hmembers]
  rw [flatMap_ite_eq frontier.nodup_toList, List.filter_filter]
  split
  · rename_i hx
    refine List.filter_congr fun i _ => ?_
    rw [← Bool.decide_and, decide_eq_decide]
    exact ⟨fun h => ⟨h, h ▸ hx⟩, fun h => h.1⟩
  · rename_i hx
    symm
    rw [List.filter_eq_nil_iff]
    intro i _ h
    obtain ⟨rfl, hfrontier⟩ : l.label i = x ∧ l.label i ∈ frontier := by simpa using h
    exact hx hfrontier

end Groups

/-! ## Splits -/

section Splits

variable {κ : Type} {round : Nat} {settled : List Item → Bool} {supply : LabelSupply}

theorem labelParts_append (supply : LabelSupply) (groups groups' : List (Group κ Item)) :
    labelParts round settled supply (groups ++ groups') =
      ((labelParts round settled supply groups).1 ++
        (labelParts round settled (labelParts round settled supply groups).2 groups').1,
      (labelParts round settled (labelParts round settled supply groups).2 groups').2) := by
  induction groups generalizing supply with
  | nil => rfl
  | cons g rest ih => rw [List.cons_append, labelParts_cons, labelParts_cons, ih, List.cons_append]

/-- Groups of other classes do not count when a class is split. -/
theorem splitParts_append {groups groups' : List (Group κ Item)}
    (h : ∀ g ∈ groups, ∀ g' ∈ groups', g.1.1 ≠ g'.1.1) :
    splitParts (groups ++ groups') = splitParts groups ++ splitParts groups' := by
  have hzero : ∀ (l : List (Group κ Item)) (x : ClassLabel), (∀ g ∈ l, g.1.1 ≠ x) →
      l.countP (fun g => g.1.1 = x) = 0 := fun l x hx =>
    List.countP_eq_zero.2 fun g hg => by simpa using hx g hg
  unfold splitParts
  rw [List.filter_append]
  congr 1
  · refine List.filter_congr fun g hg => ?_
    rw [List.countP_append, hzero groups' _ fun g' hg' heq => h g hg g' hg' heq.symm, Nat.add_zero]
  · refine List.filter_congr fun g hg => ?_
    rw [List.countP_append, hzero groups _ fun g' hg' => h g' hg' g hg, Nat.zero_add]

/-- The groups of one class are its parts, unless there is only one. -/
theorem splitParts_of_label {groups : List (Group κ Item)} {x : ClassLabel}
    (h : ∀ g ∈ groups, g.1.1 = x) : splitParts groups = if 1 < groups.length then groups else [] := by
  have hcount : ∀ g ∈ groups, groups.countP (fun g' => g'.1.1 = g.1.1) = groups.length := fun g hg =>
    List.countP_eq_length.2 fun g' hg' => by simp [h g hg, h g' hg']
  unfold splitParts
  split
  · rename_i hlength
    exact List.filter_eq_self.2 fun g hg => by simpa [hcount g hg] using hlength
  · rename_i hlength
    exact List.filter_eq_nil_iff.2 fun g hg => by simpa [hcount g hg] using hlength

/-- Groups in ascending order of their labels. -/
def IsAscending (groups : List (Group κ Item)) : Prop :=
  groups.Pairwise fun g h => (compare g.1.1 h.1.1).isLE

/-- Behind the groups of the first class in ascending groups there are only groups of other classes. -/
theorem IsAscending.label_ne_of_mem_dropWhile {g : Group κ Item} {rest : List (Group κ Item)}
    (h : IsAscending (g :: rest)) : ∀ g' ∈ rest.dropWhile (·.1.1 = g.1.1), g'.1.1 ≠ g.1.1 := by
  obtain ⟨hg, hrest⟩ := List.pairwise_cons.1 h
  clear h
  induction rest with
  | nil => exact fun _ hmem => absurd hmem List.not_mem_nil
  | cons g' rest ih =>
    obtain ⟨hg', hrest⟩ := List.pairwise_cons.1 hrest
    rw [List.dropWhile_cons]
    split
    · exact ih (fun h hh => hg h (List.mem_cons_of_mem _ hh)) hrest
    · rename_i hne
      have heq : g'.1.1 ≠ g.1.1 := fun heq => hne (decide_eq_true heq)
      intro h hh hlabel
      rcases List.mem_cons.1 hh with rfl | hh
      · exact heq hlabel
      · have hle := hg' h hh
        rw [hlabel] at hle
        exact heq (eq_of_isLE_isLE hle (hg g' List.mem_cons_self))

theorem label_of_mem_takeWhile {g g' : Group κ Item} {rest : List (Group κ Item)}
    (h : g' ∈ g :: rest.takeWhile (·.1.1 = g.1.1)) : g'.1.1 = g.1.1 := by
  rcases List.mem_cons.1 h with rfl | h
  · rfl
  · exact of_decide_eq_true
      (List.mem_takeWhile_imp (p := fun h : Group κ Item => decide (h.1.1 = g.1.1)) h)

/-- The first class of ascending groups has them up to the first group of another class as its parts. -/
theorem IsAscending.splitParts_cons {g : Group κ Item} {rest : List (Group κ Item)}
    (h : IsAscending (g :: rest)) :
    splitParts (g :: rest) =
      (if (rest.takeWhile (·.1.1 = g.1.1)).isEmpty then [] else g :: rest.takeWhile (·.1.1 = g.1.1)) ++
        splitParts (rest.dropWhile (·.1.1 = g.1.1)) := by
  have hown : ∀ g' ∈ g :: rest.takeWhile (·.1.1 = g.1.1), g'.1.1 = g.1.1 :=
    fun _ => label_of_mem_takeWhile
  have hcut : g :: rest = (g :: rest.takeWhile (·.1.1 = g.1.1)) ++ rest.dropWhile (·.1.1 = g.1.1) := by
    rw [List.cons_append, List.takeWhile_append_dropWhile]
  conv_lhs => rw [hcut]
  rw [splitParts_append fun g' hg' g'' hg'' heq =>
    h.label_ne_of_mem_dropWhile g'' hg'' (heq.symm.trans (hown g' hg')), splitParts_of_label hown]
  cases rest.takeWhile (·.1.1 = g.1.1) <;> simp

theorem splitClasses_cons (g : Group κ Item) (rest : List (Group κ Item)) :
    splitClasses round settled supply (g :: rest) =
      if (rest.takeWhile (·.1.1 = g.1.1)).isEmpty then
        splitClasses round settled supply (rest.dropWhile (·.1.1 = g.1.1))
      else
        (⟨g.1.1, (labelParts round settled supply (g :: rest.takeWhile (·.1.1 = g.1.1))).1⟩ ::
          (splitClasses round settled
            (labelParts round settled supply (g :: rest.takeWhile (·.1.1 = g.1.1))).2
            (rest.dropWhile (·.1.1 = g.1.1))).1,
        (splitClasses round settled
          (labelParts round settled supply (g :: rest.takeWhile (·.1.1 = g.1.1))).2
          (rest.dropWhile (·.1.1 = g.1.1))).2) := by
  rw [splitClasses]

theorem IsAscending.dropWhile {g : Group κ Item} {rest : List (Group κ Item)}
    (h : IsAscending (g :: rest)) : IsAscending (rest.dropWhile (·.1.1 = g.1.1)) :=
  (List.pairwise_cons.1 h).2.sublist (List.dropWhile_sublist _)

/-- The splits have the parts that a round without tables labels, and they use up the same labels. -/
theorem splitClasses_eq {groups : List (Group κ Item)} (h : IsAscending groups) :
    (splitClasses round settled supply groups).1.flatMap (·.parts) =
        (labelParts round settled supply (splitParts groups)).1 ∧
      (splitClasses round settled supply groups).2 =
        (labelParts round settled supply (splitParts groups)).2 := by
  induction supply, groups using splitClasses.induct round settled with
  | case1 supply => exact ⟨by rw [splitClasses]; rfl, by rw [splitClasses]; rfl⟩
  | case2 supply g rest siblings others halone ih =>
    rw [splitClasses_cons, h.splitParts_cons, if_pos halone, if_pos halone, List.nil_append]
    exact ih h.dropWhile
  | case3 supply g rest siblings others hsiblings parts supply' hparts splits supply'' hsplits ih =>
    have hlabelled : labelParts round settled supply (g :: siblings) = (parts, supply') := hparts
    obtain ⟨hrest, hsupply⟩ := ih h.dropWhile
    rw [splitClasses_cons, h.splitParts_cons, if_neg hsiblings, if_neg hsiblings, labelParts_append,
      hlabelled, List.flatMap_cons]
    exact ⟨congrArg (parts ++ ·) hrest, hsupply⟩

/-- The classes that are split are those of the parts of a round. -/
theorem mem_old_splitClasses {groups : List (Group κ Item)} (h : IsAscending groups) {x : ClassLabel} :
    x ∈ (splitClasses round settled supply groups).1.map (·.old) ↔ ∃ g ∈ splitParts groups, g.1.1 = x := by
  induction supply, groups using splitClasses.induct round settled with
  | case1 supply =>
    rw [splitClasses]
    exact ⟨fun hmem => absurd hmem List.not_mem_nil, fun ⟨_, hg, _⟩ => absurd hg List.not_mem_nil⟩
  | case2 supply g rest siblings others halone ih =>
    rw [splitClasses_cons, h.splitParts_cons, if_pos halone, if_pos halone, List.nil_append]
    exact ih h.dropWhile
  | case3 supply g rest siblings others hsiblings parts supply' hparts splits supply'' hsplits ih =>
    have hown : (∃ g' ∈ g :: siblings, g'.1.1 = x) ↔ x = g.1.1 := by
      constructor
      · rintro ⟨g', hg', rfl⟩
        exact label_of_mem_takeWhile hg'
      · rintro rfl
        exact ⟨g, List.mem_cons_self, rfl⟩
    have hlater : x ∈ (splitClasses round settled supply' others).1.map (·.old) ↔
        ∃ g ∈ splitParts others, g.1.1 = x := ih h.dropWhile
    have hlabelled : labelParts round settled supply (g :: siblings) = (parts, supply') := hparts
    rw [splitClasses_cons, h.splitParts_cons, if_neg hsiblings, if_neg hsiblings, hlabelled,
      List.map_cons, List.mem_cons, hlater, ← hown]
    simp only [List.mem_append, or_and_right, exists_or]
    rfl

end Splits

/-! ## Changes of a table -/

namespace ClassTable

variable {n : Nat} {t : ClassTable} {x : ClassLabel} {parts : List (ClassLabel × List Item)}
  {splits : List ClassSplit}

theorem get?_install_of_not_mem (hx : x ∉ parts.map (·.1)) :
    (install n t parts).get? x = t.get? x := by
  induction parts generalizing t with
  | nil => rfl
  | cons part rest ih =>
    rw [List.map_cons, List.mem_cons, not_or] at hx
    refine (ih hx.2).trans ?_
    rw [SortedMap.get?_insert, if_neg hx.1]

theorem get?_install_of_mem (h : (parts.map (·.1)).Nodup) {part : ClassLabel × List Item}
    (hpart : part ∈ parts) : (install n t parts).get? part.1 = some (perSide n part.2) := by
  induction parts generalizing t with
  | nil => cases hpart
  | cons first rest ih =>
    obtain ⟨hfirst, hrest⟩ := List.nodup_cons.1 h
    rcases List.mem_cons.1 hpart with rfl | hpart
    · refine (get?_install_of_not_mem hfirst).trans ?_
      rw [SortedMap.get?_insert, if_pos rfl]
    · exact ih hrest hpart

/-- A label that is not issued keeps its class, unless the class is split. -/
theorem get?_foldl_replace_of_not_mem (hx : x ∉ (splits.flatMap (·.parts)).map (·.1)) :
    (splits.foldl (replace n) t).get? x = if x ∈ splits.map (·.old) then none else t.get? x := by
  induction splits generalizing t with
  | nil => rfl
  | cons split rest ih =>
    rw [List.flatMap_cons, List.map_append, List.mem_append, not_or] at hx
    rw [List.foldl_cons, ih hx.2, replace, get?_install_of_not_mem hx.1,
      SortedMap.get?_erase]
    by_cases hold : x = split.old
    · simp [hold]
    · simp [hold]

/-- A label that is issued has the part that it was issued to. -/
theorem get?_foldl_replace_of_mem (h : ((splits.flatMap (·.parts)).map (·.1)).Nodup)
    (hold : ∀ split ∈ splits, split.old ∉ (splits.flatMap (·.parts)).map (·.1))
    {part : ClassLabel × List Item} (hpart : part ∈ splits.flatMap (·.parts)) :
    (splits.foldl (replace n) t).get? part.1 = some (perSide n part.2) := by
  induction splits generalizing t with
  | nil => cases hpart
  | cons split rest ih =>
    have hall := h
    rw [List.flatMap_cons, List.map_append] at h
    obtain ⟨hown, hrest, hdisjoint⟩ := List.nodup_append'.1 h
    by_cases hlater : part ∈ rest.flatMap (·.parts)
    · refine ih hrest (fun s hs hmem => hold s (List.mem_cons_of_mem _ hs) ?_) hlater
      rw [List.flatMap_cons, List.map_append]
      exact List.mem_append_right _ hmem
    · rw [List.flatMap_cons, List.mem_append, or_iff_left hlater] at hpart
      have hnew : part.1 ∉ (rest.flatMap (·.parts)).map (·.1) := fun hmem =>
        hdisjoint (List.mem_map_of_mem hpart) hmem
      have hkept : part.1 ∉ rest.map (·.old) := fun hmem => by
        obtain ⟨s, hs, heq⟩ := List.mem_map.1 hmem
        refine hold s (List.mem_cons_of_mem _ hs) ?_
        rw [heq, List.flatMap_cons, List.map_append]
        exact List.mem_append_left _ (List.mem_map_of_mem hpart)
      rw [List.foldl_cons, get?_foldl_replace_of_not_mem hnew, if_neg hkept, replace,
        get?_install_of_mem hown hpart]

end ClassTable

namespace RefinementState

section Round

variable {κ : Type} [Ord κ] [Std.TransOrd κ] [Std.LawfulEqOrd κ] [DecidableEq κ]
  {mode : RefinementMode} {key : Item → κ} {s : RefinementState} {n : Nat}

omit [Std.LawfulEqOrd κ] [DecidableEq κ] in
theorem isAscending_frontierGroups : IsAscending (frontierGroups mode key) := by
  refine (SortedMap.sorted _).imp fun {g h} hlt => ?_
  replace hlt : (compare g.1.1 h.1.1).then (compare g.1.2 h.1.2) = .lt := hlt
  cases hc : compare g.1.1 h.1.1 with
  | lt => rfl
  | eq => rfl
  | gt =>
    rw [hc] at hlt
    cases hlt

/-- The splits of a round with tables. -/
def splitsOf (n : Nat) (s : RefinementState) (groups : List (Group κ Item)) :
    List ClassSplit × LabelSupply :=
  splitClasses (s.round + 1) (isSettled n) ⟨s.nSingular, 0⟩ groups

omit [Std.LawfulEqOrd κ] [DecidableEq κ] in
theorem flatMap_parts_splitsOf :
    (s.splitsOf n (frontierGroups mode key)).1.flatMap (·.parts) =
      (s.splitRound n (frontierGroups mode key)).1 := (splitClasses_eq isAscending_frontierGroups).1

omit [Std.LawfulEqOrd κ] [DecidableEq κ] in
theorem nSingular_splitsOf :
    (s.splitsOf n (frontierGroups mode key)).2.nSingular =
      (s.splitRound n (frontierGroups mode key)).2 :=
  congrArg LabelSupply.nSingular (splitClasses_eq isAscending_frontierGroups).2

omit [Ord κ] [Std.TransOrd κ] [Std.LawfulEqOrd κ] [DecidableEq κ] in
theorem foldl_relabel (l : Labelling) (splits : List ClassSplit) :
    splits.foldl (fun l split => l.relabel split.parts) l = l.relabel (splits.flatMap (·.parts)) := by
  induction splits generalizing l with
  | nil => rfl
  | cons split rest ih => rw [List.foldl_cons, ih, List.flatMap_cons, Labelling.relabel_append]

omit [Std.LawfulEqOrd κ] [DecidableEq κ] in
theorem foldl_relabel_splitsOf :
    (s.splitsOf n (frontierGroups mode key)).1.foldl (fun l split => l.relabel split.parts) mode.labels =
      mode.labels.relabel (s.splitRound n (frontierGroups mode key)).1 := by
  rw [foldl_relabel, flatMap_parts_splitsOf]

/-- A group of a round lists its items in their order. -/
theorem exists_filter_of_mem_splitRound {part : ClassLabel × List Item}
    (hpart : part ∈ (s.splitRound n (frontierGroups mode key)).1) :
    part.2 ≠ [] ∧ ∃ p : Item → Bool, part.2 = mode.labels.items.filter p := by
  obtain ⟨g, hg, heq⟩ := mem_splitGroups hpart
  obtain ⟨⟨i, hi, hkey⟩, hitems⟩ := mem_groupItems_iff.1 hg
  rw [heq, hitems]
  exact ⟨List.ne_nil_of_mem (List.mem_filter.2 ⟨hi, decide_eq_true hkey⟩), _, List.filter_filter ..⟩

/-- Nothing keeps the label of a class that is split. -/
theorem members_relabel_eq_nil
    (hissued : ∀ i, mode.labels.Valid i → HasBeenIssued s.round s.nSingular (mode.labels.label i))
    {x : ClassLabel} (hx : x ∉ (s.splitRound n (frontierGroups mode key)).1.map (·.1))
    (hsplit : ∃ g ∈ splitParts (frontierGroups mode key), g.1.1 = x) :
    (mode.labels.relabel (s.splitRound n (frontierGroups mode key)).1).members x = [] := by
  obtain ⟨g, hg, rfl⟩ := hsplit
  obtain ⟨⟨i, hi, hkey⟩, hitems⟩ := mem_groupItems_iff.1 (List.mem_of_mem_filter hg)
  obtain ⟨part, hpart, heq⟩ := exists_splitRound_iff.2 ⟨g, hg, rfl⟩
  have hip : i ∈ part.2 := by
    rw [heq, hitems]
    exact List.mem_filter.2 ⟨hi, decide_eq_true hkey⟩
  refine List.eq_nil_iff_forall_not_mem.2 fun j hj => ?_
  obtain ⟨hj, hnone⟩ := ((isSplit_splitRound hissued).mem_members_of_not_mem hx).1 hj
  obtain ⟨hjvalid, hjlabel⟩ := Labelling.mem_members.1 hj
  have hilabel : mode.labels.label i = g.1.1 := congrArg Prod.fst hkey
  obtain ⟨q, hq, hjq⟩ := mem_splitRound_of_label_eq hpart hip hjvalid (hjlabel.trans hilabel.symm)
  exact hnone q hq hjq

/-- A class that is not split keeps its members, unless it is a new one. -/
theorem members_relabel_of_not_split
    (hissued : ∀ i, mode.labels.Valid i → HasBeenIssued s.round s.nSingular (mode.labels.label i))
    {x : ClassLabel} (hx : x ∉ (s.splitRound n (frontierGroups mode key)).1.map (·.1))
    (hsplit : ¬ ∃ g ∈ splitParts (frontierGroups mode key), g.1.1 = x) :
    (mode.labels.relabel (s.splitRound n (frontierGroups mode key)).1).members x =
      mode.labels.members x := by
  refine Labelling.members_relabel_eq ⟨_, rfl⟩ fun i => ?_
  rw [(isSplit_splitRound hissued).mem_members_of_not_mem hx]
  refine ⟨fun h => h.1, fun h => ⟨h, fun part hpart hip => hsplit ?_⟩⟩
  obtain ⟨g, hg, heq⟩ := exists_splitRound_iff.1 ⟨part, hpart, rfl⟩
  rw [← heq] at hip
  have hlabel := ((mem_of_mem_group (List.mem_of_mem_filter hg)).1 hip).2.1
  exact ⟨g, hg, hlabel.symm.trans (Labelling.mem_members.1 h).2⟩

/-- Taking split classes out of a table and putting their parts in gives the classes of the new labels. -/
theorem foldl_replace_classes (hsize : mode.labels.size = n)
    (hissued : ∀ i, mode.labels.Valid i → HasBeenIssued s.round s.nSingular (mode.labels.label i)) :
    (s.splitsOf n (frontierGroups mode key)).1.foldl (ClassTable.replace n) mode.labels.classes =
      (mode.labels.relabel (s.splitRound n (frontierGroups mode key)).1).classes := by
  have hsplit := @isSplit_splitRound _ _ _ _ _ _ key _ n hissued
  have hparts := @flatMap_parts_splitsOf _ _ _ mode key s n
  have hold : ∀ x, x ∈ (s.splitsOf n (frontierGroups mode key)).1.map (·.old) ↔
      ∃ g ∈ splitParts (frontierGroups mode key), g.1.1 = x := fun x =>
    mem_old_splitClasses isAscending_frontierGroups
  refine SortedMap.ext_get? fun x => ?_
  by_cases hx : x ∈ (s.splitRound n (frontierGroups mode key)).1.map (·.1)
  · obtain ⟨part, hpart, rfl⟩ := List.mem_map.1 hx
    obtain ⟨hne, hfilter⟩ := exists_filter_of_mem_splitRound hpart
    have hmembers := Labelling.members_relabel_eq hfilter fun i =>
      (hsplit.members_of_mem hpart).mem_iff
    rw [Labelling.get?_classes_eq, hmembers, if_neg hne, Labelling.size_relabel, hsize,
      ClassTable.get?_foldl_replace_of_mem]
    · rw [hparts]
      exact hsplit.labels
    · intro split hmem hlabel
      obtain ⟨g, hg, heq⟩ := (hold _).1 (List.mem_map_of_mem hmem)
      rw [hparts] at hlabel
      obtain ⟨part', hpart', heq'⟩ := List.mem_map.1 hlabel
      obtain ⟨⟨i, hi, hkey⟩, -⟩ := mem_groupItems_iff.1 (List.mem_of_mem_filter hg)
      refine hsplit.unused part' hpart' i (Labelling.mem_items.1 (List.mem_of_mem_filter hi)) ?_
      rw [heq', ← heq, ← hkey]
    · rw [hparts]
      exact hpart
  · rw [ClassTable.get?_foldl_replace_of_not_mem (by rwa [hparts])]
    split
    · rename_i hmem
      rw [Labelling.get?_classes_eq, if_pos (members_relabel_eq_nil hissued hx ((hold x).1 hmem))]
    · rename_i hmem
      rw [Labelling.get?_classes_eq, Labelling.get?_classes_eq,
        members_relabel_of_not_split hissued hx (mt (hold x).2 hmem), Labelling.size_relabel]

omit [Std.LawfulEqOrd κ] [DecidableEq κ] in
theorem flatMap_items_splitsOf :
    ((s.splitsOf n (frontierGroups mode key)).1.flatMap fun split => split.parts.flatMap (·.2)) =
      (s.splitRound n (frontierGroups mode key)).1.flatMap (·.2) := by
  rw [← flatMap_parts_splitsOf, List.flatMap_assoc]

/-- An item changes its class exactly if a class is split. -/
theorem isEmpty_flatMap_splitRound :
    ((s.splitRound n (frontierGroups mode key)).1.flatMap (·.2)).isEmpty =
      (s.splitRound n (frontierGroups mode key)).1.isEmpty := by
  rw [Bool.eq_iff_iff, List.isEmpty_iff, List.isEmpty_iff, List.flatMap_eq_nil_iff]
  refine ⟨fun h => List.eq_nil_iff_forall_not_mem.2 fun part hpart => ?_, fun h part hpart => ?_⟩
  · exact (exists_filter_of_mem_splitRound hpart).1 (h part hpart)
  · rw [h] at hpart
    cases hpart

end Round

/-! ## Rounds with tables -/

/-- A state with the tables of its labels. -/
def tabled (s : RefinementState) : TabledState where
  toRefinementState := s
  normClasses := s.norms.labels.classes
  signalClasses := s.signals.labels.classes

variable {graphs : Array SideGraph} {s : RefinementState}

theorem flatMap_flatMap_eq_neighbours (adjacent : Item → List Item)
    (parts : List (ClassLabel × List Item)) :
    (parts.flatMap (·.2)).flatMap adjacent = neighbours adjacent parts := List.flatMap_assoc

/-- A norm round changes labels and table alike. -/
theorem normRound_tabled (hs : s.IsLabelled graphs) :
    s.tabled.normRound graphs = (s.normRound graphs).map fun p => (p.1.tabled, p.2) := by
  have hgroups : ClassTable.groups s.norms.labels.classes s.norms.frontier
      (normKey graphs s.signals.labels) =
    frontierGroups s.norms (normKey graphs s.signals.labels) := groups_classes _ _ _
  have hsplits : splitClasses (s.round + 1) (isSettled graphs.size) ⟨s.nSingular, 0⟩
      (frontierGroups s.norms (normKey graphs s.signals.labels)) =
    s.splitsOf graphs.size (frontierGroups s.norms (normKey graphs s.signals.labels)) := rfl
  rw [normRound_eq, normGroups, checkGroups]
  unfold TabledState.normRound
  simp only [tabled, hgroups, hsplits, foldl_relabel_splitsOf, nSingular_splitsOf,
    flatMap_items_splitsOf, isEmpty_flatMap_splitRound, flatMap_flatMap_eq_neighbours,
    foldl_replace_classes hs.size_norms hs.issued_norms]
  cases (frontierGroups s.norms (normKey graphs s.signals.labels)).forM fun g =>
    checkSizes .norm g.1.1 (s.round + 1) (sizes graphs.size g.2) <;> rfl

/-- A signal round changes labels and table alike. -/
theorem signalRound_tabled (hs : s.IsLabelled graphs) :
    s.tabled.signalRound graphs = (s.signalRound graphs).map fun p => (p.1.tabled, p.2) := by
  have hgroups : ClassTable.groups s.signals.labels.classes s.signals.frontier
      (signalKey graphs s.norms.labels s.signals.labels) =
    frontierGroups s.signals (signalKey graphs s.norms.labels s.signals.labels) := groups_classes _ _ _
  have hsplits : splitClasses (s.round + 1) (isSettled graphs.size) ⟨s.nSingular, 0⟩
      (frontierGroups s.signals (signalKey graphs s.norms.labels s.signals.labels)) =
    s.splitsOf graphs.size
      (frontierGroups s.signals (signalKey graphs s.norms.labels s.signals.labels)) := rfl
  rw [signalRound_eq, signalGroups, checkGroups]
  unfold TabledState.signalRound
  simp only [tabled, hgroups, hsplits, foldl_relabel_splitsOf, nSingular_splitsOf,
    flatMap_items_splitsOf, isEmpty_flatMap_splitRound, flatMap_flatMap_eq_neighbours,
    foldl_replace_classes hs.size_signals hs.issued_signals]
  cases (frontierGroups s.signals (signalKey graphs s.norms.labels s.signals.labels)).forM fun g =>
    checkSizes .signal g.1.1 (s.round + 1) (sizes graphs.size g.2) <;> rfl

/-- A round with tables is a round of the labels, after which the tables are those of the new labels. -/
theorem roundOf_tabled (hs : s.IsLabelled graphs) (kind : ItemKind) :
    s.tabled.roundOf graphs kind = (s.roundOf graphs kind).map fun p => (p.1.tabled, p.2) := by
  cases kind with
  | norm => exact normRound_tabled hs
  | signal => exact signalRound_tabled hs

section Seeds

variable {l : Labelling} {lists : List (List Item)} {n rank nSingular : Nat}

/-- Every item of a labelling that is seeded as a whole carries the label of a seed class. -/
theorem IsSeeding.exists_label (h : IsSeeding l lists)
    (hall : ∀ i, l.Valid i → ∃ items ∈ lists, i ∈ items) {i : Item} (hi : l.Valid i) :
    ∃ part ∈ (seedLabels n rank nSingular lists).1, i ∈ part.2 ∧
      (l.relabel (seedLabels n rank nSingular lists).1).label i = part.1 := by
  obtain ⟨items, hitems, hmem⟩ := hall i hi
  obtain ⟨part, hpart, rfl, heq⟩ := h.exists_part hitems hmem
  exact ⟨part, hpart, hmem, heq⟩

theorem IsSeeding.mem_members (h : IsSeeding l lists)
    (hall : ∀ i, l.Valid i → ∃ items ∈ lists, i ∈ items) {part : ClassLabel × List Item}
    (hpart : part ∈ (seedLabels n rank nSingular lists).1) (i : Item) :
    i ∈ (l.relabel (seedLabels n rank nSingular lists).1).members part.1 ↔ i ∈ part.2 := by
  rw [Labelling.mem_members, Labelling.valid_relabel]
  constructor
  · rintro ⟨hi, heq⟩
    obtain ⟨part', hpart', hmem, heq'⟩ := h.exists_label hall hi
    exact List.inj_on_of_nodup_map (nodup_seedLabels _ _ _ _) hpart' hpart (heq'.symm.trans heq) ▸ hmem
  · exact fun hi => ⟨h.isSplit.1 part hpart i hi, h.label_of_mem hpart hi⟩

/-- Putting seed classes of all items into an empty table gives the classes of the seed labels. -/
theorem IsSeeding.install_seedLabels (h : IsSeeding l lists)
    (hall : ∀ i, l.Valid i → ∃ items ∈ lists, i ∈ items)
    (hlists : ∀ items ∈ lists, items ≠ [] ∧ ∃ p : Item → Bool, items = l.items.filter p)
    (n rank nSingular : Nat) :
    ClassTable.install l.size .empty (seedLabels n rank nSingular lists).1 =
      (l.relabel (seedLabels n rank nSingular lists).1).classes := by
  refine SortedMap.ext_get? fun x => ?_
  rw [Labelling.get?_classes_eq, Labelling.size_relabel]
  by_cases hx : x ∈ (seedLabels n rank nSingular lists).1.map (·.1)
  · obtain ⟨part, hpart, rfl⟩ := List.mem_map.1 hx
    obtain ⟨hne, hfilter⟩ := hlists _ (mem_seedLabels hpart)
    rw [ClassTable.get?_install_of_mem (nodup_seedLabels _ _ _ _) hpart,
      Labelling.members_relabel_eq hfilter (h.mem_members hall hpart), if_neg hne]
  · rw [ClassTable.get?_install_of_not_mem hx, if_pos]
    · rfl
    · refine List.eq_nil_iff_forall_not_mem.2 fun i hi => ?_
      obtain ⟨hi, heq⟩ := Labelling.mem_members.1 hi
      obtain ⟨part, hpart, -, heq'⟩ := h.exists_label hall ((Labelling.valid_relabel _).1 hi)
      exact hx (List.mem_map.2 ⟨part, hpart, heq'.symm.trans heq⟩)

end Seeds

/-- Every norm is in a seed class. -/
theorem exists_normSeedList {i : Item} (hi : (uniformNorms graphs).Valid i) :
    ∃ items ∈ normSeedLists graphs, i ∈ items :=
  ⟨_, mem_normSeedLists.2 ⟨rfl, List.ne_nil_of_mem (Labelling.mem_items.2 hi)⟩, Labelling.mem_items.2 hi⟩

/-- Every signal is in the seed class of its role. -/
theorem exists_roleClass {i : Item} (hi : (uniformSignals graphs).Valid i) :
    ∃ items ∈ (roleClasses graphs).map (·.2), i ∈ items := by
  obtain ⟨part, hpart, hmem, -⟩ := exists_signalSeed hi
  exact ⟨part.2, mem_seedLabels hpart, hmem⟩

theorem install_normSeeds (graphs : Array SideGraph) :
    ClassTable.install graphs.size .empty (normSeeds graphs).1 =
      (seeded graphs).norms.labels.classes := by
  have hsize : (uniformNorms graphs).size = graphs.size := by simp [uniformNorms]
  rw [← hsize]
  refine (isSeeding_normSeedLists graphs).install_seedLabels (fun _ => exists_normSeedList)
    (fun items hitems => ?_) _ _ _
  obtain ⟨rfl, hne⟩ := mem_normSeedLists.1 hitems
  exact ⟨hne, fun _ => true, (List.filter_true _).symm⟩

theorem install_signalSeeds (graphs : Array SideGraph) :
    ClassTable.install graphs.size .empty (signalSeeds graphs).1 =
      (seeded graphs).signals.labels.classes := by
  have hsize : (uniformSignals graphs).size = graphs.size := by simp [uniformSignals]
  rw [← hsize]
  refine (isSeeding_roleClasses graphs).install_seedLabels (fun _ => exists_roleClass)
    (fun items hitems => ?_) _ _ _
  obtain ⟨⟨role, items⟩, hmem, rfl⟩ := List.mem_map.1 hitems
  obtain ⟨rfl, hne⟩ := (mem_roleClasses graphs).1 hmem
  exact ⟨hne, _, rfl⟩

/-- The tables in the beginning are those of the seed labels. -/
theorem start_tabled (graphs : Array SideGraph) :
    TabledState.start graphs = (start graphs).map tabled := by
  unfold TabledState.start
  rw [install_normSeeds, install_signalSeeds]
  cases hs : start graphs with
  | error e => rfl
  | ok s =>
    obtain ⟨-, -, rfl⟩ := (start_eq_ok_iff graphs).1 hs
    rfl

end RefinementState

end CircuitEquiv
