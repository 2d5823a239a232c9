-- SUMMARY: Between all rounds of a refinement, labels and class tables are one partition of the items, and the rounds are bounded.
import CircuitEquiv.Proofs.Refinement.ClassTable
import CircuitEquiv.Proofs.Refinement.Saturation
import Mathlib.Logic.Relation

/-!
# The partition of a refinement

Refinement with tables goes from stage to stage. At every stage the classes of either kind partition
the items of each side, every item carries the label under which the table lists it, and a class is
settled exactly if it has one member on each side. Between two sides, the classes have as many members
on the one as on the other. A label that was in use once and is not any more is never issued again,
and the number of rounds is at most twice the number of items of one side and two.
-/

namespace CircuitEquiv

/-! ## Partitions -/

/-- The labels of the items of one kind and the table of their classes fit together; `sizes` are the
numbers of items of the sides. -/
structure ClassTable.IsPartition (sizes : List Nat) (labels : Labelling) (classes : ClassTable) :
    Prop where
  sizes_labels : labels.toList.map Array.size = sizes
  length : ∀ m ∈ classes.values, m.length = sizes.length
  sorted : ∀ m ∈ classes.values, ∀ indices ∈ m, indices.Pairwise (· < ·)
  partition : ∀ k < sizes.length,
    (classes.values.flatMap fun m => m.getD k []).Perm (List.range (sizes.getD k 0))
  label : ∀ x m, classes.get? x = some m → ∀ k, ∀ i ∈ m.getD k [], labels.label ⟨k, i⟩ = x
  keys : classes.keys.Nodup
  settled : ∀ x m, classes.get? x = some m →
    (x.isSingular = true ↔ ∀ indices ∈ m, indices.length = 1)
  balanced : ∀ m ∈ classes.values, ∀ left ∈ m, ∀ right ∈ m, left.length = right.length

/-! ## Stages of a run -/

/-- A point of a run between two rounds: the state, and the kind of the next round with whether the last
one split nothing, unless the run is over. -/
structure RefinementStage where
  state : TabledState
  next : Option (ItemKind × Bool)

namespace RefinementStage

open RefinementState

/-- What follows on a round. -/
def nextAfter (kind : ItemKind) (quiet split : Bool) : Option (ItemKind × Bool) :=
  if split then some (nextKind kind, false)
  else if quiet then none
  else some (nextKind kind, true)

/-- One stage follows on another by a round that finds no difference. -/
inductive Round (graphs : Array SideGraph) : RefinementStage → RefinementStage → Prop
  | round {kind : ItemKind} {quiet split : Bool} {s t : TabledState}
      (hbusy : s.toRefinementState.isIdle = false) (h : s.roundOf graphs kind = .ok (t, split)) :
      Round graphs ⟨s, some (kind, quiet)⟩ ⟨t, nextAfter kind quiet split⟩

/-- One stage follows on another by any number of rounds. -/
abbrev Later (graphs : Array SideGraph) : RefinementStage → RefinementStage → Prop :=
  Relation.ReflTransGen (Round graphs)

/-- The stage is one of the refinement of some sides. -/
def Reached (graphs : Array SideGraph) (c : RefinementStage) : Prop :=
  ∃ s, TabledState.start graphs = .ok s ∧ Later graphs ⟨s, some (.norm, false)⟩ c

/-- The refinement ends at the stage with the given outcome. -/
structure Yields (c : RefinementStage) (r : Refinement) : Prop where
  isOver : c.next = none ∨ c.state.toRefinementState.isIdle = true
  normLabels : r.normLabels = c.state.norms.labels
  signalLabels : r.signalLabels = c.state.signals.labels
  normClasses : r.normClasses = c.state.normClasses
  signalClasses : r.signalClasses = c.state.signalClasses
  rounds : r.rounds = c.state.round

end RefinementStage

/-! ## Even classes -/

/-- A class has as many members on every side, and its label is settled exactly if that is one. -/
def IsEvenClass (n : Nat) (x : ClassLabel) (items : List Item) : Prop :=
  x.isSingular = RefinementState.isSettled n items ∧
    ∀ j < n, ∀ k < n, items.countP (·.side = j) = items.countP (·.side = k)

theorem IsEvenClass.perm {n : Nat} {x : ClassLabel} {items items' : List Item}
    (h : IsEvenClass n x items) (hperm : items.Perm items') : IsEvenClass n x items' := by
  have hsizes : RefinementState.sizes n items = RefinementState.sizes n items' :=
    List.map_congr_left fun _ _ => hperm.countP_eq _
  refine ⟨?_, fun j hj k hk => ?_⟩
  · rw [h.1, RefinementState.isSettled, RefinementState.isSettled, hsizes]
  · rw [← hperm.countP_eq, ← hperm.countP_eq, h.2 j hj k hk]

/-- The classes of a labelling are even. -/
def Labelling.IsEven (l : Labelling) : Prop :=
  ∀ i, l.Valid i → IsEvenClass l.size (l.label i) (l.members (l.label i))

namespace RefinementState

variable {graphs : Array SideGraph} {s t : RefinementState}

theorem countP_eq_of_checkSizes {n : Nat} (hn : n = 1 ∨ n = 2) {kind : ItemKind} {label : ClassLabel}
    {round : Nat} {items : List Item} (h : checkSizes kind label round (sizes n items) = .ok ()) :
    ∀ j < n, ∀ k < n, items.countP (·.side = j) = items.countP (·.side = k) := by
  rcases hn with rfl | rfl
  · intro j hj k hk
    rw [Nat.lt_one_iff.1 hj, Nat.lt_one_iff.1 hk]
  · have hbalanced : items.countP (·.side = 0) = items.countP (·.side = 1) := isBalanced_of_checkSizes h
    intro j hj k hk
    have hsides : ∀ m < 2, m = 0 ∨ m = 1 := fun m hm => by omega
    rcases hsides j hj with rfl | rfl <;> rcases hsides k hk with rfl | rfl <;>
      first | rfl | exact hbalanced | exact hbalanced.symm

section Round

variable {κ : Type} [Ord κ] [Std.TransOrd κ] [Std.LawfulEqOrd κ] [DecidableEq κ]
  {mode : RefinementMode} {key : Item → κ} {kind : ItemKind}

/-- A round that checks its groups keeps classes even. -/
theorem isEven_relabel_splitRound {n : Nat} (hsize : mode.labels.size = n) (hn : n = 1 ∨ n = 2)
    (hissued : ∀ i, mode.labels.Valid i → HasBeenIssued s.round s.nSingular (mode.labels.label i))
    (heven : mode.labels.IsEven)
    (hcheck : checkGroups kind n (s.round + 1) (frontierGroups mode key) = .ok ()) :
    (mode.labels.relabel (s.splitRound n (frontierGroups mode key)).1).IsEven := by
  subst hsize
  have hsplit := @isSplit_splitRound _ _ _ _ _ _ key _ mode.labels.size hissued
  intro i hi
  rw [Labelling.size_relabel]
  by_cases hmoved : ∃ part ∈ (s.splitRound mode.labels.size (frontierGroups mode key)).1, i ∈ part.2
  · obtain ⟨part, hpart, hip⟩ := hmoved
    rw [Labelling.label_relabel_of_mem hsplit.valid hsplit.disjoint hpart hip]
    obtain ⟨g, hg, heq⟩ := mem_splitGroups hpart
    have hchecked := forM_eq_ok_iff.1 hcheck g hg
    rw [← heq] at hchecked
    have hpartEven : IsEvenClass mode.labels.size part.1 part.2 :=
      ⟨isSingular_labelParts hpart, countP_eq_of_checkSizes hn hchecked⟩
    exact hpartEven.perm (hsplit.members_of_mem hpart).symm
  · have hi := (Labelling.valid_relabel _).1 hi
    have hnone : ∀ part ∈ (s.splitRound mode.labels.size (frontierGroups mode key)).1, i ∉ part.2 :=
      fun part hp hip => hmoved ⟨part, hp, hip⟩
    rw [Labelling.label_relabel_of_not_mem hsplit.valid hnone]
    -- a class of which one member is not moved keeps all of its members
    refine (heven i hi).perm ((List.perm_ext_iff_of_nodup (Labelling.nodup_members _ _)
      (Labelling.nodup_members _ _)).2 fun j => ?_)
    have hnew : mode.labels.label i ∉
        (s.splitRound mode.labels.size (frontierGroups mode key)).1.map (·.1) := fun hmem => by
      obtain ⟨part, hpart, heq⟩ := List.mem_map.1 hmem
      exact hsplit.unused part hpart i hi heq.symm
    rw [hsplit.mem_members_of_not_mem hnew]
    refine ⟨fun hj => ⟨hj, fun part hpart hjp => ?_⟩, fun hj => hj.1⟩
    obtain ⟨q, hq, hiq⟩ := mem_splitRound_of_label_eq hpart hjp hi (Labelling.mem_members.1 hj).2.symm
    exact hnone q hq hiq

end Round

/-- Seed classes that are checked are even. -/
theorem IsSeeding.isEven_relabel_seedLabels {l : Labelling} {lists : List (List Item)}
    {n rank nSingular : Nat} (h : IsSeeding l lists)
    (hall : ∀ i, l.Valid i → ∃ items ∈ lists, i ∈ items) (hsize : l.size = n) (hn : n = 1 ∨ n = 2)
    {kind : ItemKind} (hcheck : checkSeeds kind n (seedLabels n rank nSingular lists).1 = .ok ()) :
    (l.relabel (seedLabels n rank nSingular lists).1).IsEven := by
  subst hsize
  intro i hi
  obtain ⟨part, hpart, -, hlabel⟩ := h.exists_label hall ((Labelling.valid_relabel _).1 hi)
  rw [hlabel, Labelling.size_relabel]
  have hperm : part.2.Perm ((l.relabel (seedLabels l.size rank nSingular lists).1).members part.1) :=
    (List.perm_ext_iff_of_nodup (h.nodup _ (mem_seedLabels hpart)) (Labelling.nodup_members _ _)).2
      fun j => (h.mem_members hall hpart j).symm
  have hpartEven : IsEvenClass l.size part.1 part.2 :=
    ⟨isSingular_seedLabels hpart, countP_eq_of_checkSizes hn (forM_eq_ok_iff.1 hcheck part hpart)⟩
  exact hpartEven.perm hperm

/-- What a state of a run on one or two sides satisfies: the classes of both kinds are even. -/
structure IsEven (graphs : Array SideGraph) (s : RefinementState) : Prop
    extends s.IsLabelled graphs where
  even_norms : s.norms.labels.IsEven
  even_signals : s.signals.labels.IsEven

theorem IsEven.roundOf (hsides : graphs.size = 1 ∨ graphs.size = 2) (hs : s.IsEven graphs)
    {kind : ItemKind} {split : Bool} (h : s.roundOf graphs kind = .ok (t, split)) : t.IsEven graphs := by
  refine ⟨roundOf_isLabelled _ _ _ _ hs.toIsLabelled h, ?_, ?_⟩
  all_goals cases kind
  · obtain ⟨hcheck, rfl, -⟩ := (normRound_eq_ok_iff graphs s).1 h
    rw [norm_labels_afterNorms]
    exact isEven_relabel_splitRound hs.size_norms hsides hs.issued_norms hs.even_norms hcheck
  · obtain ⟨-, rfl, -⟩ := (signalRound_eq_ok_iff graphs s).1 h
    rw [norm_labels_afterSignals]
    exact hs.even_norms
  · obtain ⟨-, rfl, -⟩ := (normRound_eq_ok_iff graphs s).1 h
    rw [signal_labels_afterNorms]
    exact hs.even_signals
  · obtain ⟨hcheck, rfl, -⟩ := (signalRound_eq_ok_iff graphs s).1 h
    rw [signal_labels_afterSignals]
    exact isEven_relabel_splitRound hs.size_signals hsides hs.issued_signals hs.even_signals hcheck

theorem start_isEven (hsides : graphs.size = 1 ∨ graphs.size = 2) (h : start graphs = .ok s) :
    s.IsEven graphs := by
  obtain ⟨hsignals, hnorms, rfl⟩ := (start_eq_ok_iff graphs).1 h
  refine ⟨seeded_isLabelled graphs, ?_, ?_⟩
  · exact (isSeeding_normSeedLists graphs).isEven_relabel_seedLabels (fun _ => exists_normSeedList)
      (by simp [uniformNorms]) hsides hnorms
  · exact (isSeeding_roleClasses graphs).isEven_relabel_seedLabels (fun _ => exists_roleClass)
      (by simp [uniformSignals]) hsides hsignals

end RefinementState

/-! ## Labels in use -/

namespace Labelling

variable {l : Labelling} {x : ClassLabel}

/-- Even classes have a member on every side, so a side has an item for every label in use. -/
theorem IsEven.card_inUse_le (h : l.IsEven) {k : Nat} (hk : k < l.size) :
    l.inUse.card ≤ l.sideSize k := by
  have hlength : (l.items.filter (·.side = k)).length = l.sideSize k := by
    rw [filter_items_side hk, List.length_map, List.length_range]
  have hsubset : l.inUse ⊆ ((l.items.filter (·.side = k)).map l.label).toFinset := by
    intro x hx
    obtain ⟨i, hi, rfl⟩ := mem_inUse.1 hx
    have hcount : 0 < (l.members (l.label i)).countP (·.side = i.side) :=
      List.countP_pos_iff.2 ⟨i, mem_members.2 ⟨hi, rfl⟩, decide_eq_true rfl⟩
    rw [(h i hi).2 i.side (RefinementState.side_lt_of_valid hi) k hk, List.countP_pos_iff] at hcount
    obtain ⟨j, hj, hside⟩ := hcount
    obtain ⟨hj, hlabel⟩ := mem_members.1 hj
    exact List.mem_toFinset.2 (List.mem_map.2 ⟨j, List.mem_filter.2 ⟨mem_items.2 hj, hside⟩, hlabel⟩)
  calc l.inUse.card
      ≤ ((l.items.filter (·.side = k)).map l.label).toFinset.card := Finset.card_le_card hsubset
    _ ≤ ((l.items.filter (·.side = k)).map l.label).length := List.toFinset_card_le _
    _ = l.sideSize k := by rw [List.length_map, hlength]

theorem mem_keys_classes : x ∈ l.classes.keys ↔ ∃ i, l.Valid i ∧ l.label i = x := by
  rw [SortedMap.mem_keys_iff, get?_classes_eq]
  by_cases h : l.members x = []
  · rw [if_pos h]
    simpa using not_exists.1 (members_eq_nil_iff.1 h)
  · rw [if_neg h]
    simpa using not_not.1 (mt members_eq_nil_iff.2 h)

/-! ## The classes of even labels -/

theorem get?_classes_eq_some_iff {m : List (List Nat)} :
    l.classes.get? x = some m ↔ l.members x ≠ [] ∧ m = perSide l.size (l.members x) := by
  rw [get?_classes_eq]
  split
  · rename_i h
    simp [h]
  · rename_i h
    simp [h, eq_comm]

theorem mem_perSide {n : Nat} {items : List Item} {indices : List Nat} :
    indices ∈ perSide n items ↔ ∃ k < n, indices = (items.filter (·.side = k)).map (·.index) := by
  simp [perSide, eq_comm]

theorem getD_perSide (n : Nat) (items : List Item) (k : Nat) :
    (perSide n items).getD k [] = if k < n then (items.filter (·.side = k)).map (·.index) else [] := by
  unfold perSide List.getD
  by_cases hk : k < n <;> simp [hk]

theorem map_index_items_side {k : Nat} (hk : k < l.size) :
    (l.items.filter (·.side = k)).map (·.index) = List.range (l.sideSize k) := by
  rw [filter_items_side hk, List.map_map]
  exact List.map_id _

/-- The members of a class on a side are some of the items of the side, in their order. -/
theorem sublist_indices (l : Labelling) (x : ClassLabel) {k : Nat} (hk : k < l.size) :
    (((l.members x).filter (·.side = k)).map (·.index)).Sublist (List.range (l.sideSize k)) := by
  rw [← map_index_items_side hk]
  exact (List.filter_sublist.filter _).map _

/-- Every item of a side is listed in one class. -/
theorem indices_classes_perm (l : Labelling) {k : Nat} (hk : k < l.size) :
    (l.classes.values.flatMap fun m => m.getD k []).Perm (List.range (l.sideSize k)) := by
  have hvalues : (l.classes.values.flatMap fun m => m.getD k []) =
      ((SortedMap.groupValues (l.items.map fun i => (l.label i, i))).values.flatten.filter
        (·.side = k)).map (·.index) := by
    rw [List.filter_flatten, List.map_flatten, SortedMap.values, classes, SortedMap.mapValues,
      SortedMap.values, List.map_map, List.flatMap_map, List.map_map, List.map_map, List.flatMap_def]
    refine congrArg List.flatten (List.map_congr_left fun e _ => ?_)
    exact (getD_perSide l.size e.2 k).trans (if_pos hk)
  have hitems : ((l.items.map fun i => (l.label i, i)).map (·.2)) = l.items := by
    rw [List.map_map]
    exact List.map_id _
  rw [hvalues, ← map_index_items_side hk]
  have hperm := SortedMap.flatten_values_groupValues_perm (l.items.map fun i => (l.label i, i))
  rw [hitems] at hperm
  exact (hperm.filter _).map _

theorem length_indices (x : ClassLabel) (k : Nat) :
    (((l.members x).filter (·.side = k)).map (·.index)).length = (l.members x).countP (·.side = k) := by
  rw [List.length_map, List.countP_eq_length_filter]

theorem IsEven.of_get?_classes (h : l.IsEven) {m : List (List Nat)} (hm : l.classes.get? x = some m) :
    IsEvenClass l.size x (l.members x) ∧ m = perSide l.size (l.members x) := by
  obtain ⟨hne, hm⟩ := get?_classes_eq_some_iff.1 hm
  obtain ⟨i, hi, rfl⟩ := not_not.1 (mt members_eq_nil_iff.2 hne)
  exact ⟨h i hi, hm⟩

theorem label_eq_of_mem_perSide {k i : Nat} (hi : i ∈ (perSide l.size (l.members x)).getD k []) :
    l.label ⟨k, i⟩ = x := by
  rw [getD_perSide] at hi
  split at hi
  · obtain ⟨j, hj, rfl⟩ := List.mem_map.1 hi
    obtain ⟨hj, hk⟩ := List.mem_filter.1 hj
    rw [← of_decide_eq_true hk]
    exact (mem_members.1 hj).2
  · cases hi

/-- A class is settled when each side has one member. -/
theorem isSettled_iff {n : Nat} : RefinementState.isSettled n (l.members x) = true ↔
    ∀ indices ∈ perSide n (l.members x), indices.length = 1 := by
  rw [RefinementState.isSettled, RefinementState.sizes, List.all_map, List.all_eq_true]
  constructor
  · intro hall indices hindices
    obtain ⟨k, hk, rfl⟩ := mem_perSide.1 hindices
    rw [length_indices]
    simpa using hall k (List.mem_range.2 hk)
  · intro hall k hk
    have hone := hall _ (mem_perSide.2 ⟨k, List.mem_range.1 hk, rfl⟩)
    rw [length_indices] at hone
    simpa using hone

/-- Even labels and their classes fit together. -/
theorem IsEven.isPartition (h : l.IsEven) {sizes : List Nat} (hsizes : l.toList.map Array.size = sizes) :
    ClassTable.IsPartition sizes l l.classes := by
  have hlength : sizes.length = l.size := by rw [← hsizes, List.length_map, Array.length_toList]
  have hside : ∀ k, sizes.getD k 0 = l.sideSize k := fun k => by
    rw [← hsizes, sideSize, List.getD, List.getElem?_map, Array.getElem?_toList]
    cases l[k]? <;> rfl
  have hclass : ∀ m ∈ l.classes.values, ∃ x, IsEvenClass l.size x (l.members x) ∧
      m = perSide l.size (l.members x) := fun m hm => by
    obtain ⟨x, hx⟩ := SortedMap.mem_values_iff.1 hm
    exact ⟨x, h.of_get?_classes hx⟩
  constructor
  case sizes_labels => exact hsizes
  case length =>
    intro m hm
    obtain ⟨x, -, rfl⟩ := hclass m hm
    rw [hlength, perSide, List.length_map, List.length_range]
  case sorted =>
    intro m hm indices hindices
    obtain ⟨x, -, rfl⟩ := hclass m hm
    obtain ⟨k, hk, rfl⟩ := mem_perSide.1 hindices
    exact List.pairwise_lt_range.sublist (sublist_indices l x hk)
  case partition =>
    intro k hk
    rw [hside]
    exact indices_classes_perm l (hlength ▸ hk)
  case label =>
    intro x m hm k i hi
    rw [(h.of_get?_classes hm).2] at hi
    exact label_eq_of_mem_perSide hi
  case keys => exact SortedMap.nodup_keys _
  case settled =>
    intro x m hm
    obtain ⟨hx, rfl⟩ := h.of_get?_classes hm
    rw [hx.1, isSettled_iff]
  case balanced =>
    intro m hm left hleft right hright
    obtain ⟨x, hx, rfl⟩ := hclass m hm
    obtain ⟨j, hj, rfl⟩ := mem_perSide.1 hleft
    obtain ⟨k, hk, rfl⟩ := mem_perSide.1 hright
    rw [length_indices, length_indices, hx.2 j hj k hk]

theorem sideSize_constant (sizes : List Nat) (x : ClassLabel) (k : Nat) :
    (constant sizes x).sideSize k = sizes.getD k 0 := by
  unfold sideSize constant List.getD
  cases hk : sizes[k]? <;> simp [hk]

theorem sideSize_eq_of_valid_iff {l l' : Labelling} (h : ∀ i, l.Valid i ↔ l'.Valid i) (k : Nat) :
    l.sideSize k = l'.sideSize k :=
  eq_of_forall_lt_iff fun i => h ⟨k, i⟩

theorem sizes_eq_of_sideSize {sizes : List Nat} (hlength : l.size = sizes.length)
    (h : ∀ k, l.sideSize k = sizes.getD k 0) : l.toList.map Array.size = sizes := by
  refine List.ext_getElem (by simpa using hlength) fun k hk hk' => ?_
  have hsize := h k
  simp only [List.length_map, Array.length_toList] at hk
  simpa [sideSize, List.getD, hk, hk'] using hsize

end Labelling

/-! ## Stages -/

namespace RefinementState

variable {graphs : Array SideGraph} {s t : RefinementState} {kind : ItemKind} {split : Bool}

theorem IsLabelled.sideSize_norms (hs : s.IsLabelled graphs) (k : Nat) :
    s.norms.labels.sideSize k = (graphs.toList.map (·.norms.size)).getD k 0 := by
  rw [Labelling.sideSize_eq_of_valid_iff hs.norms, uniformNorms, Labelling.sideSize_constant]

theorem IsLabelled.sideSize_signals (hs : s.IsLabelled graphs) (k : Nat) :
    s.signals.labels.sideSize k = (graphs.toList.map (·.roles.size)).getD k 0 := by
  rw [Labelling.sideSize_eq_of_valid_iff hs.signals, uniformSignals, Labelling.sideSize_constant]

/-- The number of labels in use. -/
def nLabels (s : RefinementState) : Nat := s.norms.labels.inUse.card + s.signals.labels.inUse.card

/-- There are no more labels in use than items of one side. -/
theorem IsEven.nLabels_le (hs : s.IsEven graphs) {G : SideGraph} (hG : G ∈ graphs) :
    s.nLabels ≤ G.norms.size + G.roles.size := by
  obtain ⟨k, hk, rfl⟩ := Array.mem_iff_getElem.1 hG
  have hnorms := hs.even_norms.card_inUse_le (hs.size_norms.symm ▸ hk)
  have hsignals := hs.even_signals.card_inUse_le (hs.size_signals.symm ▸ hk)
  rw [hs.sideSize_norms] at hnorms
  rw [hs.sideSize_signals] at hsignals
  simp only [List.getD, List.getElem?_map, Array.getElem?_toList, Array.getElem?_eq_getElem hk,
    Option.map_some, Option.getD_some] at hnorms hsignals
  exact Nat.add_le_add hnorms hsignals

theorem nLabels_of_quiet (h : s.roundOf graphs kind = .ok (t, false)) : t.nLabels = s.nLabels := by
  obtain ⟨hnorms, hsignals⟩ := roundOf_quiet h
  rw [nLabels, nLabels, hnorms, hsignals]

/-- A round that splits a class brings more labels into use. -/
theorem nLabels_lt_of_split (hs : s.IsLabelled graphs) (h : s.roundOf graphs kind = .ok (t, true)) :
    s.nLabels < t.nLabels := by
  have hslack := slack_lt_of_split hs h
  unfold slack at hslack
  unfold nLabels
  omega

theorem round_roundOf (h : s.roundOf graphs kind = .ok (t, split)) : t.round = s.round + 1 := by
  cases kind with
  | norm =>
    obtain ⟨-, rfl, -⟩ := (normRound_eq_ok_iff graphs s).1 h
    rfl
  | signal =>
    obtain ⟨-, rfl, -⟩ := (signalRound_eq_ok_iff graphs s).1 h
    rfl

theorem nSingular_le_roundOf (h : s.roundOf graphs kind = .ok (t, split)) : s.nSingular ≤ t.nSingular := by
  cases kind with
  | norm =>
    obtain ⟨-, rfl, -⟩ := (normRound_eq_ok_iff graphs s).1 h
    exact le_nSingular_splitRound _ _
  | signal =>
    obtain ⟨-, rfl, -⟩ := (signalRound_eq_ok_iff graphs s).1 h
    exact le_nSingular_splitRound _ _

section Round

variable {κ : Type} [Ord κ] [Std.TransOrd κ] [Std.LawfulEqOrd κ] [DecidableEq κ]
  {mode : RefinementMode} {key : Item → κ} {n : Nat}

/-- An item whose label after a round has been issued before had that label before. -/
theorem label_relabel_of_hasBeenIssued
    (hissued : ∀ i, mode.labels.Valid i → HasBeenIssued s.round s.nSingular (mode.labels.label i))
    {i : Item} (h : HasBeenIssued s.round s.nSingular
      ((mode.labels.relabel (s.splitRound n (frontierGroups mode key)).1).label i)) :
    (mode.labels.relabel (s.splitRound n (frontierGroups mode key)).1).label i =
      mode.labels.label i := by
  have hsplit := @isSplit_splitRound _ _ _ _ _ _ key _ n hissued
  by_cases hmoved : ∃ part ∈ (s.splitRound n (frontierGroups mode key)).1, i ∈ part.2
  · obtain ⟨part, hpart, hip⟩ := hmoved
    rw [Labelling.label_relabel_of_mem hsplit.valid hsplit.disjoint hpart hip] at h
    exact absurd h (isIssued_splitRound hpart).2
  · exact Labelling.label_relabel_of_not_mem hsplit.valid fun part hp hip => hmoved ⟨part, hp, hip⟩

/-- Relabelling does not bring back a label that has been issued. -/
theorem mem_keys_of_mem_keys_relabel
    (hissued : ∀ i, mode.labels.Valid i → HasBeenIssued s.round s.nSingular (mode.labels.label i))
    {x : ClassLabel} (hx : HasBeenIssued s.round s.nSingular x)
    (h : x ∈ (mode.labels.relabel (s.splitRound n (frontierGroups mode key)).1).classes.keys) :
    x ∈ mode.labels.classes.keys := by
  obtain ⟨i, hi, rfl⟩ := Labelling.mem_keys_classes.1 h
  have hlabel := label_relabel_of_hasBeenIssued hissued hx
  exact Labelling.mem_keys_classes.2 ⟨i, (Labelling.valid_relabel _).1 hi, hlabel.symm⟩

end Round

@[simp]
theorem classes_tabled_norm (s : RefinementState) : s.tabled.classes .norm = s.norms.labels.classes := rfl

@[simp]
theorem classes_tabled_signal (s : RefinementState) :
    s.tabled.classes .signal = s.signals.labels.classes := rfl

/-- A round does not bring back a label that has been issued. -/
theorem not_mem_keys_roundOf (hs : s.IsLabelled graphs) (h : s.roundOf graphs kind = .ok (t, split))
    {x : ClassLabel} (hx : HasBeenIssued s.round s.nSingular x) {other : ItemKind}
    (hkeys : x ∉ (s.tabled.classes other).keys) : x ∉ (t.tabled.classes other).keys := by
  cases kind with
  | norm =>
    obtain ⟨-, rfl, -⟩ := (normRound_eq_ok_iff graphs s).1 h
    cases other with
    | norm =>
      rw [classes_tabled_norm] at hkeys ⊢
      rw [norm_labels_afterNorms]
      exact fun hmem => hkeys (mem_keys_of_mem_keys_relabel hs.issued_norms hx hmem)
    | signal => rwa [classes_tabled_signal, signal_labels_afterNorms]
  | signal =>
    obtain ⟨-, rfl, -⟩ := (signalRound_eq_ok_iff graphs s).1 h
    cases other with
    | norm => rwa [classes_tabled_norm, norm_labels_afterSignals]
    | signal =>
      rw [classes_tabled_signal] at hkeys ⊢
      rw [signal_labels_afterSignals]
      exact fun hmem => hkeys (mem_keys_of_mem_keys_relabel hs.issued_signals hx hmem)

/-- The label of a class has been issued. -/
theorem IsLabelled.hasBeenIssued_of_mem_keys (hs : s.IsLabelled graphs) {x : ClassLabel}
    (hx : x ∈ (s.tabled.classes kind).keys) : HasBeenIssued s.round s.nSingular x := by
  cases kind with
  | norm =>
    obtain ⟨i, hi, rfl⟩ := Labelling.mem_keys_classes.1 hx
    exact hs.issued_norms i hi
  | signal =>
    obtain ⟨i, hi, rfl⟩ := Labelling.mem_keys_classes.1 hx
    exact hs.issued_signals i hi

end RefinementState

namespace RefinementStage

open RefinementState

variable {graphs : Array SideGraph} {c c' : RefinementStage} {s : RefinementState}

/-- The rounds that may have been made beyond two for each label in use. -/
def allowance : Option (ItemKind × Bool) → Nat
  | some (_, false) => 0
  | some (_, true) => 1
  | none => 2

/-- What every stage satisfies, with its state without the tables. -/
structure IsSound (graphs : Array SideGraph) (c : RefinementStage) (s : RefinementState) : Prop where
  tables : c.state = s.tabled
  even : s.IsEven graphs
  rounds : s.round ≤ 2 * s.nLabels + allowance c.next

theorem IsSound.round (hsides : graphs.size = 1 ∨ graphs.size = 2) (hc : c.IsSound graphs s)
    (h : Round graphs c c') :
    ∃ kind t split, s.roundOf graphs kind = .ok (t, split) ∧ c'.IsSound graphs t := by
  obtain @⟨kind, quiet, split, u, v, -, hround⟩ := h
  obtain ⟨rfl, heven, hrounds⟩ := hc
  rw [roundOf_tabled heven.toIsLabelled] at hround
  cases hr : s.roundOf graphs kind with
  | error e =>
    rw [hr] at hround
    cases hround
  | ok p =>
    obtain ⟨t, split⟩ := p
    rw [hr] at hround
    cases hround
    refine ⟨kind, t, split, hr, rfl, heven.roundOf hsides hr, ?_⟩
    rw [round_roundOf hr]
    cases split with
    | true =>
      have hlt := nLabels_lt_of_split heven.toIsLabelled hr
      cases quiet <;> simp only [allowance, nextAfter, if_true] at hrounds ⊢ <;> omega
    | false =>
      rw [nLabels_of_quiet hr]
      cases quiet <;>
        simp only [allowance, nextAfter, if_true, Bool.false_eq_true, if_false] at hrounds ⊢ <;> omega

/-- What every round keeps holds at all later stages. -/
theorem IsSound.later (hsides : graphs.size = 1 ∨ graphs.size = 2) {P : RefinementState → Prop}
    (hP : ∀ kind s t split, s.IsLabelled graphs → P s → s.roundOf graphs kind = .ok (t, split) → P t)
    (hc : c.IsSound graphs s) (hs : P s) (h : Later graphs c c') : ∃ t, c'.IsSound graphs t ∧ P t := by
  induction h with
  | refl => exact ⟨s, hc, hs⟩
  | tail _ hround ih =>
    obtain ⟨t, hsound, ht⟩ := ih
    obtain ⟨kind, u, split, hr, hu⟩ := hsound.round hsides hround
    exact ⟨u, hu, hP kind t u split hsound.even.toIsLabelled ht hr⟩

theorem Reached.exists_isSound (hsides : graphs.size = 1 ∨ graphs.size = 2) (h : Reached graphs c) :
    ∃ s, c.IsSound graphs s := by
  obtain ⟨u, hstart, hlater⟩ := h
  rw [start_tabled] at hstart
  cases hs : start graphs with
  | error e =>
    rw [hs] at hstart
    cases hstart
  | ok s =>
    rw [hs] at hstart
    cases hstart
    have hround : s.round = 0 := by
      obtain ⟨-, -, rfl⟩ := (start_eq_ok_iff graphs).1 hs
      rfl
    have hsound : IsSound graphs ⟨s.tabled, some (.norm, false)⟩ s :=
      ⟨rfl, start_isEven hsides hs, by rw [hround]; exact Nat.zero_le _⟩
    obtain ⟨t, ht, -⟩ := hsound.later (P := fun _ => True) hsides (fun _ _ _ _ _ _ _ => trivial) trivial
      hlater
    exact ⟨t, ht⟩

/-- A round of the labels is one of a stage. -/
theorem round_of_roundOf {t : RefinementState} {kind : ItemKind} {quiet split : Bool}
    (hs : s.IsLabelled graphs) (hbusy : s.isIdle = false) (hr : s.roundOf graphs kind = .ok (t, split)) :
    Round graphs ⟨s.tabled, some (kind, quiet)⟩ ⟨t.tabled, nextAfter kind quiet split⟩ :=
  .round hbusy (by rw [roundOf_tabled hs, hr]; rfl)

/-- A run passes through stages up to one at which it is over. -/
theorem exists_later_of_runs {s' : RefinementState} {kind : ItemKind} {quiet : Bool}
    (hs : s.IsLabelled graphs) (h : Runs graphs kind quiet s s') :
    ∃ next, Later graphs ⟨s.tabled, some (kind, quiet)⟩ ⟨s'.tabled, next⟩ ∧
      (next = none ∨ s'.isIdle = true) := by
  induction h with
  | @idle kind quiet s hidle => exact ⟨_, .refl, Or.inr hidle⟩
  | split hbusy hr _ ih =>
    obtain ⟨next, hlater, hover⟩ := ih (roundOf_isLabelled _ _ _ _ hs hr)
    exact ⟨next, .head (round_of_roundOf hs hbusy hr) hlater, hover⟩
  | calm hbusy hr _ ih =>
    obtain ⟨next, hlater, hover⟩ := ih (roundOf_isLabelled _ _ _ _ hs hr)
    exact ⟨next, .head (round_of_roundOf hs hbusy hr) hlater, hover⟩
  | still hbusy hr => exact ⟨none, .single (round_of_roundOf hs hbusy hr), Or.inl rfl⟩

/-- A run that fails passes through stages up to one at which the next round fails. -/
theorem exists_later_of_run_eq_error {fuel : Nat} {kind : ItemKind} {quiet : Bool} {e : Difference}
    (hs : s.IsLabelled graphs) (h : s.run graphs fuel kind quiet = .error e) :
    ∃ t kind' quiet', Later graphs ⟨s.tabled, some (kind, quiet)⟩ ⟨t, some (kind', quiet')⟩ ∧
      t.roundOf graphs kind' = .error e := by
  induction fuel generalizing kind quiet s with
  | zero => cases h
  | succ fuel ih =>
    cases hidle : s.isIdle with
    | true =>
      rw [run_of_isIdle hidle] at h
      cases h
    | false =>
      cases hr : s.roundOf graphs kind with
      | error e' =>
        have hbusy : ¬(s.norms.frontier.isEmpty && s.signals.frontier.isEmpty) = true :=
          Bool.eq_false_iff.1 hidle
        rw [run_succ, hr, if_neg hbusy] at h
        cases h
        exact ⟨_, kind, quiet, .refl, by rw [roundOf_tabled hs, hr]; rfl⟩
      | ok p =>
        obtain ⟨t, split⟩ := p
        have ht := roundOf_isLabelled _ _ _ _ hs hr
        have hfirst : Round graphs ⟨s.tabled, some (kind, quiet)⟩ ⟨_, nextAfter kind quiet split⟩ :=
          round_of_roundOf hs hidle hr
        rw [run_of_roundOf hidle hr] at h
        cases split with
        | true =>
          obtain ⟨u, kind', quiet', hlater, herror⟩ := ih ht h
          exact ⟨u, kind', quiet', .head hfirst hlater, herror⟩
        | false =>
          cases quiet with
          | true => cases h
          | false =>
            obtain ⟨u, kind', quiet', hlater, herror⟩ := ih ht h
            exact ⟨u, kind', quiet', .head hfirst hlater, herror⟩

end RefinementStage

namespace Refinement

open RefinementState RefinementStage

variable {graphs : Array SideGraph}

/-- What the refinement of some sides keeps up, from the seed classes on and from round to round. -/
structure KeepsPartition (graphs : Array SideGraph) : Prop where
  /-- The tables of both kinds partition the items, each under the label that it carries. -/
  norms : ∀ c, Reached graphs c → ClassTable.IsPartition (graphs.toList.map (·.norms.size))
    c.state.norms.labels c.state.normClasses
  signals : ∀ c, Reached graphs c → ClassTable.IsPartition (graphs.toList.map (·.roles.size))
    c.state.signals.labels c.state.signalClasses
  /-- A label that was in use, for items of any kind, and is not is never issued again. -/
  retired : ∀ c₁ c₂ c₃, Reached graphs c₁ → Later graphs c₁ c₂ → Later graphs c₂ c₃ →
    ∀ x kind other, x ∈ (c₁.state.classes kind).keys → x ∉ (c₂.state.classes other).keys →
      x ∉ (c₃.state.classes other).keys
  /-- The rounds are bounded by the items of one side, a round that is still to be made included. -/
  rounds : ∀ c, Reached graphs c → ∀ G ∈ graphs,
    c.state.round ≤ 2 * (G.norms.size + G.roles.size) + 2 ∧
      (c.next ≠ none → c.state.round < 2 * (G.norms.size + G.roles.size) + 2)
  /-- Refinement ends at one of the stages. -/
  yields : ∀ r, ofGraphs graphs = .ok r → ∃ c, Reached graphs c ∧ c.Yields r
  /-- A difference is met in the seed classes or in a round after one of the stages. -/
  fails : ∀ e, ofGraphs graphs = .error e → TabledState.start graphs = .error e ∨
    ∃ t kind quiet, Reached graphs ⟨t, some (kind, quiet)⟩ ∧ t.roundOf graphs kind = .error e

theorem start_eq_ok_of_checkSeeds
    (hsignals : checkSeeds .signal graphs.size (signalSeeds graphs).1 = .ok ())
    (hnorms : checkSeeds .norm graphs.size (normSeeds graphs).1 = .ok ()) :
    TabledState.start graphs = .ok (seeded graphs).tabled := by
  rw [start_tabled, (start_eq_ok_iff graphs).2 ⟨hsignals, hnorms, rfl⟩]
  rfl

theorem exists_yields {r : Refinement} (h : ofGraphs graphs = .ok r) :
    ∃ c, Reached graphs c ∧ c.Yields r := by
  obtain ⟨hsignals, hnorms, s, hruns, rfl⟩ := ofGraphs_eq_ok_iff.1 h
  obtain ⟨next, hlater, hover⟩ := exists_later_of_runs (seeded_isLabelled graphs) hruns
  exact ⟨⟨s.tabled, next⟩, ⟨_, start_eq_ok_of_checkSeeds hsignals hnorms, hlater⟩,
    hover, rfl, rfl, rfl, rfl, rfl⟩

/-- A failure is met where the classes are seeded or in the round after a stage. -/
theorem exists_stage_of_eq_error {e : Difference} (h : ofGraphs graphs = .error e) :
    TabledState.start graphs = .error e ∨
      ∃ t kind quiet, Reached graphs ⟨t, some (kind, quiet)⟩ ∧ t.roundOf graphs kind = .error e := by
  unfold ofGraphs at h
  cases hstart : start graphs with
  | error e' =>
    rw [hstart] at h
    cases h
    exact Or.inl (by rw [start_tabled, hstart]; rfl)
  | ok s =>
    rw [hstart] at h
    obtain ⟨hsignals, hnorms, rfl⟩ := (start_eq_ok_iff graphs).1 hstart
    cases hrun : (seeded graphs).run graphs (roundBound graphs) .norm false with
    | ok s' =>
      replace h : (RefinementState.run _ _ _ _ _ >>= _) = Except.error e := h
      rw [hrun] at h
      cases h
    | error e' =>
      replace h : (RefinementState.run _ _ _ _ _ >>= _) = Except.error e := h
      rw [hrun] at h
      cases h
      obtain ⟨t, kind, quiet, hlater, herror⟩ :=
        exists_later_of_run_eq_error (seeded_isLabelled graphs) hrun
      exact Or.inr ⟨t, kind, quiet, ⟨_, start_eq_ok_of_checkSeeds hsignals hnorms, hlater⟩, herror⟩

/-- What was issued stays issued, and is not used again once it is out of use. -/
theorem not_mem_keys_of_retired (hsides : graphs.size = 1 ∨ graphs.size = 2) {c₁ c₂ c₃ : RefinementStage}
    (hc : Reached graphs c₁) (h₁₂ : Later graphs c₁ c₂) (h₂₃ : Later graphs c₂ c₃) {x : ClassLabel}
    {kind other : ItemKind} (hx : x ∈ (c₁.state.classes kind).keys)
    (hgone : x ∉ (c₂.state.classes other).keys) : x ∉ (c₃.state.classes other).keys := by
  obtain ⟨s, hsound⟩ := hc.exists_isSound hsides
  rw [hsound.tables] at hx
  obtain ⟨t, ht, hissued⟩ := hsound.later (P := fun s => HasBeenIssued s.round s.nSingular x) hsides
    (fun _ _ _ _ _ h hr => h.mono (round_roundOf hr ▸ Nat.le_succ _) (nSingular_le_roundOf hr))
    (hsound.even.toIsLabelled.hasBeenIssued_of_mem_keys hx) h₁₂
  rw [ht.tables] at hgone
  obtain ⟨u, hu, -, hnever⟩ := ht.later
    (P := fun s => HasBeenIssued s.round s.nSingular x ∧ x ∉ (s.tabled.classes other).keys) hsides
    (fun _ _ _ _ hs h hr => ⟨h.1.mono (round_roundOf hr ▸ Nat.le_succ _) (nSingular_le_roundOf hr),
      not_mem_keys_roundOf hs hr h.1 h.2⟩)
    ⟨hissued, hgone⟩ h₂₃
  rw [hu.tables]
  exact hnever

theorem keepsPartition (hsides : graphs.size = 1 ∨ graphs.size = 2) : KeepsPartition graphs where
  norms c hc := by
    obtain ⟨s, hsound⟩ := hc.exists_isSound hsides
    rw [hsound.tables]
    exact hsound.even.even_norms.isPartition
      (Labelling.sizes_eq_of_sideSize (by simp [hsound.even.size_norms]) hsound.even.sideSize_norms)
  signals c hc := by
    obtain ⟨s, hsound⟩ := hc.exists_isSound hsides
    rw [hsound.tables]
    exact hsound.even.even_signals.isPartition
      (Labelling.sizes_eq_of_sideSize (by simp [hsound.even.size_signals]) hsound.even.sideSize_signals)
  retired _ _ _ hc h₁₂ h₂₃ _ _ _ hx hgone := not_mem_keys_of_retired hsides hc h₁₂ h₂₃ hx hgone
  rounds c hc G hG := by
    obtain ⟨s, hsound⟩ := hc.exists_isSound hsides
    have hlabels := hsound.even.nLabels_le hG
    have hrounds := hsound.rounds
    rw [hsound.tables]
    show s.round ≤ _ ∧ (_ → s.round < _)
    rcases hnext : c.next with _ | ⟨kind, quiet⟩
    · rw [hnext, allowance] at hrounds
      exact ⟨by omega, fun h => absurd rfl h⟩
    · rw [hnext] at hrounds
      cases quiet <;> rw [allowance] at hrounds <;> exact ⟨by omega, fun _ => by omega⟩
  yields _ h := exists_yields h
  fails _ h := exists_stage_of_eq_error h

/-- Refinement keeps a partition of the items of every side and ends after few rounds: that of one circuit
always, and that of two circuits as far as it finds no difference. -/
theorem keeps_partition :
    (∀ circuit norms, KeepsPartition #[.ofCircuit circuit norms] ∧
      ∃ c, Reached #[.ofCircuit circuit norms] c ∧ c.Yields (single circuit norms)) ∧
    ∀ left leftNorms right rightNorms,
      KeepsPartition #[.ofCircuit left leftNorms, .ofCircuit right rightNorms] :=
  ⟨fun circuit norms => ⟨keepsPartition (Or.inl rfl), exists_yields (ofGraphs_single circuit norms)⟩,
    fun _ _ _ _ => keepsPartition (Or.inr rfl)⟩

/-- Two products that are permuted and scaled copies of each other are refined up to a last stage. -/
theorem keeps_partition_sample :
    ∃ r c, Reached #[.ofCircuit Circuit.Sample.left Circuit.Sample.left.normalize,
        .ofCircuit Circuit.Sample.right Circuit.Sample.right.normalize] c ∧ c.Yields r ∧
      c.state.round ≤ 2 * (Circuit.Sample.left.normalize.size + Circuit.Sample.left.nSignals) + 2 := by
  obtain ⟨r, hpair⟩ := Circuit.Sample.fullEquivalence.exists_pair_eq_ok Circuit.Sample.isProper_left
    Circuit.Sample.isProper_right.reduced
  have hkeeps := keeps_partition.2 Circuit.Sample.left Circuit.Sample.left.normalize
    Circuit.Sample.right Circuit.Sample.right.normalize
  obtain ⟨c, hc, hr⟩ := hkeeps.yields r hpair
  have hrounds := (hkeeps.rounds c hc (.ofCircuit Circuit.Sample.left Circuit.Sample.left.normalize)
    (by simp)).1
  rw [SideGraph.size_norms_ofCircuit, SideGraph.size_roles_ofCircuit] at hrounds
  exact ⟨r, c, hc, hr, hrounds⟩

end Refinement

end CircuitEquiv
