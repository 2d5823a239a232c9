-- SUMMARY: What holds after every refinement that finds no difference: signal classes are balanced and know their role.
import CircuitEquiv.Proofs.Refinement.Groups
import CircuitEquiv.Proofs.Refinement.SideGraph

/-!
# Balanced classes

A refinement of two sides that finds no difference has checked every class it ever made. Labels are
never issued twice, so a class is either one of the checked lists of items or what it was before.
Signals that carry the same label at the end therefore have the same role, and every class of signals
has as many members on the left as on the right.
-/

namespace CircuitEquiv

/-! ## Issued labels -/

/-- The label is one of those issued between two states of the supply. -/
def IsIssued (round : Nat) (before after : LabelSupply) (x : ClassLabel) : Prop :=
  (∃ k, x = .at round k ∧ before.nFresh ≤ k ∧ k < after.nFresh) ∨
    ∃ k, x = .singular k ∧ before.nSingular ≤ k ∧ k < after.nSingular

section Issued

variable {α κ : Type} {round : Nat} {settled : List α → Bool}

theorem labelParts_cons (supply : LabelSupply) (g : Group κ α) (rest : List (Group κ α)) :
    labelParts round settled supply (g :: rest) =
      (((supply.next round (settled g.2)).1, g.2) ::
        (labelParts round settled (supply.next round (settled g.2)).2 rest).1,
      (labelParts round settled (supply.next round (settled g.2)).2 rest).2) := rfl

theorem le_next (supply : LabelSupply) (b : Bool) :
    supply.nFresh ≤ (supply.next round b).2.nFresh ∧
      supply.nSingular ≤ (supply.next round b).2.nSingular := by
  cases b <;> simp [LabelSupply.next]

theorem le_labelParts (supply : LabelSupply) (groups : List (Group κ α)) :
    supply.nFresh ≤ (labelParts round settled supply groups).2.nFresh ∧
      supply.nSingular ≤ (labelParts round settled supply groups).2.nSingular := by
  induction groups generalizing supply with
  | nil => exact ⟨Nat.le_refl _, Nat.le_refl _⟩
  | cons g rest ih =>
    have hnext := @le_next round supply (settled g.2)
    have hrest := ih (supply.next round (settled g.2)).2
    exact ⟨Nat.le_trans hnext.1 hrest.1, Nat.le_trans hnext.2 hrest.2⟩

theorem isIssued_labelParts (supply : LabelSupply) (groups : List (Group κ α)) :
    ∀ part ∈ (labelParts round settled supply groups).1,
      IsIssued round supply (labelParts round settled supply groups).2 part.1 := by
  induction groups generalizing supply with
  | nil => simp [labelParts]
  | cons g rest ih =>
    intro part hpart
    have hnext := @le_next round supply (settled g.2)
    have hrest := @le_labelParts α κ round settled (supply.next round (settled g.2)).2 rest
    rw [labelParts_cons] at hpart ⊢
    rcases List.mem_cons.1 hpart with rfl | hpart
    · cases hsettled : settled g.2 with
      | true =>
        simp only [hsettled, LabelSupply.next, if_true] at hrest ⊢
        exact Or.inr ⟨_, rfl, Nat.le_refl _, hrest.2⟩
      | false =>
        simp only [hsettled, LabelSupply.next] at hrest ⊢
        exact Or.inl ⟨_, rfl, Nat.le_refl _, hrest.1⟩
    · rcases ih _ part hpart with ⟨k, hk, hle, hlt⟩ | ⟨k, hk, hle, hlt⟩
      · exact Or.inl ⟨k, hk, Nat.le_trans hnext.1 hle, hlt⟩
      · exact Or.inr ⟨k, hk, Nat.le_trans hnext.2 hle, hlt⟩

/-- No label is issued twice. -/
theorem nodup_labelParts (supply : LabelSupply) (groups : List (Group κ α)) :
    ((labelParts round settled supply groups).1.map (·.1)).Nodup := by
  induction groups generalizing supply with
  | nil => simp [labelParts]
  | cons g rest ih =>
    rw [labelParts_cons, List.map_cons, List.nodup_cons]
    refine ⟨fun hmem => ?_, ih _⟩
    obtain ⟨part, hpart, heq⟩ := List.mem_map.1 hmem
    have hissued := isIssued_labelParts _ rest part hpart
    cases hsettled : settled g.2 with
    | true =>
      simp only [hsettled, LabelSupply.next, if_true] at hissued heq
      rcases hissued with ⟨k, hk, hle, -⟩ | ⟨k, hk, hle, -⟩
      · rw [hk] at heq
        cases heq
      · rw [hk] at heq
        cases heq
        exact Nat.not_succ_le_self _ hle
    | false =>
      simp only [hsettled, LabelSupply.next] at hissued heq
      rcases hissued with ⟨k, hk, hle, -⟩ | ⟨k, hk, hle, -⟩
      · rw [hk] at heq
        cases heq
        exact Nat.not_succ_le_self _ hle
      · rw [hk] at heq
        cases heq

end Issued

/-! ## Labels of seeds -/

theorem seedLabels_cons (n rank nSingular : Nat) (items : List Item) (rest : List (List Item)) :
    RefinementState.seedLabels n rank nSingular (items :: rest) =
      if RefinementState.isSettled n items then
        ((.singular nSingular, items) ::
          (RefinementState.seedLabels n (rank + 1) (nSingular + 1) rest).1,
        (RefinementState.seedLabels n (rank + 1) (nSingular + 1) rest).2)
      else
        ((.initial rank, items) :: (RefinementState.seedLabels n (rank + 1) nSingular rest).1,
        (RefinementState.seedLabels n (rank + 1) nSingular rest).2) := by
  rw [RefinementState.seedLabels]

theorem le_seedLabels (n rank nSingular : Nat) (lists : List (List Item)) :
    nSingular ≤ (RefinementState.seedLabels n rank nSingular lists).2 := by
  induction lists generalizing rank nSingular with
  | nil => exact Nat.le_refl _
  | cons items rest ih =>
    rw [seedLabels_cons]
    split
    · exact Nat.le_trans (Nat.le_succ _) (ih _ _)
    · exact ih _ _

theorem isIssued_seedLabels (n rank nSingular : Nat) (lists : List (List Item)) :
    ∀ part ∈ (RefinementState.seedLabels n rank nSingular lists).1,
      (∃ k, part.1 = .at 0 k ∧ rank ≤ k) ∨
        ∃ k, part.1 = .singular k ∧ nSingular ≤ k ∧
          k < (RefinementState.seedLabels n rank nSingular lists).2 := by
  induction lists generalizing rank nSingular with
  | nil => simp [RefinementState.seedLabels]
  | cons items rest ih =>
    rw [seedLabels_cons]
    split
    · intro part hpart
      rcases List.mem_cons.1 hpart with rfl | hpart
      · exact Or.inr ⟨nSingular, rfl, Nat.le_refl _, le_seedLabels _ _ (nSingular + 1) _⟩
      · rcases ih _ _ part hpart with ⟨k, hk, hle⟩ | ⟨k, hk, hle, hlt⟩
        · exact Or.inl ⟨k, hk, Nat.le_of_succ_le hle⟩
        · exact Or.inr ⟨k, hk, Nat.le_of_succ_le hle, hlt⟩
    · intro part hpart
      rcases List.mem_cons.1 hpart with rfl | hpart
      · exact Or.inl ⟨rank, rfl, Nat.le_refl _⟩
      · rcases ih _ _ part hpart with ⟨k, hk, hle⟩ | ⟨k, hk, hle, hlt⟩
        · exact Or.inl ⟨k, hk, Nat.le_of_succ_le hle⟩
        · exact Or.inr ⟨k, hk, hle, hlt⟩

theorem nodup_seedLabels (n rank nSingular : Nat) (lists : List (List Item)) :
    ((RefinementState.seedLabels n rank nSingular lists).1.map (·.1)).Nodup := by
  induction lists generalizing rank nSingular with
  | nil => simp [RefinementState.seedLabels]
  | cons items rest ih =>
    rw [seedLabels_cons]
    split
    all_goals
      rw [List.map_cons, List.nodup_cons]
      refine ⟨fun hmem => ?_, ih _ _⟩
      obtain ⟨part, hpart, heq⟩ := List.mem_map.1 hmem
      rcases isIssued_seedLabels _ _ _ _ part hpart with ⟨k, hk, hle⟩ | ⟨k, hk, hle, -⟩
      all_goals
        rw [hk] at heq
        cases heq
        try exact Nat.not_succ_le_self _ hle

/-! ## Classes -/

/-- A list of items with as many on the left as on the right. -/
def IsBalanced (items : List Item) : Prop :=
  items.countP (·.side = 0) = items.countP (·.side = 1)

theorem IsBalanced.perm {items items' : List Item} (h : IsBalanced items) (hperm : items.Perm items') :
    IsBalanced items' := by
  unfold IsBalanced at h ⊢
  rwa [← hperm.countP_eq, ← hperm.countP_eq]

theorem isBalanced_of_checkSizes {kind : ItemKind} {label : ClassLabel} {round : Nat}
    {items : List Item}
    (h : RefinementState.checkSizes kind label round (RefinementState.sizes 2 items) = .ok ()) :
    IsBalanced items := by
  have hsizes : RefinementState.sizes 2 items =
      [items.countP (·.side = 0), items.countP (·.side = 1)] := rfl
  rw [hsizes, RefinementState.checkSizes] at h
  split at h
  · assumption
  · cases h

namespace Labelling

variable {l : Labelling} {parts : List (ClassLabel × List Item)} {x : ClassLabel} {i : Item}

/-- The items that carry a label. -/
def members (l : Labelling) (x : ClassLabel) : List Item := l.items.filter fun i => l.label i = x

theorem mem_members : i ∈ l.members x ↔ l.Valid i ∧ l.label i = x := by
  simp [members, mem_items]

theorem nodup_members (l : Labelling) (x : ClassLabel) : (l.members x).Nodup :=
  (nodup_items l).filter _

/-- What relabelling needs: parts of existing items, no item in two of them, and new labels. -/
structure IsSplit (l : Labelling) (parts : List (ClassLabel × List Item)) : Prop where
  valid : ∀ part ∈ parts, ∀ i ∈ part.2, l.Valid i
  nodup : ∀ part ∈ parts, part.2.Nodup
  disjoint : parts.Pairwise fun p q => ∀ i ∈ p.2, i ∉ q.2
  labels : (parts.map (·.1)).Nodup
  unused : ∀ part ∈ parts, ∀ i, l.Valid i → l.label i ≠ part.1

/-- The members of a new label are the part that was given it. -/
theorem IsSplit.members_of_mem (h : l.IsSplit parts) {part : ClassLabel × List Item}
    (hpart : part ∈ parts) : ((l.relabel parts).members part.1).Perm part.2 := by
  refine (List.perm_ext_iff_of_nodup (nodup_members _ _) (h.nodup part hpart)).2 fun i => ?_
  rw [mem_members, valid_relabel]
  constructor
  · rintro ⟨hi, hlabel⟩
    by_cases hlisted : ∃ q ∈ parts, i ∈ q.2
    · obtain ⟨q, hq, hiq⟩ := hlisted
      rw [label_relabel_of_mem h.valid h.disjoint hq hiq] at hlabel
      have : q = part := List.inj_on_of_nodup_map h.labels hq hpart hlabel
      exact this ▸ hiq
    · rw [label_relabel_of_not_mem h.valid fun q hq hiq => hlisted ⟨q, hq, hiq⟩] at hlabel
      exact absurd hlabel (h.unused part hpart i hi)
  · intro hi
    exact ⟨h.valid part hpart i hi, label_relabel_of_mem h.valid h.disjoint hpart hi⟩

/-- The members of a label that is not new are those that are in no part. -/
theorem IsSplit.mem_members_of_not_mem (h : l.IsSplit parts) (hx : x ∉ parts.map (·.1)) :
    i ∈ (l.relabel parts).members x ↔ i ∈ l.members x ∧ ∀ part ∈ parts, i ∉ part.2 := by
  rw [mem_members, mem_members, valid_relabel]
  by_cases hlisted : ∃ q ∈ parts, i ∈ q.2
  · obtain ⟨q, hq, hiq⟩ := hlisted
    rw [label_relabel_of_mem h.valid h.disjoint hq hiq]
    constructor
    · rintro ⟨-, rfl⟩
      exact absurd (List.mem_map_of_mem hq) hx
    · rintro ⟨-, hnone⟩
      exact absurd hiq (hnone q hq)
  · have hnone : ∀ q ∈ parts, i ∉ q.2 := fun q hq hiq => hlisted ⟨q, hq, hiq⟩
    rw [label_relabel_of_not_mem h.valid hnone]
    exact ⟨fun hi => ⟨hi, hnone⟩, fun hi => hi.1⟩

end Labelling

/-! ## Parts of a round -/

theorem map_snd_labelParts {α κ : Type} {round : Nat} {settled : List α → Bool}
    (supply : LabelSupply) (groups : List (Group κ α)) :
    (labelParts round settled supply groups).1.map (·.2) = groups.map (·.2) := by
  induction groups generalizing supply with
  | nil => rfl
  | cons g rest ih =>
    rw [labelParts_cons, List.map_cons, List.map_cons, ih]

namespace RefinementState

/-- The label has been issued up to the given round, with so many settled classes. -/
def HasBeenIssued (round nSingular : Nat) (x : ClassLabel) : Prop :=
  (∃ r k, x = .at r k ∧ r ≤ round) ∨ ∃ k, x = .singular k ∧ k < nSingular

theorem HasBeenIssued.mono {round round' n n' : Nat} {x : ClassLabel} (h : HasBeenIssued round n x)
    (hround : round ≤ round') (hn : n ≤ n') : HasBeenIssued round' n' x := by
  rcases h with ⟨r, k, rfl, hr⟩ | ⟨k, rfl, hk⟩
  · exact Or.inl ⟨r, k, rfl, Nat.le_trans hr hround⟩
  · exact Or.inr ⟨k, rfl, Nat.lt_of_lt_of_le hk hn⟩

section Round

variable {κ : Type} [Ord κ] [Std.TransOrd κ] [Std.LawfulEqOrd κ] [DecidableEq κ]
  {mode : RefinementMode} {key : Item → κ} {s : RefinementState} {n : Nat}

omit [Ord κ] [Std.TransOrd κ] [Std.LawfulEqOrd κ] [DecidableEq κ] in
theorem isIssued_splitRound {groups : List (Group κ Item)} {part : ClassLabel × List Item}
    (hpart : part ∈ (s.splitRound n groups).1) :
    HasBeenIssued (s.round + 1) (s.splitRound n groups).2 part.1 ∧
      ¬HasBeenIssued s.round s.nSingular part.1 := by
  rcases isIssued_labelParts _ _ part hpart with ⟨k, hk, -, -⟩ | ⟨k, hk, hle, hlt⟩
  · rw [hk]
    refine ⟨Or.inl ⟨_, k, rfl, Nat.le_refl _⟩, ?_⟩
    rintro (⟨r, k', heq, hr⟩ | ⟨k', heq, -⟩)
    · cases heq
      exact Nat.not_succ_le_self _ hr
    · cases heq
  · rw [hk]
    refine ⟨Or.inr ⟨k, rfl, hlt⟩, ?_⟩
    rintro (⟨r, k', heq, -⟩ | ⟨k', heq, hk'⟩)
    · cases heq
    · cases heq
      exact Nat.not_le_of_lt hk' hle

omit [Ord κ] [Std.TransOrd κ] [Std.LawfulEqOrd κ] [DecidableEq κ] in
theorem exists_splitRound_iff {groups : List (Group κ Item)} {items : List Item} :
    (∃ part ∈ (s.splitRound n groups).1, part.2 = items) ↔
      ∃ g ∈ splitParts groups, g.2 = items := by
  have hmap := @map_snd_labelParts _ _ (s.round + 1) (isSettled n) ⟨s.nSingular, 0⟩
    (splitParts groups)
  rw [← List.mem_map, ← List.mem_map, ← hmap]
  rfl

/-- The parts of a round split the classes that the round looked at. -/
theorem isSplit_splitRound
    (hissued : ∀ i, mode.labels.Valid i → HasBeenIssued s.round s.nSingular (mode.labels.label i)) :
    mode.labels.IsSplit (s.splitRound n (frontierGroups mode key)).1 where
  valid := by
    intro part hpart i hi
    obtain ⟨g, hg, heq⟩ := mem_splitGroups hpart
    exact valid_of_mem_frontierGroups hg (heq ▸ hi)
  nodup := by
    intro part hpart
    obtain ⟨g, hg, heq⟩ := mem_splitGroups hpart
    exact heq ▸ nodup_of_mem_frontierGroups hg
  disjoint := by
    have hgroups : (splitParts (frontierGroups mode key)).Pairwise
        fun g h => ∀ i ∈ g.2, i ∉ h.2 := by
      have hkeys : (frontierGroups mode key).Pairwise fun g h => g.1 ≠ h.1 :=
        List.pairwise_map.1 (nodup_groupItems _ _ _)
      refine (List.Pairwise.imp_of_mem (fun hg hh hne i hi hi' => hne ?_) hkeys).filter _
      have hg' := ((mem_of_mem_group hg).1 hi).2
      have hh' := ((mem_of_mem_group hh).1 hi').2
      exact Prod.ext (hg'.1.symm.trans hh'.1) (hg'.2.symm.trans hh'.2)
    have hmap := @map_snd_labelParts _ _ (s.round + 1) (isSettled n) ⟨s.nSingular, 0⟩
      (splitParts (frontierGroups mode key))
    have hlists : ((s.splitRound n (frontierGroups mode key)).1.map (·.2)).Pairwise
        fun p q => ∀ i ∈ p, i ∉ q := by
      show ((labelParts _ _ _ _).1.map (·.2)).Pairwise _
      rw [hmap]
      exact List.pairwise_map.2 hgroups
    exact List.pairwise_map.1 hlists
  labels := nodup_labelParts _ _
  unused := fun part hpart i hi heq =>
    (isIssued_splitRound hpart).2 (heq ▸ hissued i hi)

/-- If one member of a class is in a part, then all of them are. -/
theorem mem_splitRound_of_label_eq {part : ClassLabel × List Item}
    (hpart : part ∈ (s.splitRound n (frontierGroups mode key)).1) {i j : Item} (hi : i ∈ part.2)
    (hj : mode.labels.Valid j) (hlabel : mode.labels.label j = mode.labels.label i) :
    ∃ q ∈ (s.splitRound n (frontierGroups mode key)).1, j ∈ q.2 := by
  obtain ⟨g, hg, hgi⟩ := exists_splitRound_iff.1 ⟨part, hpart, rfl⟩
  have hgroup := List.mem_filter.1 hg
  rw [← hgi] at hi
  have hmem := (mem_of_mem_group hgroup.1).1 hi
  have hfrontier : mode.labels.label j ∈ mode.frontier := by
    rw [hlabel]
    exact of_decide_eq_true (List.mem_filter.1 hmem.1).2
  have hjmem : j ∈ mode.labels.items.filter fun i => mode.labels.label i ∈ mode.frontier :=
    List.mem_filter.2 ⟨Labelling.mem_items.2 hj, decide_eq_true hfrontier⟩
  obtain ⟨g', hg', hkey, hjg⟩ := @exists_group _ _ _ _ _ _ mode.labels.label key _ _ hjmem
  have hsame : g'.1.1 = g.1.1 := by rw [hkey, hlabel, hmem.2.1]
  -- whether a group is split depends on its class only
  have hsplit : g' ∈ splitParts (frontierGroups mode key) := by
    refine List.mem_filter.2 ⟨hg', ?_⟩
    rw [hsame]
    exact hgroup.2
  obtain ⟨q, hq, heq⟩ := exists_splitRound_iff.2 ⟨g', hsplit, rfl⟩
  exact ⟨q, hq, heq ▸ hjg⟩

/-- After a round that checked its groups, every class is balanced if it was before. -/
theorem isBalanced_relabel_splitRound
    (hissued : ∀ i, mode.labels.Valid i → HasBeenIssued s.round s.nSingular (mode.labels.label i))
    (hbalanced : ∀ x, CircuitEquiv.IsBalanced (mode.labels.members x)) {kind : ItemKind}
    (hcheck : checkGroups kind 2 (s.round + 1) (frontierGroups mode key) = .ok ()) (x : ClassLabel) :
    CircuitEquiv.IsBalanced
      ((mode.labels.relabel (s.splitRound 2 (frontierGroups mode key)).1).members x) := by
  have hsplit := @isSplit_splitRound _ _ _ _ _ _ key _ 2 hissued
  by_cases hx : x ∈ (s.splitRound 2 (frontierGroups mode key)).1.map (·.1)
  · obtain ⟨part, hpart, rfl⟩ := List.mem_map.1 hx
    obtain ⟨g, hg, heq⟩ := mem_splitGroups hpart
    have hpartBalanced : CircuitEquiv.IsBalanced part.2 :=
      heq ▸ isBalanced_of_checkSizes (forM_eq_ok_iff.1 hcheck g hg)
    exact hpartBalanced.perm (hsplit.members_of_mem hpart).symm
  · by_cases hmoved : ∃ i ∈ mode.labels.members x,
        ∃ part ∈ (s.splitRound 2 (frontierGroups mode key)).1, i ∈ part.2
    · obtain ⟨i, hi, part, hpart, hip⟩ := hmoved
      have hempty : (mode.labels.relabel (s.splitRound 2 (frontierGroups mode key)).1).members x =
          [] := by
        refine List.eq_nil_iff_forall_not_mem.2 fun j hj => ?_
        obtain ⟨hjx, hnone⟩ := (hsplit.mem_members_of_not_mem hx).1 hj
        rw [Labelling.mem_members] at hi hjx
        obtain ⟨q, hq, hjq⟩ :=
          mem_splitRound_of_label_eq hpart hip hjx.1 (hjx.2.trans hi.2.symm)
        exact hnone q hq hjq
      rw [hempty]
      rfl
    · refine (hbalanced x).perm ?_
      refine (List.perm_ext_iff_of_nodup (Labelling.nodup_members _ _)
        (Labelling.nodup_members _ _)).2 fun i => ?_
      rw [hsplit.mem_members_of_not_mem hx]
      exact ⟨fun hi => ⟨hi, fun part hpart hip => hmoved ⟨i, hi, part, hpart, hip⟩⟩, fun hi => hi.1⟩

/-- Items with the same label after a round had the same label before it. -/
theorem label_eq_of_label_relabel_eq
    (hissued : ∀ i, mode.labels.Valid i → HasBeenIssued s.round s.nSingular (mode.labels.label i))
    {i j : Item} (hi : mode.labels.Valid i) (hj : mode.labels.Valid j)
    (h : (mode.labels.relabel (s.splitRound n (frontierGroups mode key)).1).label i =
      (mode.labels.relabel (s.splitRound n (frontierGroups mode key)).1).label j) :
    mode.labels.label i = mode.labels.label j := by
  have hsplit := @isSplit_splitRound _ _ _ _ _ _ key _ n hissued
  have hpart : ∀ k l, mode.labels.Valid l →
      (mode.labels.relabel (s.splitRound n (frontierGroups mode key)).1).label k =
        (mode.labels.relabel (s.splitRound n (frontierGroups mode key)).1).label l →
      ∀ part ∈ (s.splitRound n (frontierGroups mode key)).1, k ∈ part.2 → l ∈ part.2 := by
    intro k l hl heq part hpart hk
    rw [Labelling.label_relabel_of_mem hsplit.valid hsplit.disjoint hpart hk] at heq
    have hmem : l ∈ (mode.labels.relabel
        (s.splitRound n (frontierGroups mode key)).1).members part.1 :=
      Labelling.mem_members.2 ⟨Labelling.valid_relabel _ |>.2 hl, heq.symm⟩
    exact (hsplit.members_of_mem hpart).mem_iff.1 hmem
  by_cases hmoved : ∃ part ∈ (s.splitRound n (frontierGroups mode key)).1, i ∈ part.2
  · obtain ⟨part, hpart', hip⟩ := hmoved
    obtain ⟨g, hg, heq⟩ := mem_splitGroups hpart'
    have hjp := hpart i j hj h part hpart' hip
    rw [heq] at hip hjp
    rw [((mem_of_mem_group hg).1 hip).2.1, ((mem_of_mem_group hg).1 hjp).2.1]
  · have hnone : ∀ part ∈ (s.splitRound n (frontierGroups mode key)).1, i ∉ part.2 :=
      fun part hp hip => hmoved ⟨part, hp, hip⟩
    have hnone' : ∀ part ∈ (s.splitRound n (frontierGroups mode key)).1, j ∉ part.2 :=
      fun part hp hjp => hmoved ⟨part, hp, hpart j i hi h.symm part hp hjp⟩
    rwa [Labelling.label_relabel_of_not_mem hsplit.valid hnone,
      Labelling.label_relabel_of_not_mem hsplit.valid hnone'] at h

theorem hasBeenIssued_relabel_splitRound
    (hissued : ∀ i, mode.labels.Valid i → HasBeenIssued s.round s.nSingular (mode.labels.label i))
    {i : Item} (hi : mode.labels.Valid i) :
    HasBeenIssued (s.round + 1) (s.splitRound n (frontierGroups mode key)).2
      ((mode.labels.relabel (s.splitRound n (frontierGroups mode key)).1).label i) := by
  have hsplit := @isSplit_splitRound _ _ _ _ _ _ key _ n hissued
  by_cases hmoved : ∃ part ∈ (s.splitRound n (frontierGroups mode key)).1, i ∈ part.2
  · obtain ⟨part, hpart, hip⟩ := hmoved
    rw [Labelling.label_relabel_of_mem hsplit.valid hsplit.disjoint hpart hip]
    exact (isIssued_splitRound hpart).1
  · rw [Labelling.label_relabel_of_not_mem hsplit.valid fun part hp hip => hmoved ⟨part, hp, hip⟩]
    have hle := @le_labelParts _ _ (s.round + 1) (isSettled n) ⟨s.nSingular, 0⟩
      (splitParts (frontierGroups mode key))
    exact (hissued i hi).mono (Nat.le_succ _) hle.2

end Round

/-! ## The invariant of a run -/

/-- What every state of a run satisfies: every item keeps a label, signals with one label have one
role, and labels in use have been issued. -/
structure IsLabelled (graphs : Array SideGraph) (s : RefinementState) : Prop where
  size_norms : s.norms.labels.size = graphs.size
  size_signals : s.signals.labels.size = graphs.size
  norms : ∀ i, s.norms.labels.Valid i ↔ (uniformNorms graphs).Valid i
  signals : ∀ i, s.signals.labels.Valid i ↔ (uniformSignals graphs).Valid i
  role : ∀ i j, s.signals.labels.Valid i → s.signals.labels.Valid j →
    s.signals.labels.label i = s.signals.labels.label j → roleOf graphs i = roleOf graphs j
  issued_norms : ∀ i, s.norms.labels.Valid i →
    HasBeenIssued s.round s.nSingular (s.norms.labels.label i)
  issued_signals : ∀ i, s.signals.labels.Valid i →
    HasBeenIssued s.round s.nSingular (s.signals.labels.label i)

/-- What a state of a run on two sides satisfies besides: signal classes are balanced. -/
structure IsBalanced (graphs : Array SideGraph) (s : RefinementState) : Prop
    extends s.IsLabelled graphs where
  balanced : ∀ x, CircuitEquiv.IsBalanced (s.signals.labels.members x)

variable {graphs : Array SideGraph} {s : RefinementState}

theorem le_nSingular_splitRound {κ : Type} (n : Nat) (groups : List (Group κ Item)) :
    s.nSingular ≤ (s.splitRound n groups).2 :=
  (@le_labelParts _ _ (s.round + 1) (isSettled n) ⟨s.nSingular, 0⟩ (splitParts groups)).2

theorem IsLabelled.afterNorms (hs : s.IsLabelled graphs) :
    (s.afterNorms graphs).IsLabelled graphs := by
  constructor
  case size_norms => simp [hs.size_norms]
  case size_signals => simp [hs.size_signals]
  case norms => simpa using hs.norms
  case signals => simpa using hs.signals
  case role => simpa using hs.role
  case issued_norms =>
    intro i hi
    rw [norm_labels_afterNorms, Labelling.valid_relabel] at hi
    rw [norm_labels_afterNorms, round_afterNorms, nSingular_afterNorms, normGroups]
    exact hasBeenIssued_relabel_splitRound hs.issued_norms hi
  case issued_signals =>
    intro i hi
    rw [signal_labels_afterNorms] at hi ⊢
    rw [round_afterNorms, nSingular_afterNorms]
    exact (hs.issued_signals i hi).mono (Nat.le_succ _) (le_nSingular_splitRound _ _)

theorem IsLabelled.afterSignals (hs : s.IsLabelled graphs) :
    (s.afterSignals graphs).IsLabelled graphs := by
  constructor
  case size_norms => simp [hs.size_norms]
  case size_signals => simp [hs.size_signals]
  case norms => simpa using hs.norms
  case signals => simpa using hs.signals
  case role =>
    intro i j hi hj heq
    rw [signal_labels_afterSignals, Labelling.valid_relabel] at hi hj
    exact hs.role i j hi hj (label_eq_of_label_relabel_eq hs.issued_signals hi hj heq)
  case issued_norms =>
    intro i hi
    rw [norm_labels_afterSignals] at hi ⊢
    rw [round_afterSignals, nSingular_afterSignals]
    exact (hs.issued_norms i hi).mono (Nat.le_succ _) (le_nSingular_splitRound _ _)
  case issued_signals =>
    intro i hi
    rw [signal_labels_afterSignals, Labelling.valid_relabel] at hi
    rw [signal_labels_afterSignals, round_afterSignals, nSingular_afterSignals, signalGroups]
    exact hasBeenIssued_relabel_splitRound hs.issued_signals hi

theorem roundOf_isLabelled (kind : ItemKind) (s s' : RefinementState) (split : Bool)
    (hs : s.IsLabelled graphs) (h : s.roundOf graphs kind = .ok (s', split)) :
    s'.IsLabelled graphs := by
  cases kind with
  | norm =>
    obtain ⟨-, rfl, -⟩ := (normRound_eq_ok_iff graphs s).1 h
    exact hs.afterNorms
  | signal =>
    obtain ⟨-, rfl, -⟩ := (signalRound_eq_ok_iff graphs s).1 h
    exact hs.afterSignals

theorem roundOf_isBalanced (hsize : graphs.size = 2) (kind : ItemKind) (s s' : RefinementState)
    (split : Bool) (hs : s.IsBalanced graphs) (h : s.roundOf graphs kind = .ok (s', split)) :
    s'.IsBalanced graphs := by
  refine ⟨roundOf_isLabelled kind s s' split hs.toIsLabelled h, fun x => ?_⟩
  cases kind with
  | norm =>
    obtain ⟨-, rfl, -⟩ := (normRound_eq_ok_iff graphs s).1 h
    rw [signal_labels_afterNorms]
    exact hs.balanced x
  | signal =>
    obtain ⟨hcheck, rfl, -⟩ := (signalRound_eq_ok_iff graphs s).1 h
    have hbalanced := isBalanced_relabel_splitRound hs.issued_signals hs.balanced (hsize ▸ hcheck) x
    rwa [← hsize] at hbalanced

/-! ## The start -/

section Seeds

variable {l : Labelling} {lists : List (List Item)} {n rank nSingular : Nat}

theorem map_snd_seedLabels (n rank nSingular : Nat) (lists : List (List Item)) :
    (seedLabels n rank nSingular lists).1.map (·.2) = lists := by
  induction lists generalizing rank nSingular with
  | nil => rfl
  | cons items rest ih =>
    rw [seedLabels_cons]
    split <;> rw [List.map_cons, ih]

/-- Disjoint lists of items that become the seed classes of a labelling. -/
structure IsSeeding (l : Labelling) (lists : List (List Item)) : Prop where
  valid : ∀ items ∈ lists, ∀ i ∈ items, l.Valid i
  nodup : ∀ items ∈ lists, items.Nodup
  disjoint : lists.Pairwise fun p q => ∀ i ∈ p, i ∉ q

theorem IsSeeding.isSplit (h : IsSeeding l lists) :
    (∀ part ∈ (seedLabels n rank nSingular lists).1, ∀ i ∈ part.2, l.Valid i) ∧
      (seedLabels n rank nSingular lists).1.Pairwise fun p q => ∀ i ∈ p.2, i ∉ q.2 := by
  refine ⟨fun part hpart => h.valid _ (mem_seedLabels hpart), ?_⟩
  have hdisjoint := h.disjoint
  rw [← map_snd_seedLabels n rank nSingular lists] at hdisjoint
  exact List.pairwise_map.1 hdisjoint

theorem IsSeeding.label_of_mem (h : IsSeeding l lists) {part : ClassLabel × List Item}
    (hpart : part ∈ (seedLabels n rank nSingular lists).1) {i : Item} (hi : i ∈ part.2) :
    (l.relabel (seedLabels n rank nSingular lists).1).label i = part.1 :=
  Labelling.label_relabel_of_mem h.isSplit.1 h.isSplit.2 hpart hi

/-- Every member of a list carries the label that its list was given. -/
theorem IsSeeding.exists_part (h : IsSeeding l lists) {items : List Item} (hitems : items ∈ lists)
    {i : Item} (hi : i ∈ items) :
    ∃ part ∈ (seedLabels n rank nSingular lists).1, part.2 = items ∧
      (l.relabel (seedLabels n rank nSingular lists).1).label i = part.1 := by
  rw [← map_snd_seedLabels n rank nSingular lists] at hitems
  obtain ⟨part, hpart, rfl⟩ := List.mem_map.1 hitems
  exact ⟨part, hpart, rfl, h.label_of_mem hpart hi⟩

theorem hasBeenIssued_of_mem_seedLabels {part : ClassLabel × List Item}
    (hpart : part ∈ (seedLabels n rank nSingular lists).1) :
    HasBeenIssued 0 (seedLabels n rank nSingular lists).2 part.1 := by
  rcases isIssued_seedLabels _ _ _ _ part hpart with ⟨k, hk, -⟩ | ⟨k, hk, -, hlt⟩
  · exact Or.inl ⟨0, k, hk, Nat.le_refl _⟩
  · exact Or.inr ⟨k, hk, hlt⟩

end Seeds

theorem pairwise_roleClasses (graphs : Array SideGraph) :
    ((roleClasses graphs).map (·.2)).Pairwise fun p q => ∀ i ∈ p, i ∉ q := by
  have hroles : (roleClasses graphs).Pairwise fun p q => p.1 ≠ q.1 := by
    have hlist : ([.constant, .output, .input, .internal] : List SignalRole).Nodup := by decide
    refine List.Pairwise.filterMap _ (R := (· ≠ ·)) ?_ hlist
    intro role role' hne p hp q hq
    dsimp only at hp hq
    split at hp
    · cases hp
    · split at hq
      · cases hq
      · cases hp
        cases hq
        exact hne
  refine List.pairwise_map.2 (hroles.imp_of_mem ?_)
  rintro ⟨role, items⟩ ⟨role', items'⟩ hmem hmem' hne i hi hi'
  obtain ⟨rfl, -⟩ := (mem_roleClasses graphs).1 hmem
  obtain ⟨rfl, -⟩ := (mem_roleClasses graphs).1 hmem'
  have hrole := of_decide_eq_true (List.mem_filter.1 hi).2
  have hrole' := of_decide_eq_true (List.mem_filter.1 hi').2
  exact hne (hrole.symm.trans hrole')

theorem isSeeding_roleClasses (graphs : Array SideGraph) :
    IsSeeding (uniformSignals graphs) ((roleClasses graphs).map (·.2)) := by
  have hclass : ∀ items ∈ (roleClasses graphs).map (·.2), ∃ role,
      items = (uniformSignals graphs).items.filter fun i => roleOf graphs i = role := by
    intro items hitems
    obtain ⟨⟨role, items⟩, hmem, rfl⟩ := List.mem_map.1 hitems
    exact ⟨role, ((mem_roleClasses graphs).1 hmem).1⟩
  refine ⟨fun items hitems i hi => ?_, fun items hitems => ?_, pairwise_roleClasses graphs⟩
  · obtain ⟨role, rfl⟩ := hclass items hitems
    exact Labelling.mem_items.1 (List.mem_of_mem_filter hi)
  · obtain ⟨role, rfl⟩ := hclass items hitems
    exact (Labelling.nodup_items _).filter _

/-- Every signal is in the seed class of its role and carries the label of that class. -/
theorem exists_signalSeed {i : Item} (hi : (uniformSignals graphs).Valid i) :
    ∃ part ∈ (signalSeeds graphs).1, i ∈ part.2 ∧
      (∀ j ∈ part.2, roleOf graphs j = roleOf graphs i) ∧
      (seeded graphs).signals.labels.label i = part.1 := by
  have hmem : i ∈ (uniformSignals graphs).items.filter fun j => roleOf graphs j = roleOf graphs i :=
    List.mem_filter.2 ⟨Labelling.mem_items.2 hi, decide_eq_true rfl⟩
  have hclass := (mem_roleClasses graphs).2
    ⟨(rfl : (uniformSignals graphs).items.filter (fun j => roleOf graphs j = roleOf graphs i) = _),
      List.ne_nil_of_mem hmem⟩
  obtain ⟨part, hpart, heq, hlabel⟩ :=
    (isSeeding_roleClasses graphs).exists_part (List.mem_map_of_mem hclass) hmem
  refine ⟨part, hpart, heq ▸ hmem, fun j hj => ?_, hlabel⟩
  rw [heq] at hj
  exact of_decide_eq_true (List.mem_filter.1 hj).2

/-- The seed classes of norms: all of them, if there are any. -/
def normSeedLists (graphs : Array SideGraph) : List (List Item) :=
  if (uniformNorms graphs).items.isEmpty then [] else [(uniformNorms graphs).items]

theorem mem_normSeedLists {items : List Item} :
    items ∈ normSeedLists graphs ↔ items = (uniformNorms graphs).items ∧ items ≠ [] := by
  unfold normSeedLists
  split
  · rename_i hempty
    rw [List.isEmpty_iff] at hempty
    simp [hempty]
  · rename_i hempty
    rw [List.isEmpty_iff] at hempty
    constructor
    · intro h
      rw [List.mem_singleton.1 h]
      exact ⟨rfl, hempty⟩
    · rintro ⟨rfl, -⟩
      exact List.mem_singleton_self _

theorem isSeeding_normSeedLists (graphs : Array SideGraph) :
    IsSeeding (uniformNorms graphs) (normSeedLists graphs) := by
  refine ⟨fun items hitems i hi => ?_, fun items hitems => ?_, ?_⟩
  · rw [(mem_normSeedLists.1 hitems).1] at hi
    exact Labelling.mem_items.1 hi
  · rw [(mem_normSeedLists.1 hitems).1]
    exact Labelling.nodup_items _
  · unfold normSeedLists
    split
    · exact List.Pairwise.nil
    · exact List.pairwise_singleton _ _

/-- Every norm is in the seed class and carries its label. -/
theorem exists_normSeed {i : Item} (hi : (uniformNorms graphs).Valid i) :
    ∃ part ∈ (normSeeds graphs).1, i ∈ part.2 ∧ (seeded graphs).norms.labels.label i = part.1 := by
  have hmem := Labelling.mem_items.2 hi
  obtain ⟨part, hpart, heq, hlabel⟩ := (isSeeding_normSeedLists graphs).exists_part
    (mem_normSeedLists.2 ⟨rfl, List.ne_nil_of_mem hmem⟩) hmem
  exact ⟨part, hpart, heq ▸ hmem, hlabel⟩

theorem seeded_isLabelled (graphs : Array SideGraph) : (seeded graphs).IsLabelled graphs where
  size_norms := (Labelling.size_relabel _ _).trans (by simp [uniformNorms])
  size_signals := (Labelling.size_relabel _ _).trans (by simp [uniformSignals])
  norms _ := Labelling.valid_relabel _
  signals _ := Labelling.valid_relabel _
  role i j hi hj heq := by
    obtain ⟨part, hpart, hip, -, hi'⟩ := exists_signalSeed ((Labelling.valid_relabel _).1 hi)
    obtain ⟨part', hpart', -, hrole, hj'⟩ := exists_signalSeed ((Labelling.valid_relabel _).1 hj)
    have hlabels : part.1 = part'.1 := hi'.symm.trans (heq.trans hj')
    have hsame : part = part' :=
      List.inj_on_of_nodup_map (nodup_seedLabels _ _ _ _) hpart hpart' hlabels
    exact hrole i (hsame ▸ hip)
  issued_norms i hi := by
    obtain ⟨part, hpart, -, hlabel⟩ := exists_normSeed ((Labelling.valid_relabel _).1 hi)
    rw [hlabel]
    exact hasBeenIssued_of_mem_seedLabels hpart
  issued_signals i hi := by
    obtain ⟨part, hpart, -, -, hlabel⟩ := exists_signalSeed ((Labelling.valid_relabel _).1 hi)
    rw [hlabel]
    exact (hasBeenIssued_of_mem_seedLabels hpart).mono (Nat.le_refl _) (le_seedLabels _ _ _ _)

theorem start_isBalanced (hsize : graphs.size = 2) {s : RefinementState}
    (h : start graphs = .ok s) : s.IsBalanced graphs := by
  obtain ⟨hcheck, -, rfl⟩ := (start_eq_ok_iff graphs).1 h
  refine ⟨seeded_isLabelled graphs, fun x => ?_⟩
  have hvalid : ∀ i, (seeded graphs).signals.labels.Valid i ↔ (uniformSignals graphs).Valid i :=
    fun i => Labelling.valid_relabel _
  by_cases hx : ∃ part ∈ (signalSeeds graphs).1, part.1 = x
  · obtain ⟨part, hpart, rfl⟩ := hx
    have hchecked := forM_eq_ok_iff.1 hcheck part hpart
    rw [hsize] at hchecked
    have hlist := mem_seedLabels hpart
    refine (isBalanced_of_checkSizes hchecked).perm ((List.perm_ext_iff_of_nodup
      ((isSeeding_roleClasses graphs).nodup _ hlist) (Labelling.nodup_members _ _)).2 fun i => ?_)
    rw [Labelling.mem_members, hvalid]
    constructor
    · intro hi
      exact ⟨(isSeeding_roleClasses graphs).valid _ hlist i hi,
        (isSeeding_roleClasses graphs).label_of_mem hpart hi⟩
    · rintro ⟨hi, heq⟩
      obtain ⟨part', hpart', hip, -, hi'⟩ := exists_signalSeed hi
      have hsame : part' = part := List.inj_on_of_nodup_map (nodup_seedLabels _ _ _ _) hpart' hpart
        (hi'.symm.trans heq)
      exact hsame ▸ hip
  · have hempty : (seeded graphs).signals.labels.members x = [] := by
      refine List.eq_nil_iff_forall_not_mem.2 fun i hi => ?_
      obtain ⟨hi, heq⟩ := Labelling.mem_members.1 hi
      obtain ⟨part, hpart, -, -, hi'⟩ := exists_signalSeed ((hvalid i).1 hi)
      exact hx ⟨part, hpart, hi'.symm.trans heq⟩
    rw [hempty]
    rfl

end RefinementState

/-! ## Refinements without a difference -/

namespace Refinement

/-- What a refinement of two circuits shows when it finds no difference. -/
structure IsBalanced (left : Circuit) (leftNorms : Array Norm) (right : Circuit)
    (rightNorms : Array Norm) (r : Refinement) : Prop where
  size_norms : r.normLabels.size = 2
  size_signals : r.signalLabels.size = 2
  norms : ∀ i, r.normLabels.Valid i ↔
    (i.side = 0 ∧ i.index < leftNorms.size) ∨ (i.side = 1 ∧ i.index < rightNorms.size)
  signals : ∀ i, r.signalLabels.Valid i ↔
    (i.side = 0 ∧ i.index < left.nSignals) ∨ (i.side = 1 ∧ i.index < right.nSignals)
  role_left : ∀ s < left.nSignals, ∀ t < left.nSignals,
    r.signalLabels.label ⟨0, s⟩ = r.signalLabels.label ⟨0, t⟩ → left.role s = left.role t
  role : ∀ s < left.nSignals, ∀ t < right.nSignals,
    r.signalLabels.label ⟨0, s⟩ = r.signalLabels.label ⟨1, t⟩ → left.role s = right.role t
  balanced : ∀ x, CircuitEquiv.IsBalanced (r.signalLabels.members x)

theorem pair_isBalanced {left right : Circuit} {leftNorms rightNorms : Array Norm} {r : Refinement}
    (h : pair left leftNorms right rightNorms = .ok r) :
    r.IsBalanced left leftNorms right rightNorms := by
  unfold pair ofGraphs at h
  cases hstart : RefinementState.start
      #[SideGraph.ofCircuit left leftNorms, SideGraph.ofCircuit right rightNorms] with
  | error e =>
    rw [hstart] at h
    cases h
  | ok s =>
    rw [hstart] at h
    cases hrun : s.run #[SideGraph.ofCircuit left leftNorms, SideGraph.ofCircuit right rightNorms]
        (roundBound #[SideGraph.ofCircuit left leftNorms, SideGraph.ofCircuit right rightNorms])
        .norm false with
    | error e =>
      replace h : (RefinementState.run _ _ _ _ _ >>= _) = Except.ok r := h
      rw [hrun] at h
      cases h
    | ok s' =>
      replace h : (RefinementState.run _ _ _ _ _ >>= _) = Except.ok r := h
      rw [hrun] at h
      cases h
      have hs := RefinementState.run_invariant _
        (fun kind s t split => RefinementState.roundOf_isBalanced rfl kind s t split)
        (RefinementState.start_isBalanced rfl hstart) hrun
      have hnorms : ∀ i, s'.norms.labels.Valid i ↔
          (i.side = 0 ∧ i.index < leftNorms.size) ∨ (i.side = 1 ∧ i.index < rightNorms.size) := by
        intro i
        rw [hs.norms, RefinementState.uniformNorms, ← SideGraph.size_norms_ofCircuit,
          ← SideGraph.size_norms_ofCircuit]
        exact Labelling.valid_constant_pair
      have hsignals : ∀ i, s'.signals.labels.Valid i ↔
          (i.side = 0 ∧ i.index < left.nSignals) ∨ (i.side = 1 ∧ i.index < right.nSignals) := by
        intro i
        rw [hs.signals, RefinementState.uniformSignals, ← SideGraph.size_roles_ofCircuit,
          ← SideGraph.size_roles_ofCircuit]
        exact Labelling.valid_constant_pair
      have hleft : ∀ t < left.nSignals, RefinementState.roleOf
          #[SideGraph.ofCircuit left leftNorms, SideGraph.ofCircuit right rightNorms] ⟨0, t⟩ =
          left.role t := fun t ht =>
        congrArg (Option.getD · SignalRole.internal) (SideGraph.roles_ofCircuit ht)
      have hright : ∀ t < right.nSignals, RefinementState.roleOf
          #[SideGraph.ofCircuit left leftNorms, SideGraph.ofCircuit right rightNorms] ⟨1, t⟩ =
          right.role t := fun t ht =>
        congrArg (Option.getD · SignalRole.internal) (SideGraph.roles_ofCircuit ht)
      refine ⟨hs.size_norms, hs.size_signals, hnorms, hsignals, fun t ht u hu heq => ?_,
        fun t ht u hu heq => ?_, hs.balanced⟩
      · rw [← hleft t ht, ← hleft u hu]
        exact hs.role _ _ ((hsignals _).2 (Or.inl ⟨rfl, ht⟩)) ((hsignals _).2 (Or.inl ⟨rfl, hu⟩)) heq
      · rw [← hleft t ht, ← hright u hu]
        exact hs.role _ _ ((hsignals _).2 (Or.inl ⟨rfl, ht⟩)) ((hsignals _).2 (Or.inr ⟨rfl, hu⟩)) heq

end Refinement

end CircuitEquiv
