-- SUMMARY: The groups of a round, the parts that split classes fall into, and the labels that parts get.
import CircuitEquiv.Proofs.Data.Failure
import CircuitEquiv.Proofs.Data.Ordered
import CircuitEquiv.Proofs.Refinement.Labelling
import CircuitEquiv.Refinement

/-!
# Groups and parts

A round groups items by label and key. The parts that are labelled anew are groups of the round, and
with one group of a class every other group of that class is a part as well.
-/

namespace CircuitEquiv

variable {κ α : Type} [Ord κ] [Std.TransOrd κ] [Std.LawfulEqOrd κ] [DecidableEq κ]

/-! ## Groups -/

/-- The groups are the nonempty sets of items that share label and key. -/
theorem mem_groupItems_iff {label : α → ClassLabel} {key : α → κ} {items : List α}
    {g : Group κ α} :
    g ∈ groupItems label key items ↔
      (∃ i ∈ items, (label i, key i) = g.1) ∧ g.2 = items.filter fun i => (label i, key i) = g.1 := by
  obtain ⟨k, members⟩ := g
  rw [groupItems, SortedMap.mem_entries_groupValues, List.map_map, List.mem_map, List.filter_map,
    List.map_map]
  have hmap : ((items.filter ((fun e : (ClassLabel × κ) × α => decide (e.1 = k)) ∘ fun i =>
      ((label i, key i), i))).map ((·.2) ∘ fun i => ((label i, key i), i))) =
      items.filter fun i => (label i, key i) = k := List.map_id _
  rw [hmap]
  rfl

theorem mem_of_mem_group {label : α → ClassLabel} {key : α → κ} {items : List α}
    {g : Group κ α} (hg : g ∈ groupItems label key items) {i : α} :
    i ∈ g.2 ↔ i ∈ items ∧ label i = g.1.1 ∧ key i = g.1.2 := by
  rw [(mem_groupItems_iff.1 hg).2, List.mem_filter, decide_eq_true_eq, Prod.ext_iff]

omit [DecidableEq κ] in
theorem nodup_groupItems (label : α → ClassLabel) (key : α → κ) (items : List α) :
    ((groupItems label key items).map (·.1)).Nodup := SortedMap.nodup_keys _

/-- Every item is in the group of its label and key. -/
theorem exists_group {label : α → ClassLabel} {key : α → κ} {items : List α} {i : α}
    (hi : i ∈ items) :
    ∃ g ∈ groupItems label key items, g.1 = (label i, key i) ∧ i ∈ g.2 := by
  refine ⟨((label i, key i), items.filter fun j => (label j, key j) = (label i, key i)),
    mem_groupItems_iff.2 ⟨⟨i, hi, rfl⟩, rfl⟩, rfl, ?_⟩
  exact List.mem_filter.2 ⟨hi, decide_eq_true rfl⟩

/-! ## Parts -/

section Parts

omit [Ord κ] [Std.TransOrd κ] [Std.LawfulEqOrd κ] [DecidableEq κ]

theorem mem_labelParts {round : Nat} {settled : List α → Bool} {supply : LabelSupply}
    {groups : List (Group κ α)} {part : ClassLabel × List α}
    (h : part ∈ (labelParts round settled supply groups).1) : ∃ g ∈ groups, part.2 = g.2 := by
  induction groups generalizing supply with
  | nil => cases h
  | cons g rest ih =>
    rcases List.mem_cons.1 h with rfl | h
    · exact ⟨g, List.mem_cons_self, rfl⟩
    · obtain ⟨g', hg', heq⟩ := ih h
      exact ⟨g', List.mem_cons_of_mem g hg', heq⟩

theorem mem_splitGroups {round nSingular : Nat} {settled : List α → Bool}
    {groups : List (Group κ α)} {part : ClassLabel × List α}
    (h : part ∈ (splitGroups round settled nSingular groups).1) : ∃ g ∈ groups, part.2 = g.2 := by
  obtain ⟨g, hg, heq⟩ := mem_labelParts h
  exact ⟨g, List.mem_of_mem_filter hg, heq⟩

theorem mem_seedLabels {n rank nSingular : Nat} {lists : List (List Item)}
    {part : ClassLabel × List Item}
    (h : part ∈ (RefinementState.seedLabels n rank nSingular lists).1) : part.2 ∈ lists := by
  induction lists generalizing rank nSingular with
  | nil => cases h
  | cons items rest ih =>
    rw [RefinementState.seedLabels] at h
    split at h
    all_goals
      rcases List.mem_cons.1 h with rfl | h
      · exact List.mem_cons_self
      · exact List.mem_cons_of_mem items (ih h)

end Parts

/-! ## Rounds

A round checks the sizes of its groups and relabels the parts. -/

namespace RefinementState

section Frontier

variable {mode : RefinementMode} {key : Item → κ} {g : Group κ Item}

theorem valid_of_mem_frontierGroups (hg : g ∈ frontierGroups mode key) {i : Item} (hi : i ∈ g.2) :
    mode.labels.Valid i :=
  Labelling.mem_items.1 (List.mem_of_mem_filter ((mem_of_mem_group hg).1 hi).1)

theorem nodup_of_mem_frontierGroups (hg : g ∈ frontierGroups mode key) : g.2.Nodup := by
  rw [(mem_groupItems_iff.1 hg).2]
  exact ((Labelling.nodup_items _).filter _).filter _

end Frontier

instance : Std.TransOrd SignalKey := inferInstance

/-- The groups of a norm round. -/
def normGroups (graphs : Array SideGraph) (s : RefinementState) : List (Group NormShape Item) :=
  frontierGroups s.norms (normKey graphs s.signals.labels)

/-- The groups of a signal round. -/
def signalGroups (graphs : Array SideGraph) (s : RefinementState) : List (Group SignalKey Item) :=
  frontierGroups s.signals (signalKey graphs s.norms.labels s.signals.labels)

/-- The check that a round makes of its groups. -/
def checkGroups {κ : Type} (kind : ItemKind) (n round : Nat) (groups : List (Group κ Item)) :
    Except Difference Unit := groups.forM fun g => checkSizes kind g.1.1 round (sizes n g.2)

/-- The parts that a round relabels, and the number of settled classes afterwards. -/
def splitRound {κ : Type} (n : Nat) (s : RefinementState) (groups : List (Group κ Item)) :
    List (ClassLabel × List Item) × Nat := splitGroups (s.round + 1) (isSettled n) s.nSingular groups

variable (graphs : Array SideGraph) (s : RefinementState)

/-- The items beside those of some parts. -/
def neighbours (adjacent : Item → List Item) (parts : List (ClassLabel × List Item)) : List Item :=
  parts.flatMap fun part => part.2.flatMap adjacent

/-- The state after a norm round that finds no difference. -/
def afterNorms : RefinementState where
  norms := ⟨s.norms.labels.relabel (s.splitRound graphs.size (s.normGroups graphs)).1, SortedSet.empty⟩
  signals := { s.signals with
    frontier := s.signals.frontier.insertAll (openLabels s.signals.labels
      (neighbours (signalsOf graphs) (s.splitRound graphs.size (s.normGroups graphs)).1)) }
  nSingular := (s.splitRound graphs.size (s.normGroups graphs)).2
  round := s.round + 1
  trace := s.trace ++ (s.normGroups graphs).map fun g =>
    .norm (s.round + 1) g.1.1 g.1.2 (sizes graphs.size g.2)

/-- The state after a signal round that finds no difference. -/
def afterSignals : RefinementState where
  norms := { s.norms with
    frontier := s.norms.frontier.insertAll (openLabels s.norms.labels
      (neighbours (normsOf graphs) (s.splitRound graphs.size (s.signalGroups graphs)).1)) }
  signals :=
    ⟨s.signals.labels.relabel (s.splitRound graphs.size (s.signalGroups graphs)).1, SortedSet.empty⟩
  nSingular := (s.splitRound graphs.size (s.signalGroups graphs)).2
  round := s.round + 1
  trace := s.trace ++ (s.signalGroups graphs).map fun g =>
    .signal (s.round + 1) g.1.1 g.1.2 (sizes graphs.size g.2)

@[simp]
theorem norm_labels_afterNorms :
    (s.afterNorms graphs).norms.labels =
      s.norms.labels.relabel (s.splitRound graphs.size (s.normGroups graphs)).1 := rfl

@[simp]
theorem norm_frontier_afterNorms : (s.afterNorms graphs).norms.frontier = SortedSet.empty := rfl

theorem signal_frontier_afterNorms :
    (s.afterNorms graphs).signals.frontier =
      s.signals.frontier.insertAll (openLabels s.signals.labels
        (neighbours (signalsOf graphs) (s.splitRound graphs.size (s.normGroups graphs)).1)) := by
  simp only [afterNorms]

theorem trace_afterNorms :
    (s.afterNorms graphs).trace = s.trace ++ (s.normGroups graphs).map fun g =>
      .norm (s.round + 1) g.1.1 g.1.2 (sizes graphs.size g.2) := rfl

@[simp]
theorem signal_labels_afterNorms :
    (s.afterNorms graphs).signals.labels = s.signals.labels := by simp only [afterNorms]

@[simp]
theorem nSingular_afterNorms :
    (s.afterNorms graphs).nSingular = (s.splitRound graphs.size (s.normGroups graphs)).2 := rfl

@[simp]
theorem round_afterNorms : (s.afterNorms graphs).round = s.round + 1 := rfl

@[simp]
theorem norm_labels_afterSignals :
    (s.afterSignals graphs).norms.labels = s.norms.labels := by simp only [afterSignals]

@[simp]
theorem signal_frontier_afterSignals : (s.afterSignals graphs).signals.frontier = SortedSet.empty :=
  rfl

theorem norm_frontier_afterSignals :
    (s.afterSignals graphs).norms.frontier =
      s.norms.frontier.insertAll (openLabels s.norms.labels
        (neighbours (normsOf graphs) (s.splitRound graphs.size (s.signalGroups graphs)).1)) := by
  simp only [afterSignals]

theorem trace_afterSignals :
    (s.afterSignals graphs).trace = s.trace ++ (s.signalGroups graphs).map fun g =>
      .signal (s.round + 1) g.1.1 g.1.2 (sizes graphs.size g.2) := rfl

@[simp]
theorem signal_labels_afterSignals :
    (s.afterSignals graphs).signals.labels =
      s.signals.labels.relabel (s.splitRound graphs.size (s.signalGroups graphs)).1 := rfl

@[simp]
theorem nSingular_afterSignals :
    (s.afterSignals graphs).nSingular =
      (s.splitRound graphs.size (s.signalGroups graphs)).2 := rfl

@[simp]
theorem round_afterSignals : (s.afterSignals graphs).round = s.round + 1 := rfl

/-- A norm round fails where its check fails; otherwise it relabels norms only. -/
theorem normRound_eq :
    s.normRound graphs =
      (checkGroups .norm graphs.size (s.round + 1) (s.normGroups graphs) >>= fun _ =>
        .ok (s.afterNorms graphs,
          !(s.splitRound graphs.size (s.normGroups graphs)).1.isEmpty)) := rfl

/-- A signal round fails where its check fails; otherwise it relabels signals only. -/
theorem signalRound_eq :
    s.signalRound graphs =
      (checkGroups .signal graphs.size (s.round + 1) (s.signalGroups graphs) >>= fun _ =>
        .ok (s.afterSignals graphs,
          !(s.splitRound graphs.size (s.signalGroups graphs)).1.isEmpty)) := rfl

theorem normRound_eq_ok_iff {s' : RefinementState} {split : Bool} :
    s.normRound graphs = .ok (s', split) ↔
      checkGroups .norm graphs.size (s.round + 1) (s.normGroups graphs) = .ok () ∧
        s.afterNorms graphs = s' ∧
        (!(s.splitRound graphs.size (s.normGroups graphs)).1.isEmpty) = split := by
  rw [normRound_eq, bind_unit_eq_ok_iff, Except.ok.injEq, Prod.mk.injEq]

theorem signalRound_eq_ok_iff {s' : RefinementState} {split : Bool} :
    s.signalRound graphs = .ok (s', split) ↔
      checkGroups .signal graphs.size (s.round + 1) (s.signalGroups graphs) = .ok () ∧
        s.afterSignals graphs = s' ∧
        (!(s.splitRound graphs.size (s.signalGroups graphs)).1.isEmpty) = split := by
  rw [signalRound_eq, bind_unit_eq_ok_iff, Except.ok.injEq, Prod.mk.injEq]

/-- The round of a kind. -/
def roundOf (graphs : Array SideGraph) (kind : ItemKind) (s : RefinementState) :
    Except Difference (RefinementState × Bool) :=
  match kind with
  | .norm => s.normRound graphs
  | .signal => s.signalRound graphs

/-- The kind of the round after one of the given kind. -/
def nextKind : ItemKind → ItemKind
  | .norm => .signal
  | .signal => .norm

/-- A run is over or makes a round, after which it goes on or stops. -/
theorem run_succ (fuel : Nat) (kind : ItemKind) (quiet : Bool) :
    s.run graphs (fuel + 1) kind quiet =
      if s.norms.frontier.isEmpty && s.signals.frontier.isEmpty then .ok s
      else s.roundOf graphs kind >>= fun p =>
        if p.2 then p.1.run graphs fuel (nextKind kind) false
        else if quiet then .ok p.1
        else p.1.run graphs fuel (nextKind kind) true := by
  cases kind <;> rfl

/-- What every round preserves holds at the end of a run. -/
theorem run_invariant {P : RefinementState → Prop}
    (hround : ∀ kind s s' split, P s → s.roundOf graphs kind = .ok (s', split) → P s')
    {fuel : Nat} {kind : ItemKind} {quiet : Bool} {s s' : RefinementState} (hs : P s)
    (h : s.run graphs fuel kind quiet = .ok s') : P s' := by
  induction fuel generalizing kind quiet s with
  | zero =>
    cases h
    exact hs
  | succ fuel ih =>
    rw [run_succ] at h
    split at h
    · cases h
      exact hs
    · cases hr : s.roundOf graphs kind with
      | error e =>
        rw [hr] at h
        cases h
      | ok p =>
        rw [hr] at h
        have hp := hround kind s p.1 p.2 hs hr
        replace h : (if p.2 then p.1.run graphs fuel (nextKind kind) false
          else if quiet then .ok p.1 else p.1.run graphs fuel (nextKind kind) true) = .ok s' := h
        split at h
        · exact ih hp h
        · split at h
          · cases h
            exact hp
          · exact ih hp h

/-! ## The start -/

/-- The role of a signal of one of the graphs. -/
def roleOf (graphs : Array SideGraph) (i : Item) : SignalRole :=
  (graphs[i.side]?.bind (·.roles[i.index]?)).getD .internal

/-- All signals under one label. -/
def uniformSignals (graphs : Array SideGraph) : Labelling :=
  .constant (graphs.toList.map (·.roles.size)) (.initial 0)

/-- All norms under one label. -/
def uniformNorms (graphs : Array SideGraph) : Labelling :=
  .constant (graphs.toList.map (·.norms.size)) (.initial 0)

/-- The signals of each role, for the roles that occur. -/
def roleClasses (graphs : Array SideGraph) : List (SignalRole × List Item) :=
  ([.constant, .output, .input, .internal] : List SignalRole).filterMap fun role =>
    let members := (uniformSignals graphs).items.filter fun i => roleOf graphs i = role
    if members.isEmpty then none else some (role, members)

/-- The seed classes of signals with their labels, and the number of settled ones. -/
def signalSeeds (graphs : Array SideGraph) : List (ClassLabel × List Item) × Nat :=
  seedLabels graphs.size 0 0 ((roleClasses graphs).map (·.2))

/-- The seed classes of norms with their labels, and the number of settled classes. -/
def normSeeds (graphs : Array SideGraph) : List (ClassLabel × List Item) × Nat :=
  seedLabels graphs.size 0 (signalSeeds graphs).2
    (if (uniformNorms graphs).items.isEmpty then [] else [(uniformNorms graphs).items])

/-- The check that is made of seed classes. -/
def checkSeeds (kind : ItemKind) (n : Nat) (parts : List (ClassLabel × List Item)) :
    Except Difference Unit := parts.forM fun part => checkSizes kind part.1 0 (sizes n part.2)

/-- The state in which the seed classes are labelled. -/
def seeded (graphs : Array SideGraph) : RefinementState where
  norms := seedMode (uniformNorms graphs) (normSeeds graphs).1
  signals := seedMode (uniformSignals graphs) (signalSeeds graphs).1
  nSingular := (normSeeds graphs).2
  round := 0
  trace :=
    ((roleClasses graphs).map fun (role, items) => .signalSeed role (sizes graphs.size items)) ++
      (normSeeds graphs).1.map fun (_, items) => .normSeed (sizes graphs.size items)

/-- The start fails where a seed class has different sizes; otherwise it labels the seed classes. -/
theorem start_eq :
    start graphs =
      (checkSeeds .signal graphs.size (signalSeeds graphs).1 >>= fun _ =>
        checkSeeds .norm graphs.size (normSeeds graphs).1 >>= fun _ => .ok (seeded graphs)) := rfl

theorem start_eq_ok_iff {s : RefinementState} :
    start graphs = .ok s ↔
      checkSeeds .signal graphs.size (signalSeeds graphs).1 = .ok () ∧
        checkSeeds .norm graphs.size (normSeeds graphs).1 = .ok () ∧ seeded graphs = s := by
  rw [start_eq, bind_unit_eq_ok_iff, bind_unit_eq_ok_iff, Except.ok.injEq]

theorem mem_roleClasses {role : SignalRole} {items : List Item} :
    (role, items) ∈ roleClasses graphs ↔
      items = (uniformSignals graphs).items.filter (fun i => roleOf graphs i = role) ∧
        items ≠ [] := by
  have hall : role ∈ ([.constant, .output, .input, .internal] : List SignalRole) := by
    cases role <;> decide
  rw [roleClasses, List.mem_filterMap]
  constructor
  · rintro ⟨role', -, heq⟩
    dsimp only at heq
    split at heq
    · cases heq
    · rename_i hne
      obtain ⟨rfl, rfl⟩ := Prod.mk.inj (Option.some.inj heq)
      exact ⟨rfl, fun hnil => hne (List.isEmpty_iff.2 hnil)⟩
  · rintro ⟨rfl, hne⟩
    exact ⟨role, hall, if_neg fun hempty => hne (List.isEmpty_iff.1 hempty)⟩

end RefinementState

end CircuitEquiv
