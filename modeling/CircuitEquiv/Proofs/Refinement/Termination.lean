-- SUMMARY: A refinement ends by itself: the bound on its rounds is never reached.
import CircuitEquiv.Proofs.Refinement.Balance
import Mathlib.Data.Finset.Card

/-!
# The end of a refinement

A round that splits a class brings more labels into use, and there are never more labels in use than
items. At most one round in succession splits nothing without ending the run, so the run ends by
itself within the bound that it is given, either with nothing left to look at or after a quiet round
of each kind.
-/

namespace CircuitEquiv

/-! ## Labels in use -/

/-- If one labelling of a list refines another one and tells two of its members apart that the other
does not, then it has more labels. -/
theorem card_toFinset_map_lt {α β : Type} [DecidableEq β] {items : List α} {f g : α → β}
    (hrefines : ∀ i ∈ items, ∀ j ∈ items, g i = g j → f i = f j)
    (hsplit : ∃ i ∈ items, ∃ j ∈ items, f i = f j ∧ g i ≠ g j) :
    (items.map f).toFinset.card < (items.map g).toFinset.card := by
  let pairs : Finset (β × β) := (items.map fun i => (g i, f i)).toFinset
  have hmem : ∀ p, p ∈ pairs ↔ ∃ i ∈ items, (g i, f i) = p := fun p => by
    simp only [pairs, List.mem_toFinset, List.mem_map]
  have himage : ∀ q : β × β → β, pairs.image q = (items.map fun i => q (g i, f i)).toFinset := by
    intro q
    ext x
    simp [pairs]
  have hfst : pairs.image Prod.fst = (items.map g).toFinset := himage Prod.fst
  have hsnd : pairs.image Prod.snd = (items.map f).toFinset := himage Prod.snd
  have hinj : Set.InjOn Prod.fst (pairs : Set (β × β)) := by
    intro p hp q hq heq
    obtain ⟨i, hi, rfl⟩ := (hmem p).1 hp
    obtain ⟨j, hj, rfl⟩ := (hmem q).1 hq
    exact Prod.ext heq (hrefines i hi j hj heq)
  rw [← hfst, ← hsnd, Finset.card_image_of_injOn hinj]
  refine lt_of_le_of_ne Finset.card_image_le fun hcard => ?_
  obtain ⟨i, hi, j, hj, hsame, hdiffer⟩ := hsplit
  have hsndInj := Finset.card_image_iff.1 hcard
  exact hdiffer (congrArg Prod.fst
    (hsndInj ((hmem _).2 ⟨i, hi, rfl⟩) ((hmem _).2 ⟨j, hj, rfl⟩) hsame))

namespace Labelling

variable {l : Labelling} {x : ClassLabel}

/-- The labels that some item carries. -/
def inUse (l : Labelling) : Finset ClassLabel := (l.items.map l.label).toFinset

theorem mem_inUse : x ∈ l.inUse ↔ ∃ i, l.Valid i ∧ l.label i = x := by
  simp only [inUse, List.mem_toFinset, List.mem_map, mem_items]

theorem card_inUse_le (l : Labelling) : l.inUse.card ≤ l.items.length :=
  (List.toFinset_card_le _).trans_eq (List.length_map _)

theorem items_perm {l l' : Labelling} (h : ∀ i, l.Valid i ↔ l'.Valid i) : l.items.Perm l'.items :=
  (List.perm_ext_iff_of_nodup (nodup_items l) (nodup_items l')).2 fun i => by
    rw [mem_items, mem_items, h]

theorem length_items (l : Labelling) : l.items.length = total (l.toList.map Array.size) := by
  have hitems : ∀ (n : Nat) (sides : List (Array ClassLabel)),
      ((sides.zipIdx n).flatMap fun e =>
        (List.range e.1.size).map fun i => (⟨e.2, i⟩ : Item)).length =
      total (sides.map Array.size) := by
    intro n sides
    induction sides generalizing n with
    | nil => rfl
    | cons side rest ih => simp [ih, total]
  exact hitems 0 l.toList

theorem length_items_constant (sizes : List Nat) (x : ClassLabel) :
    (constant sizes x).items.length = total sizes := by
  rw [length_items]
  simp [constant, Function.comp_def]

end Labelling

namespace RefinementState

section Round

variable {κ : Type} [Ord κ] [Std.TransOrd κ] [Std.LawfulEqOrd κ] [DecidableEq κ]
  {mode : RefinementMode} {key : Item → κ} {s : RefinementState} {n : Nat}

omit [Ord κ] [Std.TransOrd κ] [Std.LawfulEqOrd κ] [DecidableEq κ] in
/-- A group that is a part has another group of its class beside it. -/
theorem exists_sibling {groups : List (Group κ Item)} (hnodup : (groups.map (·.1)).Nodup)
    {g : Group κ Item} (hg : g ∈ splitParts groups) :
    ∃ h ∈ splitParts groups, h.1 ≠ g.1 ∧ h.1.1 = g.1.1 := by
  obtain ⟨hmem, hcount⟩ := List.mem_filter.1 hg
  replace hcount := of_decide_eq_true hcount
  rw [List.countP_eq_length_filter] at hcount
  by_contra hnone
  have hsame : ∀ h ∈ groups.filter (fun h => h.1.1 = g.1.1), h.1 = g.1 := by
    intro h hh
    obtain ⟨hh, hlabel⟩ := List.mem_filter.1 hh
    by_contra hne
    refine hnone ⟨h, List.mem_filter.2 ⟨hh, ?_⟩, hne, of_decide_eq_true hlabel⟩
    rw [of_decide_eq_true hlabel]
    exact (List.mem_filter.1 hg).2
  -- keys are not repeated, so the groups of the class are `g` alone
  have hkeys : ((groups.filter fun h => h.1.1 = g.1.1).map (·.1)).Nodup :=
    hnodup.sublist (List.filter_sublist.map _)
  have hall : ∀ k ∈ (groups.filter fun h => h.1.1 = g.1.1).map (·.1), k = g.1 := by
    intro k hk
    obtain ⟨h, hh, rfl⟩ := List.mem_map.1 hk
    exact hsame h hh
  have hlength := hkeys.length_le_of_subset fun k hk => List.mem_singleton.2 (hall k hk)
  rw [List.length_map, List.length_singleton] at hlength
  exact absurd hlength (Nat.not_le_of_lt hcount)

/-- A round that splits a class brings more labels into use. -/
theorem card_inUse_lt
    (hissued : ∀ i, mode.labels.Valid i → HasBeenIssued s.round s.nSingular (mode.labels.label i))
    (hsplit : (s.splitRound n (frontierGroups mode key)).1 ≠ []) :
    mode.labels.inUse.card <
      (mode.labels.relabel (s.splitRound n (frontierGroups mode key)).1).inUse.card := by
  have hvalid := @isSplit_splitRound _ _ _ _ _ _ key _ n hissued
  have hitems : (mode.labels.relabel (s.splitRound n (frontierGroups mode key)).1).inUse =
      (mode.labels.items.map
        (mode.labels.relabel (s.splitRound n (frontierGroups mode key)).1).label).toFinset := by
    ext x
    simp only [Labelling.mem_inUse, Labelling.valid_relabel, List.mem_toFinset, List.mem_map,
      Labelling.mem_items]
  rw [hitems]
  refine card_toFinset_map_lt (fun i hi j hj heq => label_eq_of_label_relabel_eq hissued
    (Labelling.mem_items.1 hi) (Labelling.mem_items.1 hj) heq) ?_
  obtain ⟨p, hp⟩ := List.exists_mem_of_ne_nil _ hsplit
  obtain ⟨g, hg, hgp⟩ := exists_splitRound_iff.1 ⟨p, hp, rfl⟩
  obtain ⟨h, hh, hne, hlabel⟩ := exists_sibling (nodup_groupItems _ _ _) hg
  obtain ⟨q, hq, hhq⟩ := exists_splitRound_iff.2 ⟨h, hh, rfl⟩
  have hgroup := (List.mem_filter.1 hg).1
  have hsibling := (List.mem_filter.1 hh).1
  obtain ⟨i, hi⟩ : ∃ i, i ∈ g.2 := by
    obtain ⟨⟨i, hi, hkey⟩, hmembers⟩ := mem_groupItems_iff.1 hgroup
    exact ⟨i, hmembers ▸ List.mem_filter.2 ⟨hi, decide_eq_true hkey⟩⟩
  obtain ⟨j, hj⟩ : ∃ j, j ∈ h.2 := by
    obtain ⟨⟨j, hj, hkey⟩, hmembers⟩ := mem_groupItems_iff.1 hsibling
    exact ⟨j, hmembers ▸ List.mem_filter.2 ⟨hj, decide_eq_true hkey⟩⟩
  have hi' := (mem_of_mem_group hgroup).1 hi
  have hj' := (mem_of_mem_group hsibling).1 hj
  refine ⟨i, List.mem_of_mem_filter hi'.1, j, List.mem_of_mem_filter hj'.1, ?_, ?_⟩
  · rw [hi'.2.1, hj'.2.1, hlabel]
  · rw [Labelling.label_relabel_of_mem hvalid.valid hvalid.disjoint hp (hgp ▸ hi),
      Labelling.label_relabel_of_mem hvalid.valid hvalid.disjoint hq (hhq ▸ hj)]
    intro heq
    have hsame : p = q := List.inj_on_of_nodup_map hvalid.labels hp hq heq
    have hjg : j ∈ g.2 := by rw [hgp, hsame, hhq]; exact hj
    have hjkey := ((mem_of_mem_group hgroup).1 hjg).2
    exact hne (Prod.ext (hj'.2.1.symm.trans hjkey.1) (hj'.2.2.symm.trans hjkey.2))

end Round

/-! ## Rounds left -/

variable {graphs : Array SideGraph} {s t s' : RefinementState} {kind : ItemKind} {quiet split : Bool}

/-- The number of items of both kinds. -/
def nItems (graphs : Array SideGraph) : Nat :=
  (uniformNorms graphs).items.length + (uniformSignals graphs).items.length

/-- How many more labels could come into use. -/
def slack (graphs : Array SideGraph) (s : RefinementState) : Nat :=
  nItems graphs - (s.norms.labels.inUse.card + s.signals.labels.inUse.card)

theorem IsLabelled.card_inUse_norms_le (hs : s.IsLabelled graphs) :
    s.norms.labels.inUse.card ≤ (uniformNorms graphs).items.length := by
  rw [← (Labelling.items_perm hs.norms).length_eq]
  exact Labelling.card_inUse_le _

theorem IsLabelled.card_inUse_signals_le (hs : s.IsLabelled graphs) :
    s.signals.labels.inUse.card ≤ (uniformSignals graphs).items.length := by
  rw [← (Labelling.items_perm hs.signals).length_eq]
  exact Labelling.card_inUse_le _

theorem relabel_of_isEmpty {l : Labelling} {parts : List (ClassLabel × List Item)}
    (h : parts.isEmpty = true) : l.relabel parts = l := by
  rw [List.isEmpty_iff.1 h]
  rfl

/-- A round that splits nothing leaves all labels as they are. -/
theorem roundOf_quiet (h : s.roundOf graphs kind = .ok (t, false)) :
    t.norms.labels = s.norms.labels ∧ t.signals.labels = s.signals.labels := by
  cases kind with
  | norm =>
    obtain ⟨-, rfl, hempty⟩ := (normRound_eq_ok_iff graphs s).1 h
    rw [norm_labels_afterNorms, signal_labels_afterNorms]
    exact ⟨relabel_of_isEmpty (by simpa using hempty), rfl⟩
  | signal =>
    obtain ⟨-, rfl, hempty⟩ := (signalRound_eq_ok_iff graphs s).1 h
    rw [norm_labels_afterSignals, signal_labels_afterSignals]
    exact ⟨rfl, relabel_of_isEmpty (by simpa using hempty)⟩

theorem slack_of_quiet (h : s.roundOf graphs kind = .ok (t, false)) :
    slack graphs t = slack graphs s := by
  obtain ⟨hnorms, hsignals⟩ := roundOf_quiet h
  rw [slack, slack, hnorms, hsignals]

/-- A round that splits leaves less slack. -/
theorem slack_lt_of_split (hs : s.IsLabelled graphs)
    (h : s.roundOf graphs kind = .ok (t, true)) : slack graphs t < slack graphs s := by
  have ht := roundOf_isLabelled kind s t true hs h
  have hnorms := ht.card_inUse_norms_le
  have hsignals := ht.card_inUse_signals_le
  suffices hcard : s.norms.labels.inUse.card + s.signals.labels.inUse.card <
      t.norms.labels.inUse.card + t.signals.labels.inUse.card by
    unfold slack nItems
    omega
  have hparts : ∀ {parts : List (ClassLabel × List Item)}, (!parts.isEmpty) = true → parts ≠ [] :=
    fun hne hnil => by simp [hnil] at hne
  cases kind with
  | norm =>
    obtain ⟨-, rfl, hne⟩ := (normRound_eq_ok_iff graphs s).1 h
    rw [norm_labels_afterNorms, signal_labels_afterNorms]
    exact Nat.add_lt_add_right (card_inUse_lt hs.issued_norms (hparts hne)) _
  | signal =>
    obtain ⟨-, rfl, hne⟩ := (signalRound_eq_ok_iff graphs s).1 h
    rw [norm_labels_afterSignals, signal_labels_afterSignals]
    exact Nat.add_lt_add_left (card_inUse_lt hs.issued_signals (hparts hne)) _

/-! ## Runs -/

/-- Whether no class is left to look at. -/
def isIdle (s : RefinementState) : Bool := s.norms.frontier.isEmpty && s.signals.frontier.isEmpty

/-- A run that is not cut short, from one state to another. -/
inductive Runs (graphs : Array SideGraph) :
    ItemKind → Bool → RefinementState → RefinementState → Prop
  /-- No class is left to look at. -/
  | idle {kind : ItemKind} {quiet : Bool} {s : RefinementState} (hidle : s.isIdle = true) :
      Runs graphs kind quiet s s
  /-- A round splits a class. -/
  | split {kind : ItemKind} {quiet : Bool} {s t s' : RefinementState} (hbusy : s.isIdle = false)
      (hround : s.roundOf graphs kind = .ok (t, true)) (hrest : Runs graphs (nextKind kind) false t s') :
      Runs graphs kind quiet s s'
  /-- A round splits nothing, after one that did. -/
  | calm {kind : ItemKind} {s t s' : RefinementState} (hbusy : s.isIdle = false)
      (hround : s.roundOf graphs kind = .ok (t, false)) (hrest : Runs graphs (nextKind kind) true t s') :
      Runs graphs kind false s s'
  /-- A second round in succession splits nothing. -/
  | still {kind : ItemKind} {s t : RefinementState} (hbusy : s.isIdle = false)
      (hround : s.roundOf graphs kind = .ok (t, false)) : Runs graphs kind true s t

/-- A bound on the number of rounds of a run. -/
def roundsLeft (graphs : Array SideGraph) (quiet : Bool) (s : RefinementState) : Nat :=
  2 * slack graphs s + if quiet then 1 else 2

theorem run_of_isIdle (hidle : s.isIdle = true) (fuel : Nat) :
    s.run graphs fuel kind quiet = .ok s := by
  cases fuel with
  | zero => rfl
  | succ fuel =>
    rw [run_succ]
    exact if_pos hidle

theorem run_of_roundOf (hbusy : s.isIdle = false) (hround : s.roundOf graphs kind = .ok (t, split))
    (fuel : Nat) :
    s.run graphs (fuel + 1) kind quiet =
      if split then t.run graphs fuel (nextKind kind) false
      else if quiet then .ok t
      else t.run graphs fuel (nextKind kind) true := by
  rw [run_succ, hround]
  exact if_neg (Bool.eq_false_iff.1 hbusy)

/-- A run reaches its end within the bound. -/
theorem Runs.run_eq (hs : s.IsLabelled graphs) (h : Runs graphs kind quiet s s') {fuel : Nat}
    (hfuel : roundsLeft graphs quiet s ≤ fuel) : s.run graphs fuel kind quiet = .ok s' := by
  induction h generalizing fuel with
  | idle hidle => exact run_of_isIdle hidle fuel
  | @split kind quiet s t s' hbusy hround _ ih =>
    have hslack := slack_lt_of_split hs hround
    obtain ⟨fuel, rfl⟩ : ∃ m, fuel = m + 1 := Nat.exists_eq_succ_of_ne_zero (by
      unfold roundsLeft at hfuel
      omega)
    rw [run_of_roundOf hbusy hround, if_pos rfl]
    apply ih (roundOf_isLabelled _ _ _ _ hs hround)
    unfold roundsLeft at hfuel ⊢
    cases quiet <;> simp only [if_true, Bool.false_eq_true, if_false] at hfuel ⊢ <;> omega
  | @calm kind s t s' hbusy hround _ ih =>
    have hslack := slack_of_quiet hround
    obtain ⟨fuel, rfl⟩ : ∃ m, fuel = m + 1 := Nat.exists_eq_succ_of_ne_zero (by
      unfold roundsLeft at hfuel
      simp only [Bool.false_eq_true, if_false] at hfuel
      omega)
    rw [run_of_roundOf hbusy hround]
    apply ih (roundOf_isLabelled _ _ _ _ hs hround)
    unfold roundsLeft at hfuel ⊢
    simp only [if_true, Bool.false_eq_true, if_false] at hfuel ⊢
    omega
  | @still kind s t hbusy hround =>
    obtain ⟨fuel, rfl⟩ : ∃ m, fuel = m + 1 := Nat.exists_eq_succ_of_ne_zero (by
      unfold roundsLeft at hfuel
      simp only [if_true] at hfuel
      omega)
    rw [run_of_roundOf hbusy hround]
    rfl

/-- What a run returns within the bound is where it ends by itself. -/
theorem runs_of_run_eq (hs : s.IsLabelled graphs) {fuel : Nat}
    (hfuel : roundsLeft graphs quiet s ≤ fuel) (h : s.run graphs fuel kind quiet = .ok s') :
    Runs graphs kind quiet s s' := by
  induction fuel generalizing kind quiet s with
  | zero =>
    unfold roundsLeft at hfuel
    split at hfuel <;> omega
  | succ fuel ih =>
    cases hidle : s.isIdle with
    | true =>
      rw [run_of_isIdle hidle] at h
      cases h
      exact .idle hidle
    | false =>
      cases hround : s.roundOf graphs kind with
      | error e =>
        have hbusy : ¬(s.norms.frontier.isEmpty && s.signals.frontier.isEmpty) = true :=
          Bool.eq_false_iff.1 hidle
        rw [run_succ, hround, if_neg hbusy] at h
        cases h
      | ok p =>
        obtain ⟨t, split⟩ := p
        have ht := roundOf_isLabelled _ _ _ _ hs hround
        rw [run_of_roundOf hidle hround] at h
        unfold roundsLeft at hfuel
        cases split with
        | true =>
          have hslack := slack_lt_of_split hs hround
          refine .split hidle hround (ih ht ?_ h)
          unfold roundsLeft
          cases quiet <;> simp only [if_true, Bool.false_eq_true, if_false] at hfuel ⊢ <;> omega
        | false =>
          have hslack := slack_of_quiet hround
          cases quiet with
          | true =>
            cases h
            exact .still hidle hround
          | false =>
            refine .calm hidle hround (ih ht ?_ h)
            unfold roundsLeft
            simp only [if_true, Bool.false_eq_true, if_false] at hfuel ⊢
            omega

/-! ## Where runs end -/

/-- The classes to look at in the next round of a kind. -/
def frontierOf (s : RefinementState) : ItemKind → SortedSet ClassLabel
  | .norm => s.norms.frontier
  | .signal => s.signals.frontier

theorem frontierOf_roundOf (h : s.roundOf graphs kind = .ok (t, split)) :
    t.frontierOf kind = SortedSet.empty := by
  cases kind with
  | norm =>
    obtain ⟨-, rfl, -⟩ := (normRound_eq_ok_iff graphs s).1 h
    rfl
  | signal =>
    obtain ⟨-, rfl, -⟩ := (signalRound_eq_ok_iff graphs s).1 h
    rfl

/-- A round that splits nothing adds no class to look at. -/
theorem frontierOf_nextKind_of_quiet (h : s.roundOf graphs kind = .ok (t, false)) :
    t.frontierOf (nextKind kind) = s.frontierOf (nextKind kind) := by
  cases kind with
  | norm =>
    obtain ⟨-, rfl, hempty⟩ := (normRound_eq_ok_iff graphs s).1 h
    have hparts : (s.splitRound graphs.size (s.normGroups graphs)).1 = [] := by simpa using hempty
    show s.signals.frontier.insertAll (openLabels _ (neighbours _ _)) = s.signals.frontier
    rw [hparts]
    rfl
  | signal =>
    obtain ⟨-, rfl, hempty⟩ := (signalRound_eq_ok_iff graphs s).1 h
    have hparts : (s.splitRound graphs.size (s.signalGroups graphs)).1 = [] := by
      simpa using hempty
    show s.norms.frontier.insertAll (openLabels _ (neighbours _ _)) = s.norms.frontier
    rw [hparts]
    rfl

theorem nextKind_nextKind (kind : ItemKind) : nextKind (nextKind kind) = kind := by
  cases kind <;> rfl

/-- At the end of a run no class of either kind is left to look at. -/
theorem Runs.frontierOf_eq_empty (h : Runs graphs kind quiet s s')
    (hquiet : quiet = true → s.frontierOf (nextKind kind) = SortedSet.empty) (other : ItemKind) :
    s'.frontierOf other = SortedSet.empty := by
  induction h with
  | @idle kind quiet s hidle =>
    obtain ⟨hnorms, hsignals⟩ := Bool.and_eq_true_iff.1 hidle
    have hempty : ∀ frontier : SortedSet ClassLabel, frontier.isEmpty = true →
        frontier = SortedSet.empty := fun frontier h =>
      SortedSet.ext fun x => by simp [SortedSet.mem_def, List.isEmpty_iff.1 h, SortedSet.empty]
    cases other with
    | norm => exact hempty _ hnorms
    | signal => exact hempty _ hsignals
  | split _ _ _ ih => exact ih fun h => by cases h
  | @calm kind s t s' _ hround _ ih =>
    refine ih fun _ => ?_
    rw [nextKind_nextKind]
    exact frontierOf_roundOf hround
  | @still kind s t _ hround =>
    have hown := frontierOf_roundOf hround
    have hother := (frontierOf_nextKind_of_quiet hround).trans (hquiet rfl)
    cases kind <;> cases other <;> assumption

/-- What every round preserves holds at the end of a run. -/
theorem Runs.invariant {P : RefinementState → Prop}
    (hround : ∀ kind s t split, P s → s.roundOf graphs kind = .ok (t, split) → P t)
    (h : Runs graphs kind quiet s s') (hs : P s) : P s' := by
  induction h with
  | idle => exact hs
  | split _ h _ ih => exact ih (hround _ _ _ _ hs h)
  | calm _ h _ ih => exact ih (hround _ _ _ _ hs h)
  | still _ h => exact hround _ _ _ _ hs h

end RefinementState

namespace Refinement

open RefinementState

variable {graphs : Array SideGraph} {r : Refinement}

theorem total_map_add {α : Type} (l : List α) (f g : α → Nat) :
    total (l.map fun a => f a + g a) = total (l.map f) + total (l.map g) := by
  induction l with
  | nil => rfl
  | cons a rest ih =>
    simp only [List.map_cons, total_cons, ih]
    omega

theorem roundBound_eq (graphs : Array SideGraph) : roundBound graphs = 2 * nItems graphs + 3 := by
  rw [roundBound, total_map_add, nItems, uniformNorms, uniformSignals,
    Labelling.length_items_constant, Labelling.length_items_constant]

theorem roundsLeft_seeded_le (graphs : Array SideGraph) :
    roundsLeft graphs false (seeded graphs) ≤ roundBound graphs := by
  rw [roundBound_eq, roundsLeft, slack]
  simp only [Bool.false_eq_true, if_false]
  omega

/-- A refinement succeeds where its seed classes pass their check and its run ends by itself. -/
theorem ofGraphs_eq_ok_iff :
    ofGraphs graphs = .ok r ↔
      checkSeeds .signal graphs.size (signalSeeds graphs).1 = .ok () ∧
        checkSeeds .norm graphs.size (normSeeds graphs).1 = .ok () ∧
        ∃ s, Runs graphs .norm false (seeded graphs) s ∧
          r = ⟨s.norms.labels, s.signals.labels, s.round, s.trace⟩ := by
  have hlabelled := seeded_isLabelled graphs
  have hfuel := roundsLeft_seeded_le graphs
  have hunfold : ofGraphs graphs = .ok r ↔ ∃ s, start graphs = .ok s ∧
      ∃ s', s.run graphs (roundBound graphs) .norm false = .ok s' ∧
        Except.ok ⟨s'.norms.labels, s'.signals.labels, s'.round, s'.trace⟩ =
          (Except.ok r : Except Difference Refinement) := by
    unfold ofGraphs
    rw [bind_eq_ok_iff]
    exact exists_congr fun s => and_congr_right fun _ => bind_eq_ok_iff
  rw [hunfold]
  constructor
  · rintro ⟨s, hstart, s', hrun, heq⟩
    obtain ⟨hsignals, hnorms, rfl⟩ := (start_eq_ok_iff graphs).1 hstart
    exact ⟨hsignals, hnorms, s', runs_of_run_eq hlabelled hfuel hrun, (Except.ok.inj heq).symm⟩
  · rintro ⟨hsignals, hnorms, s, hruns, rfl⟩
    exact ⟨_, (start_eq_ok_iff graphs).2 ⟨hsignals, hnorms, rfl⟩, s, hruns.run_eq hlabelled hfuel, rfl⟩

/-! ## Single circuits -/

theorem checkSizes_single (kind : ItemKind) (label : ClassLabel) (round : Nat) (items : List Item) :
    checkSizes kind label round (sizes 1 items) = .ok () := rfl

/-- A round on one side never finds a difference. -/
theorem exists_roundOf_eq_ok (hsize : graphs.size = 1) (kind : ItemKind) (s : RefinementState) :
    ∃ p, s.roundOf graphs kind = .ok p := by
  cases kind with
  | norm =>
    refine ⟨_, (normRound_eq_ok_iff graphs s).2 ⟨forM_eq_ok_iff.2 fun g _ => ?_, rfl, rfl⟩⟩
    rw [hsize]
    exact checkSizes_single ..
  | signal =>
    refine ⟨_, (signalRound_eq_ok_iff graphs s).2 ⟨forM_eq_ok_iff.2 fun g _ => ?_, rfl, rfl⟩⟩
    rw [hsize]
    exact checkSizes_single ..

theorem exists_run_eq_ok (hsize : graphs.size = 1) (fuel : Nat) (kind : ItemKind) (quiet : Bool)
    (s : RefinementState) : ∃ s', s.run graphs fuel kind quiet = .ok s' := by
  induction fuel generalizing kind quiet s with
  | zero => exact ⟨s, rfl⟩
  | succ fuel ih =>
    cases hidle : s.isIdle with
    | true => exact ⟨s, run_of_isIdle hidle _⟩
    | false =>
      obtain ⟨⟨t, split⟩, hround⟩ := exists_roundOf_eq_ok hsize kind s
      rw [run_of_roundOf hidle hround]
      cases split with
      | true => exact ih _ _ _
      | false =>
        cases quiet with
        | true => exact ⟨t, rfl⟩
        | false => exact ih _ _ _

theorem exists_ofGraphs_eq_ok (hsize : graphs.size = 1) : ∃ r, ofGraphs graphs = .ok r := by
  have hseeds : ∀ kind parts, checkSeeds kind graphs.size parts = .ok () := fun kind parts =>
    forM_eq_ok_iff.2 fun part _ => by
      rw [hsize]
      exact checkSizes_single ..
  obtain ⟨s, hs⟩ := exists_run_eq_ok hsize (roundBound graphs) .norm false (seeded graphs)
  exact ⟨_, ofGraphs_eq_ok_iff.2 ⟨hseeds _ _, hseeds _ _, s,
    runs_of_run_eq (seeded_isLabelled graphs) (roundsLeft_seeded_le graphs) hs, rfl⟩⟩

/-- A single circuit is always refined. -/
theorem ofGraphs_single (circuit : Circuit) (norms : Array Norm) :
    ofGraphs #[.ofCircuit circuit norms] = .ok (single circuit norms) := by
  obtain ⟨r, hr⟩ := @exists_ofGraphs_eq_ok #[.ofCircuit circuit norms] rfl
  rw [single, hr]

end Refinement

end CircuitEquiv
