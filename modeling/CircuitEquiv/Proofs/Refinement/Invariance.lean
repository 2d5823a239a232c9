-- SUMMARY: Refinement never tells apart circuits that are equivalent, and corresponding items get the same labels.
import CircuitEquiv.Proofs.Refinement.Groups
import CircuitEquiv.Proofs.Refinement.SideGraph

/-!
# Invariance of refinement

Two isomorphic graphs are refined in lockstep. Twins, that is items that correspond under the
isomorphism, carry the same label at the start, get the same key in every round while they do, and
so stay together whatever classes a round looks at. Every class has then the same number of members
on both sides and no round fails.
-/

namespace CircuitEquiv

/-! ## Twins -/

/-- A list of items that holds a left item exactly if it holds its twin on the right. -/
def IsTwinClosed (n : Nat) (τ : Nat → Nat) (items : List Item) : Prop :=
  ∀ k < n, (⟨1, τ k⟩ : Item) ∈ items ↔ (⟨0, k⟩ : Item) ∈ items

/-- A labelling of two sides in which twins carry the same label. -/
structure Labelling.Agrees (l : Labelling) (n m : Nat) (τ : Nat → Nat) : Prop where
  valid : ∀ i, l.Valid i ↔ (i.side = 0 ∧ i.index < n) ∨ (i.side = 1 ∧ i.index < m)
  label : ∀ k < n, l.label ⟨1, τ k⟩ = l.label ⟨0, k⟩

section Twins

variable {n m : Nat} {τ : Nat → Nat} {l : Labelling} {items : List Item}

/-- A class that is closed under twins has the same size on both sides. -/
theorem checkSizes_of_isTwinClosed (hτ : Set.BijOn τ (Set.Iio n) (Set.Iio m)) (hnodup : items.Nodup)
    (hvalid : ∀ i ∈ items, (i.side = 0 ∧ i.index < n) ∨ (i.side = 1 ∧ i.index < m))
    (h : IsTwinClosed n τ items) (kind : ItemKind) (label : ClassLabel) (round : Nat) :
    RefinementState.checkSizes kind label round (RefinementState.sizes 2 items) = .ok () := by
  have hleft : ∀ i ∈ items.filter (·.side = 0), i.side = 0 ∧ i.index < n := fun i hi => by
    obtain ⟨hmem, hside⟩ := List.mem_filter.1 hi
    have hside := of_decide_eq_true hside
    rcases hvalid i hmem with hi | hi
    · exact hi
    · rw [hside] at hi
      cases hi.1
  have himages : ((items.filter (·.side = 0)).map fun i : Item => (⟨1, τ i.index⟩ : Item)).Nodup := by
    refine List.Nodup.map_on (fun i hi j hj heq => ?_) (hnodup.filter _)
    obtain ⟨hi0, hin⟩ := hleft i hi
    obtain ⟨hj0, hjn⟩ := hleft j hj
    have hindex := hτ.injOn hin hjn (congrArg Item.index heq)
    cases i
    cases j
    simp_all
  have hperm : (items.filter (·.side = 1)).Perm
      ((items.filter (·.side = 0)).map fun i : Item => (⟨1, τ i.index⟩ : Item)) := by
    refine (List.perm_ext_iff_of_nodup (hnodup.filter _) himages).2 fun j => ?_
    rw [List.mem_map]
    constructor
    · intro hj
      obtain ⟨hmem, hside⟩ := List.mem_filter.1 hj
      have hside := of_decide_eq_true hside
      obtain ⟨side, index⟩ := j
      subst hside
      have hlt : index < m := by
        rcases hvalid _ hmem with hi | hi
        · cases hi.1
        · exact hi.2
      obtain ⟨k, hk, rfl⟩ := hτ.surjOn hlt
      exact ⟨⟨0, k⟩, List.mem_filter.2 ⟨(h k hk).1 hmem, rfl⟩, rfl⟩
    · rintro ⟨⟨side, index⟩, hi, rfl⟩
      obtain ⟨rfl, hlt⟩ := hleft _ hi
      exact List.mem_filter.2 ⟨(h index hlt).2 (List.mem_of_mem_filter hi), rfl⟩
  have hcount : items.countP (·.side = 0) = items.countP (·.side = 1) := by
    rw [List.countP_eq_length_filter, List.countP_eq_length_filter, hperm.length_eq,
      List.length_map]
  have hsizes : RefinementState.sizes 2 items =
      [items.countP (·.side = 0), items.countP (·.side = 1)] := rfl
  rw [hsizes, RefinementState.checkSizes, if_pos hcount]

theorem isTwinClosed_filter_items {p : Item → Bool} (hl : l.Agrees n m τ)
    (hτ : Set.BijOn τ (Set.Iio n) (Set.Iio m)) (hp : ∀ k < n, p ⟨1, τ k⟩ = p ⟨0, k⟩) :
    IsTwinClosed n τ (l.items.filter p) := by
  intro k hk
  have hright : l.Valid ⟨1, τ k⟩ := (hl.valid _).2 (Or.inr ⟨rfl, hτ.mapsTo hk⟩)
  have hleft : l.Valid ⟨0, k⟩ := (hl.valid _).2 (Or.inl ⟨rfl, hk⟩)
  rw [List.mem_filter, List.mem_filter, Labelling.mem_items, Labelling.mem_items, hp k hk]
  simp [hright, hleft]

theorem Labelling.agrees_constant {x : ClassLabel} (hτ : Set.MapsTo τ (Set.Iio n) (Set.Iio m)) :
    (Labelling.constant [n, m] x).Agrees n m τ := by
  refine ⟨fun _ => Labelling.valid_constant_pair, fun k hk => ?_⟩
  have hright : (Labelling.constant [n, m] x).Valid ⟨1, τ k⟩ :=
    Labelling.valid_constant_pair.2 (Or.inr ⟨rfl, hτ hk⟩)
  have hleft : (Labelling.constant [n, m] x).Valid ⟨0, k⟩ :=
    Labelling.valid_constant_pair.2 (Or.inl ⟨rfl, hk⟩)
  rw [Labelling.label_constant hright, Labelling.label_constant hleft]

/-- Relabelling lists that are closed under twins keeps twins together. -/
theorem Labelling.Agrees.relabel (hl : l.Agrees n m τ) {parts : List (ClassLabel × List Item)}
    (hvalid : ∀ part ∈ parts, ∀ i ∈ part.2, l.Valid i)
    (hclosed : ∀ part ∈ parts, IsTwinClosed n τ part.2) : (l.relabel parts).Agrees n m τ := by
  refine ⟨fun i => by rw [Labelling.valid_relabel, hl.valid], ?_⟩
  have hlabel := hl.label
  clear hl
  induction parts generalizing l with
  | nil => exact hlabel
  | cons part rest ih =>
    have hpart := hvalid part List.mem_cons_self
    rw [Labelling.relabel_cons]
    refine ih (fun q hq i hi => (Labelling.valid_foldl_set part.2).2
        (hvalid q (List.mem_cons_of_mem part hq) i hi))
      (fun q hq => hclosed q (List.mem_cons_of_mem part hq)) fun k hk => ?_
    rw [Labelling.label_foldl_set hpart, Labelling.label_foldl_set hpart, hlabel k hk]
    simp only [hclosed part List.mem_cons_self k hk]

end Twins

/-! ## Rounds -/

namespace RefinementState

variable {G H : SideGraph} {σ ν : Nat → Nat}

/-- A state in which twins carry the same labels. -/
structure Agrees (G H : SideGraph) (σ ν : Nat → Nat) (s : RefinementState) : Prop where
  signals : s.signals.labels.Agrees G.roles.size H.roles.size σ
  norms : s.norms.labels.Agrees G.norms.size H.norms.size ν

section Round

variable {κ : Type} [Ord κ] [Std.TransOrd κ] [Std.LawfulEqOrd κ] [DecidableEq κ]
  {n m : Nat} {τ : Nat → Nat} {mode : RefinementMode} {key : Item → κ}

/-- The groups of a round are closed under twins when twins have the same key. -/
theorem isTwinClosed_frontierGroups (hl : mode.labels.Agrees n m τ)
    (hτ : Set.BijOn τ (Set.Iio n) (Set.Iio m)) (hkey : ∀ k < n, key ⟨1, τ k⟩ = key ⟨0, k⟩)
    {g : Group κ Item} (hg : g ∈ frontierGroups mode key) : IsTwinClosed n τ g.2 := by
  rw [(mem_groupItems_iff.1 hg).2, List.filter_filter]
  refine isTwinClosed_filter_items hl hτ fun k hk => ?_
  rw [hl.label k hk, hkey k hk]

/-- No group of a round fails the check of sizes. -/
theorem checkGroups_frontierGroups (hl : mode.labels.Agrees n m τ)
    (hτ : Set.BijOn τ (Set.Iio n) (Set.Iio m)) (hkey : ∀ k < n, key ⟨1, τ k⟩ = key ⟨0, k⟩)
    (kind : ItemKind) (round : Nat) :
    checkGroups kind 2 round (frontierGroups mode key) = .ok () :=
  forM_eq_ok_iff.2 fun _ hg => checkSizes_of_isTwinClosed hτ (nodup_of_mem_frontierGroups hg)
    (fun i hi => (hl.valid i).1 (valid_of_mem_frontierGroups hg hi))
    (isTwinClosed_frontierGroups hl hτ hkey hg) kind _ round

/-- Relabelling the parts of a round keeps twins together. -/
theorem agrees_relabel_splitRound (hl : mode.labels.Agrees n m τ)
    (hτ : Set.BijOn τ (Set.Iio n) (Set.Iio m)) (hkey : ∀ k < n, key ⟨1, τ k⟩ = key ⟨0, k⟩)
    (s : RefinementState) :
    (mode.labels.relabel (s.splitRound 2 (frontierGroups mode key)).1).Agrees n m τ := by
  refine hl.relabel (fun part hpart i hi => ?_) fun part hpart => ?_
  · obtain ⟨g, hg, heq⟩ := mem_splitGroups hpart
    exact valid_of_mem_frontierGroups hg (heq ▸ hi)
  · obtain ⟨g, hg, heq⟩ := mem_splitGroups hpart
    exact heq ▸ isTwinClosed_frontierGroups hl hτ hkey hg

end Round

variable (h : G.IsIsomorphism H σ ν)

include h

section Step

variable {s : RefinementState} (hs : s.Agrees G H σ ν)

include hs

/-- Twin norms have the same key. -/
theorem normKey_twin {i : Nat} (hi : i < G.norms.size) :
    normKey #[G, H] s.signals.labels ⟨1, ν i⟩ = normKey #[G, H] s.signals.labels ⟨0, i⟩ :=
  h.shape (fun t => s.signals.labels.label ⟨0, t⟩) (fun t => s.signals.labels.label ⟨1, t⟩)
    hs.signals.label i hi

/-- Twin signals have the same key. -/
theorem signalKey_twin {t : Signal} (ht : t < G.roles.size) :
    signalKey #[G, H] s.norms.labels s.signals.labels ⟨1, σ t⟩ =
      signalKey #[G, H] s.norms.labels s.signals.labels ⟨0, t⟩ := by
  have hperm : (normsOf #[G, H] ⟨1, σ t⟩).Perm
      ((normsOf #[G, H] ⟨0, t⟩).map fun i => ⟨1, ν i.index⟩) := by
    refine ((h.signalNorms t ht).map _).trans (List.Perm.of_eq ?_)
    simp [normsOf, Function.comp_def]
  unfold signalKey
  apply ascending_eq_of_perm
  refine (hperm.map _).trans (List.Perm.of_eq ?_)
  rw [List.map_map]
  refine List.map_congr_left fun i hi => ?_
  obtain ⟨k, hk, rfl⟩ := List.mem_map.1 hi
  have hlt := h.lt_of_mem_signalNorms t ht k hk
  exact congrArg₂ Prod.mk (hs.norms.label k hlt)
    (h.characteristic (fun t => s.signals.labels.label ⟨0, t⟩)
      (fun t => s.signals.labels.label ⟨1, t⟩) hs.signals.label k hlt t ht)

/-- A norm round keeps twins together. -/
theorem normRound_agrees :
    ∃ s' split, s.normRound #[G, H] = .ok (s', split) ∧ s'.Agrees G H σ ν := by
  have hkey := fun i hi => normKey_twin h hs (i := i) hi
  have hcheck := checkGroups_frontierGroups hs.norms h.norms hkey .norm (s.round + 1)
  refine ⟨_, _, (normRound_eq_ok_iff _ s).2 ⟨hcheck, rfl, rfl⟩, ?_, ?_⟩
  · rw [signal_labels_afterNorms]
    exact hs.signals
  · rw [norm_labels_afterNorms]
    exact agrees_relabel_splitRound hs.norms h.norms hkey s

/-- A signal round keeps twins together. -/
theorem signalRound_agrees :
    ∃ s' split, s.signalRound #[G, H] = .ok (s', split) ∧ s'.Agrees G H σ ν := by
  have hkey := fun t ht => signalKey_twin h hs (t := t) ht
  have hcheck := checkGroups_frontierGroups hs.signals h.signals hkey .signal (s.round + 1)
  refine ⟨_, _, (signalRound_eq_ok_iff _ s).2 ⟨hcheck, rfl, rfl⟩, ?_, ?_⟩
  · rw [signal_labels_afterSignals]
    exact agrees_relabel_splitRound hs.signals h.signals hkey s
  · rw [norm_labels_afterSignals]
    exact hs.norms

end Step

/-- A run keeps twins together, however long it is. -/
theorem run_agrees (fuel : Nat) (kind : ItemKind) (quiet : Bool) {s : RefinementState}
    (hs : s.Agrees G H σ ν) :
    ∃ s', s.run #[G, H] fuel kind quiet = .ok s' ∧ s'.Agrees G H σ ν := by
  induction fuel generalizing kind quiet s with
  | zero => exact ⟨s, rfl, hs⟩
  | succ fuel ih =>
    rw [run_succ]
    split
    · exact ⟨s, rfl, hs⟩
    · obtain ⟨s', split, heq, hs'⟩ : ∃ (s' : RefinementState) (split : Bool),
          s.roundOf #[G, H] kind = .ok (s', split) ∧ s'.Agrees G H σ ν := by
        cases kind with
        | norm => exact normRound_agrees h hs
        | signal => exact signalRound_agrees h hs
      rw [heq]
      cases split with
      | true => exact ih _ false hs'
      | false =>
        cases quiet with
        | true => exact ⟨s', rfl, hs'⟩
        | false => exact ih _ true hs'

/-! ## The start -/

theorem uniformSignals_agrees :
    (uniformSignals #[G, H]).Agrees G.roles.size H.roles.size σ :=
  Labelling.agrees_constant h.signals.mapsTo

theorem uniformNorms_agrees :
    (uniformNorms #[G, H]).Agrees G.norms.size H.norms.size ν :=
  Labelling.agrees_constant h.norms.mapsTo

/-- Twins have the same role. -/
theorem roleOf_twin {s : Signal} (hs : s < G.roles.size) :
    roleOf #[G, H] ⟨1, σ s⟩ = roleOf #[G, H] ⟨0, s⟩ :=
  congrArg (Option.getD · SignalRole.internal) (h.roles s hs)

/-- The signals start with twins together. -/
theorem signalSeeds_agrees :
    checkSeeds .signal 2 (signalSeeds #[G, H]).1 = .ok () ∧
      ((uniformSignals #[G, H]).relabel (signalSeeds #[G, H]).1).Agrees
        G.roles.size H.roles.size σ := by
  have hl := uniformSignals_agrees h
  have hpart : ∀ part ∈ (signalSeeds #[G, H]).1, part.2.Nodup ∧
      (∀ i ∈ part.2, (uniformSignals #[G, H]).Valid i) ∧
      IsTwinClosed G.roles.size σ part.2 := by
    intro part hpart
    obtain ⟨⟨role, items⟩, hmem, heq⟩ := List.mem_map.1 (mem_seedLabels hpart)
    obtain ⟨rfl, -⟩ := (mem_roleClasses _).1 hmem
    rw [← heq]
    refine ⟨(Labelling.nodup_items _).filter _, fun i hi => ?_, ?_⟩
    · exact Labelling.mem_items.1 (List.mem_of_mem_filter hi)
    · exact isTwinClosed_filter_items hl h.signals fun k hk => by rw [roleOf_twin h hk]
  refine ⟨forM_eq_ok_iff.2 fun part hp => ?_, ?_⟩
  · obtain ⟨hnodup, hvalid, hclosed⟩ := hpart part hp
    exact checkSizes_of_isTwinClosed h.signals hnodup (fun i hi => (hl.valid i).1 (hvalid i hi))
      hclosed .signal _ 0
  · exact hl.relabel (fun part hp => (hpart part hp).2.1) fun part hp => (hpart part hp).2.2

/-- The norms start with twins together. -/
theorem normSeeds_agrees :
    checkSeeds .norm 2 (normSeeds #[G, H]).1 = .ok () ∧
      ((uniformNorms #[G, H]).relabel (normSeeds #[G, H]).1).Agrees G.norms.size H.norms.size ν := by
  have hl := uniformNorms_agrees h
  have hpart : ∀ part ∈ (normSeeds #[G, H]).1, part.2 = (uniformNorms #[G, H]).items := by
    intro part hpart
    have hmem := mem_seedLabels hpart
    split at hmem
    · cases hmem
    · exact List.mem_singleton.1 hmem
  have hclosed : IsTwinClosed G.norms.size ν (uniformNorms #[G, H]).items := by
    have hfilter := isTwinClosed_filter_items hl h.norms (p := fun _ => true) fun _ _ => rfl
    rwa [List.filter_true] at hfilter
  refine ⟨forM_eq_ok_iff.2 fun part hp => ?_, ?_⟩
  · rw [hpart part hp]
    exact checkSizes_of_isTwinClosed h.norms (Labelling.nodup_items _)
      (fun i hi => (hl.valid i).1 (Labelling.mem_items.1 hi)) hclosed .norm _ 0
  · refine hl.relabel (fun part hp i hi => ?_) fun part hp => ?_
    · rw [hpart part hp] at hi
      exact Labelling.mem_items.1 hi
    · rw [hpart part hp]
      exact hclosed

/-- The start keeps twins together. -/
theorem start_agrees : ∃ s, start #[G, H] = .ok s ∧ s.Agrees G H σ ν := by
  obtain ⟨hcheck, hagree⟩ := signalSeeds_agrees h
  obtain ⟨hcheck', hagree'⟩ := normSeeds_agrees h
  exact ⟨_, (start_eq_ok_iff _).2 ⟨hcheck, hcheck', rfl⟩, hagree, hagree'⟩

end RefinementState

/-! ## Refinements of equivalent circuits -/

namespace Refinement

/-- Isomorphic graphs are refined without a difference, and twins end with the same label. -/
theorem ofGraphs_agrees {G H : SideGraph} {σ ν : Nat → Nat} (h : G.IsIsomorphism H σ ν) :
    ∃ r, ofGraphs #[G, H] = .ok r ∧ r.signalLabels.Agrees G.roles.size H.roles.size σ ∧
      r.normLabels.Agrees G.norms.size H.norms.size ν := by
  obtain ⟨s, hstart, hs⟩ := RefinementState.start_agrees h
  obtain ⟨s', hrun, hs'⟩ := RefinementState.run_agrees h (roundBound #[G, H]) .norm false hs
  refine ⟨⟨s'.norms.labels, s'.signals.labels, s'.round, s'.trace⟩, ?_, hs'.signals, hs'.norms⟩
  unfold ofGraphs
  rw [hstart]
  show (RefinementState.run _ _ _ _ _ >>= _) = _
  rw [hrun]
  rfl

end Refinement

/-- The indices of the norms of one constraint. -/
def Circuit.normIndices (circuit : Circuit) (k : Nat) : Set Nat :=
  {i | ∃ n, circuit.normalize[i]? = some n ∧ n.origin = k}

namespace FullEquivalence

variable {left right : Circuit} {σ : Signal → Signal} {κ ν : Nat → Nat}

/-- A bijection of norms that follows a full equivalence matches the norms of each constraint with
those of its image. -/
theorem bijOn_normIndices (h : FullEquivalence left right σ κ)
    (hν : Set.BijOn ν (Set.Iio left.normalize.size) (Set.Iio right.normalize.size))
    (himage : ∀ i n, left.normalize[i]? = some n →
      right.normalize[ν i]? = some (imageNorm left σ κ n)) {k : Nat} (hk : k < left.nConstraints) :
    Set.BijOn ν (left.normIndices k) (right.normIndices (κ k)) := by
  have hlt : ∀ i ∈ left.normIndices k, i < left.normalize.size := fun i ⟨n, hn, _⟩ =>
    (Array.getElem?_eq_some_iff.1 hn).1
  refine ⟨?_, fun i hi j hj heq => hν.injOn (hlt i hi) (hlt j hj) heq, ?_⟩
  · rintro i ⟨n, hn, rfl⟩
    exact ⟨_, himage i n hn, rfl⟩
  · rintro j ⟨m, hm, horigin⟩
    obtain ⟨i, hi, rfl⟩ := hν.surjOn (Array.getElem?_eq_some_iff.1 hm).1
    have hn := Array.getElem?_eq_getElem hi
    rw [himage i _ hn] at hm
    cases hm
    exact ⟨i, ⟨_, hn, h.constraints.injOn (Circuit.origin_lt hn) hk horigin⟩, rfl⟩

/-- Refinement finds no difference between equivalent circuits. -/
theorem exists_pair_eq_ok (h : FullEquivalence left right σ κ) (hl : left.IsProper)
    (hr : right.IsReduced) :
    ∃ r, Refinement.pair left left.normalize right right.normalize = .ok r := by
  have : Fact left.field.modulus.Prime := ⟨hl.prime⟩
  obtain ⟨ν, hν, himage⟩ := h.exists_normBijection hl.reduced hr
  obtain ⟨r, hpair, -, -⟩ := Refinement.ofGraphs_agrees (h.isIsomorphism hl.reduced hν himage)
  exact ⟨r, hpair⟩

/-- Refinement never separates equivalent circuits. It finds no difference between them, every left
signal ends with the label of its image, and the norms of every left constraint can be matched with
those of its image so that labels agree. -/
theorem refinement_agrees (h : FullEquivalence left right σ κ) (hl : left.IsProper)
    (hr : right.IsReduced) :
    ∃ r, Refinement.pair left left.normalize right right.normalize = .ok r ∧
      (∀ s < left.nSignals, r.signalLabels.label ⟨1, σ s⟩ = r.signalLabels.label ⟨0, s⟩) ∧
      ∀ k < left.nConstraints, ∃ ν : Nat → Nat,
        Set.BijOn ν (left.normIndices k) (right.normIndices (κ k)) ∧
        ∀ i ∈ left.normIndices k, r.normLabels.label ⟨1, ν i⟩ = r.normLabels.label ⟨0, i⟩ := by
  have : Fact left.field.modulus.Prime := ⟨hl.prime⟩
  obtain ⟨ν, hν, himage⟩ := h.exists_normBijection hl.reduced hr
  obtain ⟨r, hpair, hsignals, hnorms⟩ :=
    Refinement.ofGraphs_agrees (h.isIsomorphism hl.reduced hν himage)
  refine ⟨r, hpair, fun s hs => ?_, fun k hk => ⟨ν, h.bijOn_normIndices hν himage hk, ?_⟩⟩
  · refine hsignals.label s ?_
    rwa [SideGraph.size_roles_ofCircuit]
  · rintro i ⟨n, hn, -⟩
    refine hnorms.label i ?_
    rw [SideGraph.size_norms_ofCircuit]
    exact (Array.getElem?_eq_some_iff.1 hn).1

theorem refinement_agrees_sample :
    FullEquivalence Circuit.Sample.left Circuit.Sample.right Circuit.Sample.signalMap id ∧
      Circuit.Sample.left.IsProper ∧ Circuit.Sample.right.IsReduced ∧
      ∃ r, Refinement.pair Circuit.Sample.left Circuit.Sample.left.normalize
          Circuit.Sample.right Circuit.Sample.right.normalize = .ok r ∧
        r.signalLabels.label ⟨1, 3⟩ = r.signalLabels.label ⟨0, 1⟩ := by
  have h := Circuit.Sample.fullEquivalence
  obtain ⟨r, hpair, hsignals, -⟩ :=
    refinement_agrees h Circuit.Sample.isProper_left Circuit.Sample.isProper_right.reduced
  exact ⟨h, Circuit.Sample.isProper_left, Circuit.Sample.isProper_right.reduced, r, hpair,
    hsignals 1 (by decide)⟩

end FullEquivalence

end CircuitEquiv
