-- SUMMARY: Encoding the signals and finishing a formula: its models are matchings of signals and norms.
import CircuitEquiv.Proofs.Equivalence.Rounds

/-!
# Signals and the finished formula

The last step lets every signal have exactly one of its live partners. A model of the finished formula
is then a matching of signals and norms, and the pairs of an equivalence are a model.
-/

namespace CircuitEquiv

namespace Encoder

variable {left right : Circuit} {res : Residual} {policy : Policy} {threshold : Nat}
  {encoded : List ClassMembers} {e e' e'' : Encoder} {ps : List PairVariable}
  {groups : List (List PairVariable)} {Q T : PairVariable → Prop} {v : Nat → Bool}

/-! ## Growing encoders -/

/-- An encoder has more to obey than another one and mentions further pairs only from `Q`. -/
structure Extends (Q : PairVariable → Prop) (e e' : Encoder) : Prop where
  draft : Draft.Grows Q e.draft e'.draft
  candidates : e'.candidates = e.candidates
  assumptions : ∀ a ∈ e.assumptions, a ∈ e'.assumptions
  wellFormed : e.WellFormed → e'.WellFormed

theorem Extends.refl (Q : PairVariable → Prop) (e : Encoder) : Extends Q e e :=
  ⟨.refl Q e.draft, rfl, fun _ h => h, id⟩

theorem Extends.trans (h : Extends Q e e') (h' : Extends Q e' e'') : Extends Q e e'' :=
  ⟨h.draft.trans h'.draft, h'.candidates.trans h.candidates,
    fun a ha => h'.assumptions a (h.assumptions a ha), h'.wellFormed ∘ h.wellFormed⟩

theorem Extends.satisfied (h : Extends Q e e') (hv : e'.Satisfied v) : e.Satisfied v :=
  ⟨h.draft.holds v hv.holds, fun a ha => hv.assumptions a (h.assumptions a ha)⟩

/-! ## Encoding one signal -/

/-- The encoder after one group of pairs, of which exactly one is to hold. -/
theorem addSignal_eq (e : Encoder) (ps : List PairVariable) :
    addSignal policy threshold e ps =
      match ps with
      | [p] => ⟨e.candidates, (e.draft.literals ps).2,
          e.assumptions ++ [(e.draft.literals ps).2.literalOf p]⟩
      | _ => ⟨e.candidates, (e.draft.literals ps).2.addExactlyOne (policy.atMostOne threshold ps.length)
          (ps.map (e.draft.literals ps).2.literalOf), e.assumptions⟩ := by
  unfold addSignal
  simp only [Draft.literals_fst]
  match ps with
  | [] => rfl
  | [p] => rfl
  | p :: q :: rest => simp [addExactlyOne]

theorem var_lt_of_mem_literals {l : Literal}
    (hl : l ∈ ps.map (e.draft.literals ps).2.literalOf) :
    l.var < (e.draft.literals ps).2.vars.nextId := by
  obtain ⟨p, hp, rfl⟩ := List.mem_map.1 hl
  exact Draft.var_literalOf_lt (Draft.binds_literals hp)

theorem grows_addSignal_literals :
    Draft.Grows (fun _ => False) (e.draft.literals ps).2 (addSignal policy threshold e ps).draft := by
  rw [addSignal_eq]
  split
  · exact .refl _ _
  · exact Draft.grows_addExactlyOne _ fun l hl => var_lt_of_mem_literals hl

theorem extends_addSignal (hQ : ∀ p ∈ ps, Q p) : Extends Q e (addSignal policy threshold e ps) where
  draft := ((Draft.grows_literals e.draft ps).mono hQ).trans
    (grows_addSignal_literals.mono fun _ h => h.elim)
  candidates := by
    rw [addSignal_eq]
    split <;> rfl
  assumptions := fun a ha => by
    rw [addSignal_eq]
    split
    · exact List.mem_append_left _ ha
    · exact ha
  wellFormed := fun h => by
    refine ⟨grows_addSignal_literals.wellFormed ((Draft.grows_literals _ _).wellFormed h.wellFormed),
      fun a ha => grows_addSignal_literals.lt_nextId ?_⟩
    rw [addSignal_eq] at ha
    split at ha
    · rename_i p
      rcases List.mem_append.1 ha with ha | ha
      · exact (Draft.grows_literals _ _).lt_nextId (h.assumptions a ha)
      · obtain rfl := List.mem_singleton.1 ha
        exact Draft.var_literalOf_lt (Draft.binds_literals (List.mem_singleton_self p))
    · exact (Draft.grows_literals _ _).lt_nextId (h.assumptions a ha)

theorem isUnique_of_addSignal (h : (addSignal policy threshold e ps).Satisfied v) :
    Draft.IsUnique ((addSignal policy threshold e ps).draft.Selects v) ps := by
  have hbinds : ∀ p ∈ ps, (e.draft.literals ps).2.Binds p := fun p hp => Draft.binds_literals hp
  refine grows_addSignal_literals.isUnique hbinds ?_
  obtain ⟨hholds, hassumptions⟩ := h
  rw [addSignal_eq] at hholds hassumptions
  split at hholds
  · rename_i p
    have hselects := (Draft.holds_literalOf (hbinds p (List.mem_singleton_self p))).1
      (hassumptions _ (List.mem_append_right _ (List.mem_singleton_self _)))
    exact ⟨⟨p, List.mem_singleton_self p, hselects⟩, fun q hq r hr _ _ =>
      (List.mem_singleton.1 hq).trans (List.mem_singleton.1 hr).symm⟩
  · obtain ⟨hsome, hone⟩ := Draft.exactlyOne_of_holds hholds
    exact Draft.isUnique_of_exactlyOne hbinds hsome hone

theorem isModelled_addSignal (h : e.WellFormed) (hmodelled : e.IsModelled T) (hnodup : ps.Nodup)
    (hT : Draft.IsUnique T ps) : (addSignal policy threshold e ps).IsModelled T := by
  obtain ⟨v, hv, hassumptions⟩ := hmodelled
  obtain ⟨w, hw, hmodels⟩ := Draft.extensible_literals h.wellFormed hv ps
  have hbinds : ∀ p ∈ ps, (e.draft.literals ps).2.Binds p := fun p hp => Draft.binds_literals hp
  have hbefore : ∀ a ∈ e.assumptions, a.holds w = true := fun a ha => by
    rw [Literal.holds_of_agreesBelow hw (h.assumptions a ha)]
    exact hassumptions a ha
  rw [addSignal_eq]
  split
  · rename_i p
    refine ⟨w, hmodels, fun a ha => ?_⟩
    rcases List.mem_append.1 ha with ha | ha
    · exact hbefore a ha
    · obtain rfl := List.mem_singleton.1 ha
      have hp := hbinds p (List.mem_singleton_self p)
      obtain ⟨⟨q, hq, hTq⟩, -⟩ := hT
      rw [Draft.holds_literalOf hp, hmodels.selects_iff hp]
      rwa [List.mem_singleton.1 hq] at hTq
  · obtain ⟨hsome, hone⟩ := Draft.exactlyOne_of_isUnique hmodels hbinds hnodup hT
    obtain ⟨u, hu, hmodels'⟩ := Draft.extensible_addExactlyOne
      ((Draft.grows_literals _ _).wellFormed h.wellFormed) hmodels
      (policy.atMostOne threshold ps.length) (fun l hl => var_lt_of_mem_literals hl) hsome hone
    refine ⟨u, hmodels', fun a ha => ?_⟩
    rw [Literal.holds_of_agreesBelow hu ((Draft.grows_literals _ _).lt_nextId (h.assumptions a ha))]
    exact hbefore a ha

/-! ## Encoding several signals -/

theorem extends_addGroups (hQ : ∀ ps ∈ groups, ∀ p ∈ ps, Q p) :
    Extends Q e (groups.foldl (addSignal policy threshold) e) := by
  refine foldl_invariant (fun e' ps hps hextends => ?_) (Extends.refl Q e)
  exact hextends.trans (extends_addSignal (hQ ps hps))

theorem isUnique_of_addGroups (h : (groups.foldl (addSignal policy threshold) e).Satisfied v) :
    ∀ ps ∈ groups,
      Draft.IsUnique ((groups.foldl (addSignal policy threshold) e).draft.Selects v) ps := by
  induction groups generalizing e with
  | nil => simp
  | cons first rest ih =>
    rw [List.foldl_cons] at h ⊢
    intro ps hps
    rcases List.mem_cons.1 hps with rfl | hps
    · have hextends : Extends (fun _ => True) (addSignal policy threshold e ps)
          (rest.foldl (addSignal policy threshold) (addSignal policy threshold e ps)) :=
        extends_addGroups fun _ _ _ _ => trivial
      refine hextends.draft.isUnique (fun p hp => ?_) (isUnique_of_addSignal (hextends.satisfied h))
      exact grows_addSignal_literals.binds_of_binds (Draft.binds_literals hp)
    · exact ih h ps hps

theorem isModelled_addGroups (h : e.WellFormed) (hmodelled : e.IsModelled T)
    (hT : ∀ ps ∈ groups, ps.Nodup ∧ Draft.IsUnique T ps) :
    (groups.foldl (addSignal policy threshold) e).IsModelled T := by
  have hinvariant : (groups.foldl (addSignal policy threshold) e).WellFormed ∧
      (groups.foldl (addSignal policy threshold) e).IsModelled T :=
    foldl_invariant (Q := fun e : Encoder => e.WellFormed ∧ e.IsModelled T)
      (fun e' ps hps he' => ⟨(extends_addSignal (Q := fun _ => True) fun _ _ => trivial).wellFormed he'.1,
        isModelled_addSignal he'.1 he'.2 (hT ps hps).1 (hT ps hps).2⟩) ⟨h, hmodelled⟩
  exact hinvariant.2

/-! ## Encoding all signals -/

/-- For every signal of either side, the pairs with its live partners. -/
def signalGroups (c : Candidates) : List (List PairVariable) :=
  [Side.left, .right].flatMap fun side => (c.signals side).map (signalPairs c side)

/-- The assumptions that pairs of removed candidates do not hold. -/
def ruledOut (e : Encoder) : List Literal :=
  e.candidates.removedPairs.filterMap fun pair =>
    (e.draft.vars.get? (.signal pair.1 pair.2)).map Literal.negative

/-- Lets every signal have exactly one of its live partners. -/
def addPartners (policy : Policy) (threshold : Nat) (e : Encoder) : Encoder :=
  (signalGroups e.candidates).foldl (addSignal policy threshold) e

theorem addSignals_eq (e : Encoder) :
    addSignals policy threshold e = ⟨(e.addPartners policy threshold).candidates,
      (e.addPartners policy threshold).draft,
      (e.addPartners policy threshold).assumptions ++ (e.addPartners policy threshold).ruledOut⟩ := rfl

theorem mem_signalGroups {c : Candidates} :
    ps ∈ signalGroups c ↔ ∃ side, ∃ s ∈ c.signals side, ps = signalPairs c side s := by
  simp only [signalGroups, List.mem_flatMap, List.mem_map, List.mem_cons, List.not_mem_nil, or_false]
  constructor
  · rintro ⟨side, -, s, hs, rfl⟩
    exact ⟨side, s, hs, rfl⟩
  · rintro ⟨side, s, hs, rfl⟩
    exact ⟨side, by cases side <;> simp, s, hs, rfl⟩

theorem mem_signalPairs_left {c : Candidates} {s : Signal} {p : PairVariable} :
    p ∈ signalPairs c .left s ↔ ∃ t, Candidates.stateOf c.left s t = some .live ∧ p = .signal s t := by
  simp only [signalPairs, List.mem_map, Candidates.mem_live, eq_comm]
  rfl

theorem mem_signalPairs_right {c : Candidates} {t : Signal} {p : PairVariable} :
    p ∈ signalPairs c .right t ↔
      ∃ s, Candidates.stateOf c.right t s = some .live ∧ p = .signal s t := by
  simp only [signalPairs, List.mem_map, Candidates.mem_live, eq_comm]
  rfl

theorem nodup_signalPairs (c : Candidates) (side : Side) (s : Signal) :
    (signalPairs c side s).Nodup := by
  refine List.Nodup.map (fun t t' heq => ?_) (Candidates.nodup_livePartners _)
  cases side <;> cases heq <;> rfl

theorem mentions_of_mem_signalGroups (hover : e.candidates.IsOver (res.IsSignalPair left right))
    (hps : ps ∈ signalGroups e.candidates) : ∀ p ∈ ps, Mentions left right res [] p := by
  obtain ⟨side, s, -, rfl⟩ := mem_signalGroups.1 hps
  intro p hp
  cases side with
  | left =>
    obtain ⟨t, hlive, rfl⟩ := mem_signalPairs_left.1 hp
    exact hover.pair_of_live hlive
  | right =>
    obtain ⟨t, hlive, rfl⟩ := mem_signalPairs_right.1 hp
    exact (hover.right t s).1 (by rw [hlive]; rfl)

theorem mem_ruledOut {a : Literal} : a ∈ e.ruledOut ↔ ∃ s t id,
    Candidates.stateOf e.candidates.left s t = some .removed ∧
      e.draft.vars.get? (.signal s t) = some id ∧ a = .negative id := by
  simp only [ruledOut, List.mem_filterMap, Option.map_eq_some_iff, Prod.exists,
    Candidates.mem_removedPairs]
  constructor
  · rintro ⟨s, t, hremoved, id, hid, rfl⟩
    exact ⟨s, t, id, hremoved, hid, rfl⟩
  · rintro ⟨s, t, id, hremoved, hid, rfl⟩
    exact ⟨s, t, hremoved, id, hid, rfl⟩

theorem candidates_addPartners : (e.addPartners policy threshold).candidates = e.candidates := by
  have hextends : Extends (fun _ => True) e (e.addPartners policy threshold) :=
    extends_addGroups fun _ _ _ _ => trivial
  exact hextends.candidates

theorem extends_addSignals (hover : e.candidates.IsOver (res.IsSignalPair left right)) :
    Extends (Mentions left right res []) e (addSignals policy threshold e) := by
  have hextends : Extends (Mentions left right res []) e (e.addPartners policy threshold) :=
    extends_addGroups fun ps hps => mentions_of_mem_signalGroups hover hps
  rw [addSignals_eq]
  refine ⟨hextends.draft, hextends.candidates,
    fun a ha => List.mem_append_left _ (hextends.assumptions a ha), fun h => ?_⟩
  refine ⟨(hextends.wellFormed h).wellFormed, fun a ha => ?_⟩
  rcases List.mem_append.1 ha with ha | ha
  · exact (hextends.wellFormed h).assumptions a ha
  · obtain ⟨s, t, id, -, hid, rfl⟩ := mem_ruledOut.1 ha
    exact Numbering.lt_nextId hid

/-- What an assignment that obeys the encoder after its signals says about them. -/
structure IsDecided (c : Candidates) (S : PairVariable → Prop) : Prop where
  left : ∀ s ∈ c.left.keys, Draft.IsUnique S (signalPairs c .left s)
  right : ∀ t ∈ c.right.keys, Draft.IsUnique S (signalPairs c .right t)
  removed : ∀ s t, Candidates.stateOf c.left s t = some .removed → ¬ S (.signal s t)

theorem isDecided_of_addSignals (h : (addSignals policy threshold e).Satisfied v) :
    IsDecided e.candidates ((addSignals policy threshold e).draft.Selects v) := by
  have hbefore : (e.addPartners policy threshold).Satisfied v :=
    ⟨h.holds, fun a ha => h.assumptions a (List.mem_append_left _ ha)⟩
  have hgroups := isUnique_of_addGroups hbefore
  constructor
  case left => exact fun s hs => hgroups _ (mem_signalGroups.2 ⟨.left, s, hs, rfl⟩)
  case right => exact fun t ht => hgroups _ (mem_signalGroups.2 ⟨.right, t, ht, rfl⟩)
  case removed =>
    rintro s t hremoved ⟨id, hid, hv⟩
    have hmem : Literal.negative id ∈ (e.addPartners policy threshold).ruledOut :=
      mem_ruledOut.2 ⟨s, t, id, by rwa [candidates_addPartners], hid, rfl⟩
    have hfalse := h.assumptions _ (List.mem_append_right _ hmem)
    simp [hv] at hfalse

theorem isModelled_addSignals (h : e.WellFormed) (hmodelled : e.IsModelled T)
    (hT : ∀ ps ∈ signalGroups e.candidates, Draft.IsUnique T ps)
    (hremoved : ∀ s t, Candidates.stateOf e.candidates.left s t = some .removed → ¬ T (.signal s t)) :
    (addSignals policy threshold e).IsModelled T := by
  have hnodup : ∀ ps ∈ signalGroups e.candidates, ps.Nodup := fun ps hps => by
    obtain ⟨side, s, -, rfl⟩ := mem_signalGroups.1 hps
    exact nodup_signalPairs ..
  have hpartners : (e.addPartners policy threshold).IsModelled T :=
    isModelled_addGroups h hmodelled fun ps hps => ⟨hnodup ps hps, hT ps hps⟩
  obtain ⟨v, hv, hassumptions⟩ := hpartners
  rw [addSignals_eq]
  refine ⟨v, hv, fun a ha => ?_⟩
  rcases List.mem_append.1 ha with ha | ha
  · exact hassumptions a ha
  · obtain ⟨s, t, id, hstate, hid, rfl⟩ := mem_ruledOut.1 ha
    rw [candidates_addPartners] at hstate
    simpa using mt (hv.follows _ id hid).1 (hremoved s t hstate)

end Encoder

/-! ## The finished formula -/

/-- A relation of pairs matches the signals and the norms of two circuits one to one, within their
classes, and keeps the norms of a constraint together. -/
structure Residual.IsSolution (left right : Circuit) (res : Residual) (S : PairVariable → Prop) :
    Prop where
  within : ∀ s t, S (.signal s t) → res.IsSignalPair left right s t
  isMatching : Candidates.IsMatching (res.IsSignalPair left right) fun s t => S (.signal s t)
  norms : ∀ l r, S (.norm l r) → ∃ m ∈ res.normClasses, l ∈ m.left ∧ r ∈ m.right
  isMatched : ∀ m ∈ res.normClasses, res.IsMatched S m
  siblings : Draft.SiblingsAgree res.leftNorms res.rightNorms S

namespace Encoder

variable {left right : Circuit} {res : Residual} {policy : Policy} {threshold : Nat}
  {encoded : List ClassMembers} {e e' : Encoder} {T : PairVariable → Prop} {v : Nat → Bool}

/-- The encoder after the siblings and the signals. -/
def finished (res : Residual) (policy : Policy) (threshold : Nat) (e : Encoder) : Encoder :=
  addSignals policy threshold
    { e with draft := e.draft.addSiblings res.leftNorms res.rightNorms }

theorem finish_eq (e : Encoder) :
    e.finish res policy threshold =
      ⟨(e.finished res policy threshold).draft.clauses.toList,
        (SortedSet.ofList (e.finished res policy threshold).assumptions).toList,
        (e.finished res policy threshold).draft.vars⟩ := rfl

theorem IsSound.extends (h : IsSound left right res encoded e)
    (hextends : Extends (Mentions left right res []) e e') : IsSound left right res encoded e' where
  toWellFormed := hextends.wellFormed h.toWellFormed
  isOver := hextends.candidates ▸ h.isOver
  isSymmetric := hextends.candidates ▸ h.isSymmetric
  signals := fun s t hbinds => (hextends.draft.binds _ hbinds).elim (h.signals s t) id
  norms := fun l r hbinds => by
    refine (hextends.draft.binds _ hbinds).elim (h.norms l r) ?_
    rintro ⟨_, hnil, -⟩
    cases hnil
  matched := fun v hv m hm => by
    refine (h.matched v (hextends.satisfied hv) m hm).mono (fun p => hextends.draft.selects)
      fun l r _ hselects => ?_
    have ⟨id, hid, _⟩ := hselects
    rcases hextends.draft.binds _ ⟨id, hid⟩ with hbinds | ⟨_, hnil, -⟩
    · exact hextends.draft.selects_of_binds hbinds hselects
    · cases hnil

theorem extends_addSiblings {Q : PairVariable → Prop} (h : e.WellFormed) :
    Extends Q e { e with draft := e.draft.addSiblings res.leftNorms res.rightNorms } where
  draft := Draft.grows_addSiblings h.wellFormed
  candidates := rfl
  assumptions := fun _ ha => ha
  wellFormed := fun h => ⟨(Draft.grows_addSiblings (Q := Q) h.wellFormed).wellFormed h.wellFormed,
    h.assumptions⟩

theorem isSound_finished (h : IsSound left right res encoded e) :
    IsSound left right res encoded (e.finished res policy threshold) :=
  (h.extends (extends_addSiblings h.toWellFormed)).extends (extends_addSignals h.isOver)

/-- The norm pairs of a finished encoder agree on siblings. -/
theorem siblingsAgree_of_finished (h : IsSound left right res encoded e)
    (hv : (e.finished res policy threshold).Satisfied v) :
    Draft.SiblingsAgree res.leftNorms res.rightNorms
      ((e.finished res policy threshold).draft.Selects v) := by
  have hextends : Extends (Mentions left right res [])
      { e with draft := e.draft.addSiblings res.leftNorms res.rightNorms }
      (e.finished res policy threshold) := extends_addSignals h.isOver
  have hagree := Draft.siblingsAgree_of_addSiblings h.wellFormed (hextends.satisfied hv).holds
  intro l r l' hselects hlt horigin hne
  have ⟨id, hid, _⟩ := hselects
  have hbefore : e.draft.Selects v (.norm l r) := by
    rcases hextends.draft.binds _ ⟨id, hid⟩ with hbinds | ⟨_, hnil, -⟩
    · exact hextends.draft.selects_of_binds hbinds hselects
    · cases hnil
  obtain ⟨r', hr', horigin', hne', hselects'⟩ := hagree l r l' hbefore hlt horigin hne
  exact ⟨r', hr', horigin', hne', hextends.draft.selects hselects'⟩

/-- Every assignment that obeys the finished encoder is a matching. -/
theorem isSolution_of_finished (h : IsSound left right res res.normClasses e)
    (hv : (e.finished res policy threshold).Satisfied v) :
    res.IsSolution left right ((e.finished res policy threshold).draft.Selects v) := by
  have hsound : IsSound left right res res.normClasses (e.finished res policy threshold) :=
    isSound_finished h
  have hdecided : IsDecided e.candidates ((e.finished res policy threshold).draft.Selects v) :=
    isDecided_of_addSignals hv
  have hwithin : ∀ s t, (e.finished res policy threshold).draft.Selects v (.signal s t) →
      res.IsSignalPair left right s t := fun s t ⟨id, hid, _⟩ => hsound.signals s t ⟨id, hid⟩
  -- A selected pair is a candidate, and it was not removed.
  have hlive : ∀ s t, (e.finished res policy threshold).draft.Selects v (.signal s t) →
      Candidates.stateOf e.candidates.left s t = some .live := by
    intro s t hselects
    obtain ⟨state, hstate⟩ := Option.isSome_iff_exists.1 ((h.isOver.left s t).2 (hwithin s t hselects))
    cases state with
    | live => exact hstate
    | removed => exact absurd hselects (hdecided.removed s t hstate)
  constructor
  case within => exact hwithin
  case isMatched => exact hsound.matched v hv
  case siblings => exact siblingsAgree_of_finished h hv
  case norms => exact fun l r ⟨id, hid, _⟩ => hsound.norms l r ⟨id, hid⟩
  case isMatching =>
    constructor
    case functional =>
      intro s t t' ht ht'
      have hunique := (hdecided.left s ((h.isOver.left_keys s).2 ⟨t, hwithin s t ht⟩)).2
      have heq := hunique _ (mem_signalPairs_left.2 ⟨t, hlive s t ht, rfl⟩) _
        (mem_signalPairs_left.2 ⟨t', hlive s t' ht', rfl⟩) ht ht'
      exact (PairVariable.signal.inj heq).2
    case injective =>
      intro s s' t hs hs'
      have hunique := (hdecided.right t ((h.isOver.right_keys t).2 ⟨s, hwithin s t hs⟩)).2
      have heq := hunique _ (mem_signalPairs_right.2 ⟨s, (h.isSymmetric s t).1 (hlive s t hs), rfl⟩) _
        (mem_signalPairs_right.2 ⟨s', (h.isSymmetric s' t).1 (hlive s' t hs'), rfl⟩) hs hs'
      exact (PairVariable.signal.inj heq).1
    case left_total =>
      intro s t hst
      obtain ⟨⟨p, hp, hselects⟩, -⟩ := hdecided.left s ((h.isOver.left_keys s).2 ⟨t, hst⟩)
      obtain ⟨t', -, rfl⟩ := mem_signalPairs_left.1 hp
      exact ⟨t', hselects⟩
    case right_total =>
      intro s t hst
      obtain ⟨⟨p, hp, hselects⟩, -⟩ := hdecided.right t ((h.isOver.right_keys t).2 ⟨s, hst⟩)
      obtain ⟨s', -, rfl⟩ := mem_signalPairs_right.1 hp
      exact ⟨s', hselects⟩

/-! ## Equivalences are models -/

section Target

variable {σ : Signal → Signal} {κ ν : Nat → Nat} (ht : res.IsTarget left right σ κ ν)

include ht

theorem originOf_image {l : Nat} (hl : l < res.leftNorms.size) :
    Draft.originOf res.rightNorms (ν l) = κ (Draft.originOf res.leftNorms l) := by
  have hn : res.leftNorms[l]? = some res.leftNorms[l] := Array.getElem?_eq_getElem hl
  rw [Draft.originOf, Draft.originOf, ht.image l _ hn, hn]
  rfl

theorem siblingsAgree_of_target :
    Draft.SiblingsAgree res.leftNorms res.rightNorms (res.Matches left σ ν) := by
  rintro l r l' ⟨hlt, rfl⟩ hlt' horigin hne
  refine ⟨ν l', ht.norms.mapsTo hlt', ?_, fun heq => hne (ht.norms.injOn hlt' hlt heq), hlt', rfl⟩
  rw [originOf_image ht hlt', originOf_image ht hlt, horigin]

/-- The finished encoder still selects the pairs of an equivalence that it left open before. -/
theorem isModelled_finished
    (hres : res.refinement.IsBalanced left res.leftNorms right res.rightNorms)
    (h : IsSound left right res res.normClasses e) (hadmits : e.Admits (res.Matches left σ ν)) :
    (e.finished res policy threshold).IsModelled (res.Matches left σ ν) := by
  obtain ⟨v, hv, hassumptions⟩ := hadmits.isModelled
  have hpartition := Residual.isPartition_normClasses hres
  have hsiblings := Draft.models_addSiblings h.wellFormed hv (siblingsAgree_of_target ht) (by
    rintro l r hlt - ⟨-, rfl⟩
    obtain ⟨m, hm, hlm⟩ := hpartition.left_exists l hlt
    obtain ⟨r, -, hselects⟩ := (h.matched v ⟨hv.holds, hassumptions⟩ m hm).left_exists l hlm
    have ⟨id, hid, _⟩ := hselects
    obtain ⟨-, rfl⟩ := (hv.selects_iff ⟨id, hid⟩).1 hselects
    exact ⟨id, hid⟩)
  have hmatching := ht.isMatching
  refine isModelled_addSignals ((extends_addSiblings (Q := fun _ => True) h.toWellFormed).wellFormed
    h.toWellFormed) ⟨v, hsiblings, hassumptions⟩ (fun ps hps => ?_) fun s t hremoved hT => ?_
  · obtain ⟨side, s, hs, rfl⟩ := mem_signalGroups.1 hps
    cases side with
    | left =>
      obtain ⟨t, hpair⟩ := (h.isOver.left_keys s).1 hs
      obtain ⟨t', ht'⟩ := hmatching.left_total s t hpair
      refine ⟨⟨_, mem_signalPairs_left.2 ⟨t', hadmits.keeps.left s t' ht', rfl⟩, ht'⟩, ?_⟩
      intro p hp q hq hTp hTq
      obtain ⟨x, -, rfl⟩ := mem_signalPairs_left.1 hp
      obtain ⟨y, -, rfl⟩ := mem_signalPairs_left.1 hq
      rw [hmatching.functional s x y hTp hTq]
    | right =>
      obtain ⟨t, hpair⟩ := (h.isOver.right_keys s).1 hs
      obtain ⟨t', ht'⟩ := hmatching.right_total t s hpair
      refine ⟨⟨_, mem_signalPairs_right.2 ⟨t', hadmits.keeps.right t' s ht', rfl⟩, ht'⟩, ?_⟩
      intro p hp q hq hTp hTq
      obtain ⟨x, -, rfl⟩ := mem_signalPairs_right.1 hp
      obtain ⟨y, -, rfl⟩ := mem_signalPairs_right.1 hq
      rw [hmatching.injective x y s hTp hTq]
  · rw [hadmits.keeps.left s t hT] at hremoved
    cases hremoved

end Target

end Encoder

end CircuitEquiv
