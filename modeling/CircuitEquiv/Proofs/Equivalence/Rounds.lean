-- SUMMARY: The invariants of encoding, which every round of every policy keeps.
import CircuitEquiv.Proofs.Equivalence.Encoder
import Mathlib.Data.List.SplitBy

/-!
# Rounds

What holds of an encoder after some of the classes, whatever the candidates were narrowed by in
between, and what holds of it when the circuits are equivalent. Both are kept by encoding one class,
so they are kept by every round.
-/

namespace CircuitEquiv.Encoder

variable {left right : Circuit} {res : Residual} {policy : Policy} {threshold : Nat}
  {encoded new later narrowed : List ClassMembers} {e e' : Encoder} {m : ClassMembers}
  {pairs : List ((Nat × Nat) × PairShape)} {v : Nat → Bool} {T : PairVariable → Prop}

/-- An encoder that has encoded some classes matches all their members, and mentions no others. -/
structure IsSound (left right : Circuit) (res : Residual) (encoded : List ClassMembers)
    (e : Encoder) : Prop extends WellFormed e where
  isOver : e.candidates.IsOver (res.IsSignalPair left right)
  isSymmetric : e.candidates.IsSymmetric
  signals : ∀ s t, e.draft.Binds (.signal s t) → res.IsSignalPair left right s t
  norms : ∀ l r, e.draft.Binds (.norm l r) → ∃ m ∈ encoded, l ∈ m.left ∧ r ∈ m.right
  matched : ∀ v, e.Satisfied v → ∀ m ∈ encoded, res.IsMatched (e.draft.Selects v) m

/-- An encoder leaves a relation of pairs open: its candidates keep it and some assignment that obeys
the encoder selects it. -/
structure Admits (T : PairVariable → Prop) (e : Encoder) : Prop where
  keeps : e.candidates.Keeps fun s t => T (.signal s t)
  isModelled : e.IsModelled T

/-! ## One class -/

/-- The pairs that encoding a class can mention. -/
def Mentions (left right : Circuit) (res : Residual) (pairs : List ((Nat × Nat) × PairShape)) :
    PairVariable → Prop
  | .norm l r => ∃ p ∈ pairs, p.1 = (l, r)
  | .signal s t => res.IsSignalPair left right s t

theorem mentions_of_mem (hover : e.candidates.IsOver (res.IsSignalPair left right))
    {p : (Nat × Nat) × PairShape} (hp : p ∈ res.candidatePairs e.candidates m) :
    Mentions left right res (res.candidatePairs e.candidates m) (normVariable p.1) ∧
      p.2.Within fun s t =>
        Mentions left right res (res.candidatePairs e.candidates m) (.signal s t) := by
  obtain ⟨⟨l, r⟩, shape⟩ := p
  refine ⟨⟨_, hp, rfl⟩, ?_⟩
  have hwithin := PairShape.within_ofNorms? (Residual.mem_candidatePairs.1 hp).2.2
  have hpair : ∀ s t, e.candidates.isLive s t = true → res.IsSignalPair left right s t :=
    fun s t hlive => hover.pair_of_live (Candidates.isLive_iff.1 hlive)
  exact ⟨fun d hd pair hpair' => hpair _ _ (hwithin.common d hd pair hpair'),
    fun alternatives ha ds hds d hd pair hpair' =>
      hpair _ _ (hwithin.choices alternatives ha ds hds d hd pair hpair')⟩

theorem assumptions_withPairs {a : Literal}
    (ha : a ∈ (withPairs policy threshold e m pairs).assumptions) :
    a ∈ e.assumptions ∨ m.all (·.length = 1) = true ∧
      ∃ p ∈ pairs, a = (e.draft.addNormPairs pairs).literalOf (normVariable p.1) := by
  unfold withPairs at ha
  split at ha
  · rename_i hall
    rcases List.mem_append.1 ha with ha | ha
    · exact Or.inl ha
    · obtain ⟨p, hp, rfl⟩ := List.mem_map.1 ha
      exact Or.inr ⟨hall, p, hp, rfl⟩
  · exact Or.inl ha

theorem mem_assumptions_withPairs {a : Literal} (ha : a ∈ e.assumptions) :
    a ∈ (withPairs policy threshold e m pairs).assumptions := by
  unfold withPairs
  split
  · exact List.mem_append_left _ ha
  · exact ha

theorem WellFormed.withPairs (h : e.WellFormed) : (withPairs policy threshold e m pairs).WellFormed where
  wellFormed := (grows_withPairs_addNormPairs.wellFormed
    (Draft.grows_addNormPairs_true.wellFormed h.wellFormed))
  assumptions := fun a ha => by
    rcases assumptions_withPairs ha with ha | ⟨-, p, hp, rfl⟩
    · exact grows_withPairs_addNormPairs.lt_nextId
        (Draft.grows_addNormPairs_true.lt_nextId (h.assumptions a ha))
    · exact grows_withPairs_addNormPairs.lt_nextId
        (Draft.var_literalOf_lt (Draft.binds_addNormPairs hp))

/-- The members of a class are in no class that was encoded before it. -/
theorem disjoint_of_append (hres : res.refinement.IsBalanced left res.leftNorms right res.rightNorms)
    (hclasses : encoded ++ m :: later = res.normClasses) {m' : ClassMembers} (hm' : m' ∈ encoded) :
    (∀ l ∈ m'.left, l ∉ m.left) ∧ ∀ r ∈ m'.right, r ∉ m.right := by
  have hdisjoint := (Residual.isPartition_normClasses hres).disjoint
  rw [← hclasses, List.pairwise_append] at hdisjoint
  exact hdisjoint.2.2 m' hm' m (List.mem_cons_self ..)

theorem mem_normClasses_of_append (hclasses : encoded ++ m :: later = res.normClasses) :
    m ∈ res.normClasses := by simp [← hclasses]

theorem IsSound.addClass (h : IsSound left right res encoded e)
    (hres : res.refinement.IsBalanced left res.leftNorms right res.rightNorms)
    (hclasses : encoded ++ m :: later = res.normClasses)
    (hok : e.addClass res policy threshold m = .ok e') :
    IsSound left right res (encoded ++ [m]) e' := by
  have hpartition := Residual.isPartition_normClasses hres
  have hm := mem_normClasses_of_append hclasses
  rw [addClass_eq] at hok
  obtain ⟨pairs, hpairs, hok⟩ := bind_eq_ok_iff.1 hok
  cases hok
  obtain ⟨rfl, -, -⟩ := Residual.feasiblePairs_eq_ok_iff.1 hpairs
  have hgrows : Draft.Grows (Mentions left right res (res.candidatePairs e.candidates m)) e.draft
      (withPairs policy threshold e m (res.candidatePairs e.candidates m)).draft :=
    grows_withPairs fun p hp => mentions_of_mem h.isOver hp
  -- A pair of a member of the class is new, a pair of a member of an earlier class is not.
  have hnew : ∀ l r, l ∈ m.left ∨ r ∈ m.right → ¬ e.draft.Binds (.norm l r) := by
    intro l r hlr hbinds
    obtain ⟨m', hm', hl, hr⟩ := h.norms l r hbinds
    obtain ⟨hleft, hright⟩ := disjoint_of_append hres hclasses hm'
    exact hlr.elim (hleft l hl) (hright r hr)
  have hold : ∀ m' ∈ encoded, ∀ l r, l ∈ m'.left ∨ r ∈ m'.right →
      ¬ Mentions left right res (res.candidatePairs e.candidates m) (.norm l r) := by
    rintro m' hm' l r hlr ⟨⟨⟨l', r'⟩, shape⟩, hp, heq⟩
    obtain ⟨hl, hr, -⟩ := Residual.mem_candidatePairs.1 hp
    obtain ⟨rfl, rfl⟩ := Prod.mk.inj heq
    obtain ⟨hleft, hright⟩ := disjoint_of_append hres hclasses hm'
    exact hlr.elim (fun hl' => hleft l' hl' hl) fun hr' => hright r' hr' hr
  constructor
  case toWellFormed => exact h.toWellFormed.withPairs
  case isOver =>
    rw [candidates_withPairs]
    exact h.isOver
  case isSymmetric =>
    rw [candidates_withPairs]
    exact h.isSymmetric
  case signals =>
    intro s t hbinds
    exact (hgrows.binds _ hbinds).elim (h.signals s t) id
  case norms =>
    intro l r hbinds
    rcases hgrows.binds _ hbinds with hbinds | ⟨⟨⟨l', r'⟩, shape⟩, hp, heq⟩
    · obtain ⟨m', hm', hlr⟩ := h.norms l r hbinds
      exact ⟨m', List.mem_append_left _ hm', hlr⟩
    · obtain ⟨hl, hr, -⟩ := Residual.mem_candidatePairs.1 hp
      obtain ⟨rfl, rfl⟩ := Prod.mk.inj heq
      exact ⟨m, by simp, hl, hr⟩
  case matched =>
    intro v hv m' hm'
    rcases List.mem_append.1 hm' with hm' | hm'
    · have hbefore : e.Satisfied v := ⟨hgrows.holds v hv.holds, fun a ha =>
        hv.assumptions a (mem_assumptions_withPairs ha)⟩
      refine (h.matched v hbefore m' hm').mono (fun p => hgrows.selects) fun l r hlr hselects => ?_
      have ⟨id, hid, _⟩ := hselects
      rcases hgrows.binds _ ⟨id, hid⟩ with hbinds | hmentions
      · exact hgrows.selects_of_binds hbinds hselects
      · exact absurd hmentions (hold m' hm' l r hlr)
    · obtain rfl := List.mem_singleton.1 hm'
      refine isMatched_of_withPairs (hpartition.length _ hm) hpairs hv fun l r hlr hbinds => ?_
      exact (hgrows.binds _ hbinds).resolve_left (hnew l r hlr)

section Target

variable {σ : Signal → Signal} {κ ν : Nat → Nat} (ht : res.IsTarget left right σ κ ν)
  (hres : res.refinement.IsBalanced left res.leftNorms right res.rightNorms)
  (hleft : res.leftNorms = left.normalize) (hl : left.IsProper)

include ht hleft hl

/-- A matched pair meets its shape. -/
theorem holds_of_target (hover : e.candidates.IsOver (res.IsSignalPair left right))
    (hkeeps : e.candidates.Keeps fun s t => res.Matches left σ ν (.signal s t))
    {p : (Nat × Nat) × PairShape} (hp : p ∈ res.candidatePairs e.candidates m)
    (hT : res.Matches left σ ν (normVariable p.1)) :
    p.2.Holds fun s t => res.Matches left σ ν (.signal s t) := by
  obtain ⟨⟨l, r⟩, shape⟩ := p
  obtain ⟨-, -, hshape⟩ := Residual.mem_candidatePairs.1 hp
  obtain ⟨hlt, rfl⟩ : l < res.leftNorms.size ∧ ν l = r := hT
  obtain ⟨shape', hshape', hmet⟩ := ht.exists_shape hleft hl hkeeps hlt
  rw [hshape, Option.some_inj] at hshape'
  subst hshape'
  refine hmet.mono_within (PairShape.within_ofNorms? hshape) fun s t hlive hst => ?_
  have hpair := hover.pair_of_live (Candidates.isLive_iff.1 hlive)
  refine ⟨hpair.left_ne, hpair.left_lt, ?_⟩
  rw [← hst, FullEquivalence.signalRenaming_of_lt hpair.left_lt]

include hres

/-- Every member of a class has exactly one matched pair. -/
theorem isUnique_of_target
    (hkeeps : e.candidates.Keeps fun s t => res.Matches left σ ν (.signal s t))
    (hm : m ∈ res.normClasses) :
    ∀ ps ∈ Residual.classGroups (res.candidatePairs e.candidates m),
      Draft.IsUnique (res.Matches left σ ν) ps := by
  have hlt := (Residual.isPartition_normClasses hres).left_lt m hm
  have hmatched : ∀ l ∈ m.left, ∃ p ∈ res.candidatePairs e.candidates m, p.1 = (l, ν l) := by
    intro l hlm
    obtain ⟨shape, hshape, -⟩ := ht.exists_shape hleft hl hkeeps (hlt l hlm)
    exact ⟨_, Residual.mem_candidatePairs.2 ⟨hlm, ht.image_mem_right hres hm hlm, hshape⟩, rfl⟩
  intro ps hps
  rcases List.mem_append.1 hps with hps | hps
  · refine Residual.isUnique_sideGroups ?_ ?_ ps hps
    · rintro ⟨⟨l, r⟩, shape⟩ hp
      obtain ⟨hlm, -, -⟩ := Residual.mem_candidatePairs.1 hp
      obtain ⟨q, hq, heq⟩ := hmatched l hlm
      exact ⟨q, hq, by rw [heq], by rw [heq]; exact ⟨hlt l hlm, rfl⟩⟩
    · rintro ⟨⟨l, r⟩, shape⟩ - ⟨⟨l', r'⟩, shape'⟩ - rfl ⟨-, hr⟩ ⟨-, hr'⟩
      exact Prod.ext rfl (hr.symm.trans hr')
  · refine Residual.isUnique_sideGroups ?_ ?_ ps hps
    · rintro ⟨⟨l, r⟩, shape⟩ hp
      obtain ⟨-, hr, -⟩ := Residual.mem_candidatePairs.1 hp
      obtain ⟨l', hl', rfl⟩ := ht.exists_mem_left hres hm hr
      obtain ⟨q, hq, heq⟩ := hmatched l' hl'
      exact ⟨q, hq, by rw [heq], by rw [heq]; exact ⟨hlt l' hl', rfl⟩⟩
    · rintro ⟨⟨l, r⟩, shape⟩ - ⟨⟨l', r'⟩, shape'⟩ - rfl ⟨hlt, hr⟩ ⟨hlt', hr'⟩
      exact Prod.ext (ht.norms.injOn hlt hlt' (hr.trans hr'.symm)) rfl

omit hleft hl in
/-- The only pair of a class with one member on each side is matched. -/
theorem matches_of_all_length_eq_one (hm : m ∈ res.normClasses)
    (hall : m.all (·.length = 1) = true) {p : (Nat × Nat) × PairShape}
    (hp : p ∈ res.candidatePairs e.candidates m) : res.Matches left σ ν (normVariable p.1) := by
  obtain ⟨⟨l, r⟩, shape⟩ := p
  obtain ⟨hlm, hr, -⟩ := Residual.mem_candidatePairs.1 hp
  have hpartition := Residual.isPartition_normClasses hres
  refine ⟨hpartition.left_lt m hm l hlm, ?_⟩
  exact (eq_of_all_length_eq_one (hpartition.length m hm) hall hlm hlm
    (ht.image_mem_right hres hm hlm) hr).2

theorem exists_addClass (h : IsSound left right res encoded e)
    (hadmits : e.Admits (res.Matches left σ ν)) (hm : m ∈ res.normClasses) :
    ∃ e', e.addClass res policy threshold m = .ok e' ∧ e'.Admits (res.Matches left σ ν) := by
  have hpartition := Residual.isPartition_normClasses hres
  obtain ⟨v, hv, hassumptions⟩ := hadmits.isModelled
  have hfeasible := ht.feasiblePairs_eq_ok hres hleft hl hadmits.keeps hm
  refine ⟨_, by rw [addClass_eq, hfeasible, ok_bind], by rw [candidates_withPairs]; exact hadmits.keeps, ?_⟩
  obtain ⟨w, hw, hmodels⟩ := Draft.extensible_addNormPairs h.wellFormed hv
    fun p hp hT => holds_of_target ht hleft hl h.isOver hadmits.keeps hp hT
  have hgrows : Draft.Grows (fun _ => True) e.draft
      (e.draft.addNormPairs (res.candidatePairs e.candidates m)) := Draft.grows_addNormPairs_true
  have hbefore : ∀ a ∈ e.assumptions, a.holds w = true := fun a ha => by
    rw [Literal.holds_of_agreesBelow hw (h.assumptions a ha)]
    exact hassumptions a ha
  have hbinds : ∀ p ∈ res.candidatePairs e.candidates m,
      (e.draft.addNormPairs (res.candidatePairs e.candidates m)).Binds (normVariable p.1) :=
    fun p hp => Draft.binds_addNormPairs hp
  unfold withPairs
  by_cases hall : m.all (·.length = 1) = true
  · refine ⟨w, by rwa [if_pos hall], fun a ha => ?_⟩
    rw [if_pos hall] at ha
    rcases List.mem_append.1 ha with ha | ha
    · exact hbefore a ha
    · obtain ⟨p, hp, rfl⟩ := List.mem_map.1 ha
      rw [Draft.holds_literalOf (hbinds p hp), hmodels.selects_iff (hbinds p hp)]
      exact matches_of_all_length_eq_one ht hres hm hall hp
  · have hone : ∀ lits ∈ (Residual.classGroups (res.candidatePairs e.candidates m)).map
        fun ps => ps.map (e.draft.addNormPairs (res.candidatePairs e.candidates m)).literalOf,
        (∃ l ∈ lits, l.holds w = true) ∧ AtMostOneHolds w lits := by
      intro lits hlits
      obtain ⟨ps, hps, rfl⟩ := List.mem_map.1 hlits
      refine Draft.exactlyOne_of_isUnique hmodels (fun x hx => ?_) ?_
        (isUnique_of_target ht hres hleft hl hadmits.keeps hm ps hps)
      · obtain ⟨p, hp, rfl⟩ := Residual.exists_of_mem_classGroups hps hx
        exact hbinds p hp
      · exact Residual.nodup_of_mem_classGroups (Residual.nodup_map_candidatePairs
          (hpartition.left_nodup m hm) (hpartition.right_nodup m hm)) hps
    obtain ⟨u, hu, hmodels'⟩ := Draft.extensible_addGroups (hgrows.wellFormed h.wellFormed) hmodels
      (policy.atMostOne threshold) (fun lits hlits l hl => var_lt_of_mem_classGroups hlits hl) hone
    refine ⟨u, by rwa [if_neg hall], fun a ha => ?_⟩
    rw [if_neg hall] at ha
    rw [Literal.holds_of_agreesBelow hu (hgrows.lt_nextId (h.assumptions a ha))]
    exact hbefore a ha

end Target

/-! ## Several classes and rounds -/

theorem IsSound.withCandidates (h : IsSound left right res encoded e) {c : Candidates}
    (hover : c.IsOver (res.IsSignalPair left right)) (hsymmetric : c.IsSymmetric) :
    IsSound left right res encoded { e with candidates := c } where
  wellFormed := h.wellFormed
  assumptions := h.assumptions
  isOver := hover
  isSymmetric := hsymmetric
  signals := h.signals
  norms := h.norms
  matched := fun v hv => h.matched v ⟨hv.holds, hv.assumptions⟩

theorem IsSound.addClasses (h : IsSound left right res encoded e)
    (hres : res.refinement.IsBalanced left res.leftNorms right res.rightNorms)
    (hclasses : encoded ++ new ++ later = res.normClasses)
    (hok : new.foldlM (Encoder.addClass res policy threshold) e = .ok e') :
    IsSound left right res (encoded ++ new) e' := by
  induction new generalizing encoded e with
  | nil =>
    cases hok
    simpa using h
  | cons m rest ih =>
    rw [List.foldlM_cons] at hok
    obtain ⟨mid, hmid, hok⟩ := bind_eq_ok_iff.1 hok
    have hfirst := h.addClass hres (by simpa using hclasses) hmid
    simpa using ih hfirst (by simpa using hclasses) hok

theorem IsSound.round (h : IsSound left right res encoded e)
    (hres : res.refinement.IsBalanced left res.leftNorms right res.rightNorms)
    (hclasses : encoded ++ new ++ later = res.normClasses)
    (hok : e.round res policy threshold narrowed new = .ok e') :
    IsSound left right res (encoded ++ new) e' := by
  unfold Encoder.round at hok
  obtain ⟨c, hnarrow, hok⟩ := bind_eq_ok_iff.1 hok
  obtain ⟨c', hpropagated, hok⟩ := bind_eq_ok_iff.1 hok
  have hover : c.IsOver (res.IsSignalPair left right) :=
    foldlM_invariant (fun _ _ _ _ hb hstep => Residual.isOver_narrow hb hstep) h.isOver hnarrow
  exact (h.withCandidates (Candidates.isOver_propagated hover hpropagated)
    (Candidates.isSymmetric_propagated hpropagated)).addClasses hres hclasses hok

/-- Encodes in rounds, without a deadline. -/
def runRounds (res : Residual) (policy : Policy) (threshold : Nat) (e : Encoder)
    (rounds : List (List ClassMembers × List ClassMembers)) : Except Difference Encoder :=
  rounds.foldlM (fun e r => e.round res policy threshold r.1 r.2) e

variable {rounds : List (List ClassMembers × List ClassMembers)}

theorem IsSound.runRounds (h : IsSound left right res encoded e)
    (hres : res.refinement.IsBalanced left res.leftNorms right res.rightNorms)
    (hclasses : encoded ++ rounds.flatMap (·.2) ++ later = res.normClasses)
    (hok : e.runRounds res policy threshold rounds = .ok e') :
    IsSound left right res (encoded ++ rounds.flatMap (·.2)) e' := by
  induction rounds generalizing encoded e with
  | nil =>
    cases hok
    simpa using h
  | cons r rest ih =>
    unfold Encoder.runRounds at hok
    rw [List.foldlM_cons] at hok
    obtain ⟨mid, hmid, hok⟩ := bind_eq_ok_iff.1 hok
    rw [List.flatMap_cons, ← List.append_assoc] at hclasses ⊢
    exact ih (h.round hres (by simpa using hclasses) hmid) hclasses hok

section Target

variable {σ : Signal → Signal} {κ ν : Nat → Nat} (ht : res.IsTarget left right σ κ ν)
  (hres : res.refinement.IsBalanced left res.leftNorms right res.rightNorms)
  (hleft : res.leftNorms = left.normalize) (hl : left.IsProper)

include ht hres hleft hl

theorem exists_addClasses (h : IsSound left right res encoded e)
    (hadmits : e.Admits (res.Matches left σ ν))
    (hclasses : encoded ++ new ++ later = res.normClasses) :
    ∃ e', new.foldlM (addClass res policy threshold) e = .ok e' ∧
      e'.Admits (res.Matches left σ ν) := by
  induction new generalizing encoded e with
  | nil => exact ⟨e, rfl, hadmits⟩
  | cons m rest ih =>
    have hclasses' : encoded ++ m :: (rest ++ later) = res.normClasses := by simpa using hclasses
    obtain ⟨mid, hmid, hadmits'⟩ := exists_addClass ht hres hleft hl h hadmits
      (mem_normClasses_of_append hclasses')
    rw [List.foldlM_cons, hmid, ok_bind]
    exact ih (h.addClass hres hclasses' hmid) hadmits' (by simpa using hclasses)

theorem exists_round (h : IsSound left right res encoded e)
    (hadmits : e.Admits (res.Matches left σ ν)) (hnarrowed : ∀ m ∈ narrowed, m ∈ res.normClasses)
    (hclasses : encoded ++ new ++ later = res.normClasses) :
    ∃ e', e.round res policy threshold narrowed new = .ok e' ∧
      e'.Admits (res.Matches left σ ν) := by
  obtain ⟨c, hnarrow, hkeeps, hover⟩ : ∃ c, narrowed.foldlM res.narrow e.candidates = .ok c ∧
      c.Keeps (fun s t => res.Matches left σ ν (.signal s t)) ∧
        c.IsOver (res.IsSignalPair left right) := by
    refine exists_foldlM (fun c m hm hc => ?_) ⟨hadmits.keeps, h.isOver⟩
    obtain ⟨c', hok, hkeeps⟩ := ht.exists_narrow hres hleft hl hc.1 (hnarrowed m hm)
    exact ⟨c', hok, hkeeps, Residual.isOver_narrow hc.2 hok⟩
  obtain ⟨c', hpropagated, hkeeps'⟩ := Candidates.exists_propagated hkeeps hover ht.isMatching
  obtain ⟨e', hok, hadmits'⟩ := exists_addClasses ht hres hleft hl
    (h.withCandidates (Candidates.isOver_propagated hover hpropagated)
      (Candidates.isSymmetric_propagated hpropagated)) ⟨hkeeps', hadmits.isModelled⟩ hclasses
  exact ⟨e', by rw [round, hnarrow, ok_bind, hpropagated, ok_bind, hok], hadmits'⟩

theorem exists_runRounds (h : IsSound left right res encoded e)
    (hadmits : e.Admits (res.Matches left σ ν))
    (hnarrowed : ∀ r ∈ rounds, ∀ m ∈ r.1, m ∈ res.normClasses)
    (hclasses : encoded ++ rounds.flatMap (·.2) ++ later = res.normClasses) :
    ∃ e', e.runRounds res policy threshold rounds = .ok e' ∧
      e'.Admits (res.Matches left σ ν) := by
  induction rounds generalizing encoded e with
  | nil => exact ⟨e, rfl, hadmits⟩
  | cons r rest ih =>
    obtain ⟨hfirst, hrest⟩ := List.forall_mem_cons.1 hnarrowed
    rw [List.flatMap_cons, ← List.append_assoc] at hclasses
    have hclasses' : encoded ++ r.2 ++ (rest.flatMap (·.2) ++ later) = res.normClasses := by
      simpa using hclasses
    obtain ⟨mid, hmid, hadmits'⟩ := exists_round ht hres hleft hl h hadmits hfirst hclasses'
    unfold runRounds
    rw [List.foldlM_cons, hmid, ok_bind]
    exact ih (h.round hres hclasses' hmid) hadmits' hrest hclasses

end Target

/-! ## The rounds of a policy -/

theorem flatMap_rounds (policy : Policy) (classes : List ClassMembers) :
    (policy.rounds classes).flatMap (·.2) = classes := by
  cases policy <;> simp [Policy.rounds, List.flatMap_map, List.flatten_splitBy]

theorem eq_nil_or_eq_of_mem_rounds {classes : List ClassMembers}
    {r : List ClassMembers × List ClassMembers} (hr : r ∈ policy.rounds classes) :
    r.1 = [] ∨ r.1 = r.2 := by
  unfold Policy.rounds at hr
  split at hr <;>
  · obtain ⟨x, -, rfl⟩ := List.mem_map.1 hr
    simp

theorem mem_of_mem_rounds {classes : List ClassMembers} {r : List ClassMembers × List ClassMembers}
    (hr : r ∈ policy.rounds classes) (hm : m ∈ r.1) : m ∈ classes := by
  rcases eq_nil_or_eq_of_mem_rounds hr with hnil | heq
  · rw [hnil] at hm
    cases hm
  · rw [← flatMap_rounds policy classes]
    exact List.mem_flatMap.2 ⟨r, hr, heq ▸ hm⟩

theorem mem_of_mem_preliminary {classes : List ClassMembers} (hm : m ∈ policy.preliminary classes) :
    m ∈ classes := by
  cases policy with
  | onlineInfoPassing | batchedInfoPassing => cases hm
  | _ => exact List.mem_of_mem_filter hm

/-! ## From the beginning to the last class -/

/-- The encoder at the beginning. -/
def start (c : Candidates) : Encoder := ⟨c, Draft.empty, []⟩

/-- The encoder after the preliminary narrowing and after all classes, without a deadline. -/
def ofResidual (res : Residual) (policy : Policy) (threshold : Nat) : Except Difference Encoder := do
  let c ← (Candidates.ofClasses res.refinement.signalClasses.values).propagated
  let e ← (start c).round res policy threshold (policy.preliminary res.normClasses) []
  e.runRounds res policy threshold (policy.rounds res.normClasses)

theorem isSound_start {c : Candidates} (hover : c.IsOver (res.IsSignalPair left right))
    (hsymmetric : c.IsSymmetric) : IsSound left right res [] (start c) where
  wellFormed := Draft.wellFormed_empty
  assumptions := by simp [start]
  isOver := hover
  isSymmetric := hsymmetric
  signals := fun s t h => absurd h (Draft.not_binds_empty _)
  norms := fun l r h => absurd h (Draft.not_binds_empty _)
  matched := by simp

theorem admits_start {c : Candidates} (hkeeps : c.Keeps fun s t => T (.signal s t)) :
    (start c).Admits T where
  keeps := hkeeps
  isModelled := ⟨fun _ => false, Draft.models_empty, by simp [start]⟩

theorem isOver_signalClasses
    (hres : res.refinement.IsBalanced left res.leftNorms right res.rightNorms) :
    (Candidates.ofClasses res.refinement.signalClasses.values).IsOver
      (res.IsSignalPair left right) := by
  have hover := Candidates.isOver_ofClasses res.refinement.signalClasses.values
  simpa only [Residual.mem_classPairs_signalClasses hres] using hover

theorem isSound_ofResidual
    (hres : res.refinement.IsBalanced left res.leftNorms right res.rightNorms)
    (hok : ofResidual res policy threshold = .ok e) :
    IsSound left right res res.normClasses e := by
  unfold ofResidual at hok
  obtain ⟨c, hc, hok⟩ := bind_eq_ok_iff.1 hok
  obtain ⟨mid, hmid, hok⟩ := bind_eq_ok_iff.1 hok
  have hstart := isSound_start (Candidates.isOver_propagated (isOver_signalClasses hres) hc)
    (Candidates.isSymmetric_propagated hc)
  have hnone : [] ++ [] ++ res.normClasses = res.normClasses := rfl
  have hall : [] ++ [] ++ (policy.rounds res.normClasses).flatMap (·.2) ++ [] = res.normClasses := by
    simp [flatMap_rounds]
  simpa [flatMap_rounds] using (hstart.round hres hnone hmid).runRounds hres hall hok

/-- Encoding reports no difference between circuits that are equivalent, and leaves each equivalence
of them open. -/
theorem exists_ofResidual {σ : Signal → Signal} {κ ν : Nat → Nat}
    (ht : res.IsTarget left right σ κ ν)
    (hres : res.refinement.IsBalanced left res.leftNorms right res.rightNorms)
    (hleft : res.leftNorms = left.normalize) (hl : left.IsProper) :
    ∃ e, ofResidual res policy threshold = .ok e ∧ e.Admits (res.Matches left σ ν) := by
  have hover := isOver_signalClasses hres
  have hkeeps : (Candidates.ofClasses res.refinement.signalClasses.values).Keeps
      fun s t => res.Matches left σ ν (.signal s t) :=
    Candidates.keeps_ofClasses fun s t hst => (Residual.mem_classPairs_signalClasses hres).2
      (hst.2.2 ▸ ht.isSignalPair hst.2.1 hst.1)
  obtain ⟨c, hc, hkeeps'⟩ := Candidates.exists_propagated hkeeps hover ht.isMatching
  have hstart := isSound_start (Candidates.isOver_propagated hover hc)
    (Candidates.isSymmetric_propagated hc)
  have hnone : [] ++ [] ++ res.normClasses = res.normClasses := rfl
  have hall : [] ++ [] ++ (policy.rounds res.normClasses).flatMap (·.2) ++ [] = res.normClasses := by
    simp [flatMap_rounds]
  have hpreliminary : ∃ mid, (start c).round res policy threshold
      (policy.preliminary res.normClasses) [] = .ok mid ∧ mid.Admits (res.Matches left σ ν) :=
    exists_round ht hres hleft hl hstart (admits_start hkeeps') (fun m => mem_of_mem_preliminary) hnone
  obtain ⟨mid, hmid, hadmits⟩ := hpreliminary
  obtain ⟨e, he, hadmits'⟩ := exists_runRounds ht hres hleft hl (hstart.round hres hnone hmid) hadmits
    (fun r hr m => mem_of_mem_rounds hr) hall
  exact ⟨e, by rw [ofResidual, hc, ok_bind, hmid, ok_bind, he], hadmits'⟩

end CircuitEquiv.Encoder
