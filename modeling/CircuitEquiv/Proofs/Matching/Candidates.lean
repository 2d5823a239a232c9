-- SUMMARY: Which pairs candidates are about, that propagation keeps every matching, and that it ends in a consistent state.
import CircuitEquiv.Matching.Candidates
import CircuitEquiv.Proofs.Data.Ordered
import Mathlib.Tactic.Tauto

/-!
# Candidate partners

Restriction and propagation remove candidates and never add any, so the pairs that candidates are
about stay the same. Propagation keeps every pair of a one-to-one matching of the signals, and where
it ends the two sides agree on which pairs are live.
-/

namespace CircuitEquiv.Candidates

/-! ## States of pairs -/

/-- The state of a candidate of a signal, if it is one. -/
def stateOf (p : SidePartners) (s t : Signal) : Option CandidateState :=
  (p.getD s SortedMap.empty).get? t

variable {c : Candidates} {p : SidePartners} {s t : Signal}

theorem stateOf_eq_bind (p : SidePartners) (s t : Signal) :
    stateOf p s t = (p.get? s).bind (·.get? t) := by
  unfold stateOf SortedMap.getD
  cases p.get? s <;> rfl

theorem isLive_iff : c.isLive s t = true ↔ stateOf c.left s t = some .live := by
  simp [isLive, stateOf]

theorem mem_livePartners {q : SortedMap Signal CandidateState} :
    t ∈ livePartners q ↔ q.get? t = some .live := by
  unfold livePartners
  rw [SortedMap.mem_keys_iff]
  simp only [SortedMap.get?_filter, Option.filter_eq_some_iff, decide_eq_true_eq]
  constructor
  · rintro ⟨state, h, rfl⟩
    exact h
  · intro h
    exact ⟨_, h, rfl⟩

theorem nodup_livePartners (q : SortedMap Signal CandidateState) : (livePartners q).Nodup :=
  SortedMap.nodup_keys _

theorem mem_live {side : Side} : t ∈ c.live side s ↔ stateOf (c.ofSide side) s t = some .live :=
  mem_livePartners

theorem mem_removedPairs : (s, t) ∈ c.removedPairs ↔ stateOf c.left s t = some .removed := by
  simp only [removedPairs, List.mem_flatMap, List.mem_map, Prod.mk.injEq, Prod.exists,
    ← SortedMap.get?_eq_some_iff, SortedMap.mem_keys_iff, SortedMap.get?_filter,
    Option.filter_eq_some_iff, decide_eq_true_eq, stateOf_eq_bind, Option.bind_eq_some_iff]
  constructor
  · rintro ⟨l, partners, hl, r, ⟨state, hstate, rfl⟩, rfl, rfl⟩
    exact ⟨partners, hl, hstate⟩
  · rintro ⟨partners, hl, hstate⟩
    exact ⟨s, partners, hl, t, ⟨_, hstate, rfl⟩, rfl, rfl⟩

/-! ## Removing candidates -/

/-- Removes the candidates that do not satisfy `keep`. -/
def retainAll (p : SidePartners) (keep : Signal → Signal → Bool) : SidePartners :=
  p.mapValues fun s partners => retain partners (keep s)

theorem retain_true (q : SortedMap Signal CandidateState) : retain q (fun _ => true) = q := by
  obtain ⟨l, hl⟩ := q
  simp [retain, SortedMap.mapValues]

@[simp]
theorem keys_retainAll (keep : Signal → Signal → Bool) : (retainAll p keep).keys = p.keys := by
  simp [SortedMap.keys, retainAll, SortedMap.mapValues]

theorem stateOf_retainAll (keep : Signal → Signal → Bool) :
    stateOf (retainAll p keep) s t =
      (stateOf p s t).map fun state => if keep s t then state else .removed := by
  rw [stateOf_eq_bind, stateOf_eq_bind, retainAll, SortedMap.get?_mapValues]
  cases p.get? s with
  | none => rfl
  | some q => exact SortedMap.get?_mapValues q _ t

theorem stateOf_retainAll_eq_live {keep : Signal → Signal → Bool} :
    stateOf (retainAll p keep) s t = some .live ↔
      stateOf p s t = some .live ∧ keep s t = true := by
  rw [stateOf_retainAll, Option.map_eq_some_iff]
  cases keep s t <;> simp

/-- Narrowing the candidates of one signal to a set. -/
theorem narrow_eq_retainAll (p : SidePartners) (s : Signal) (allowed : SortedSet Signal) :
    (p.mapValues fun x partners => if x = s then retain partners (· ∈ allowed) else partners) =
      retainAll p fun x t => decide (x ≠ s) || decide (t ∈ allowed) := by
  have hpart : ∀ x partners, (if x = s then retain partners (· ∈ allowed) else partners) =
      retain partners fun t => decide (x ≠ s) || decide (t ∈ allowed) := by
    intro x partners
    by_cases hx : x = s
    · simp [hx]
    · simp [hx, retain_true]
  simp only [hpart]
  rfl

/-- Restriction removes the candidates of one signal outside a set. -/
theorem restrict_left_eq (c : Candidates) (s : Signal) (allowed : SortedSet Signal) :
    c.restrict .left s allowed =
      { c with left := retainAll c.left fun x t => decide (x ≠ s) || decide (t ∈ allowed) } :=
  congrArg (fun left => { c with left }) (narrow_eq_retainAll c.left s allowed)

theorem restrict_right_eq (c : Candidates) (s : Signal) (allowed : SortedSet Signal) :
    c.restrict .right s allowed =
      { c with right := retainAll c.right fun x t => decide (x ≠ s) || decide (t ∈ allowed) } :=
  congrArg (fun right => { c with right }) (narrow_eq_retainAll c.right s allowed)

/-- What a round of propagation keeps. -/
def isConsistent (other : SidePartners) (s t : Signal) : Bool :=
  stateOf other t s = some .live && ((claims other).getD s []).all (· = t)

theorem step_eq (c : Candidates) :
    c.step = ⟨retainAll c.left (isConsistent c.right), retainAll c.right (isConsistent c.left)⟩ := rfl

/-! ## The pairs that candidates are about -/

/-- The pairs that candidates are about, live or removed, are those of a relation. -/
structure IsOver (c : Candidates) (P : Signal → Signal → Prop) : Prop where
  left : ∀ s t, (stateOf c.left s t).isSome = true ↔ P s t
  right : ∀ s t, (stateOf c.right t s).isSome = true ↔ P s t
  left_keys : ∀ s, s ∈ c.left.keys ↔ ∃ t, P s t
  right_keys : ∀ t, t ∈ c.right.keys ↔ ∃ s, P s t

variable {P T : Signal → Signal → Prop}

theorem IsOver.retainAll (h : c.IsOver P) (keep keep' : Signal → Signal → Bool) :
    IsOver ⟨retainAll c.left keep, retainAll c.right keep'⟩ P where
  left := fun s t => by rw [stateOf_retainAll, Option.isSome_map, h.left]
  right := fun s t => by rw [stateOf_retainAll, Option.isSome_map, h.right]
  left_keys := fun s => by rw [keys_retainAll, h.left_keys]
  right_keys := fun t => by rw [keys_retainAll, h.right_keys]

theorem retainAll_true (p : SidePartners) : retainAll p (fun _ _ => true) = p := by
  obtain ⟨l, hl⟩ := p
  simp [retainAll, SortedMap.mapValues, retain_true]

theorem IsOver.restrict (h : c.IsOver P) {side : Side} (s : Signal) (allowed : SortedSet Signal) :
    (c.restrict side s allowed).IsOver P := by
  cases side with
  | left =>
    have hretained := h.retainAll (fun x t => decide (x ≠ s) || decide (t ∈ allowed)) fun _ _ => true
    rwa [retainAll_true, ← restrict_left_eq] at hretained
  | right =>
    have hretained := h.retainAll (fun _ _ => true) fun x t => decide (x ≠ s) || decide (t ∈ allowed)
    rwa [retainAll_true, ← restrict_right_eq] at hretained

theorem IsOver.step (h : c.IsOver P) : c.step.IsOver P := by
  rw [step_eq]
  exact h.retainAll _ _

theorem IsOver.pair_of_live (h : c.IsOver P) (hlive : stateOf c.left s t = some .live) : P s t :=
  (h.left s t).1 (by rw [hlive]; rfl)

/-! ## Matchings within the candidates -/

/-- A one-to-one matching that gives every signal of a pair of `P` a partner. -/
structure IsMatching (P T : Signal → Signal → Prop) : Prop where
  functional : ∀ s t t', T s t → T s t' → t = t'
  injective : ∀ s s' t, T s t → T s' t → s = s'
  left_total : ∀ s t, P s t → ∃ t', T s t'
  right_total : ∀ s t, P s t → ∃ s', T s' t

/-- Every pair of a matching is live on both sides. -/
structure Keeps (c : Candidates) (T : Signal → Signal → Prop) : Prop where
  left : ∀ s t, T s t → stateOf c.left s t = some .live
  right : ∀ s t, T s t → stateOf c.right t s = some .live

theorem Keeps.restrict (h : c.Keeps T) {allowed : SortedSet Signal} (hs : ∀ t, T s t → t ∈ allowed) :
    (c.restrict .left s allowed).Keeps T := by
  rw [restrict_left_eq]
  refine ⟨fun x t hT => stateOf_retainAll_eq_live.2 ⟨h.left x t hT, ?_⟩, h.right⟩
  by_cases hx : x = s
  · subst hx
    simp [hs t hT]
  · simp [hx]

theorem mem_claims {s t : Signal} :
    t ∈ (claims p).getD s [] ↔ ∃ q, p.get? t = some q ∧ livePartners q = [s] := by
  rw [claims, SortedMap.getD_groupValues]
  simp only [List.mem_map, List.mem_filter, List.mem_filterMap, decide_eq_true_eq, Prod.exists,
    SortedMap.get?_eq_some_iff]
  constructor
  · rintro ⟨only, t', ⟨⟨x, q, hmem, hq⟩, rfl⟩, rfl⟩
    split at hq
    · rename_i only' hlive
      cases hq
      exact ⟨q, hmem, hlive⟩
    · cases hq
  · rintro ⟨q, hmem, hlive⟩
    exact ⟨s, t, ⟨⟨t, q, hmem, by rw [hlive]⟩, rfl⟩, rfl⟩

/-- A signal with one live partner is matched to it. -/
theorem eq_of_mem_claims {t t' : Signal} (hfunctional : ∀ a b b', T a b → T a b' → b = b')
    (hlive : ∀ a b, T a b → stateOf p b a = some .live) (htotal : ∀ b ∈ p.keys, ∃ a, T a b)
    (hT : T s t) (hclaim : t' ∈ (claims p).getD s []) : t' = t := by
  obtain ⟨q, hq, hpartners⟩ := mem_claims.1 hclaim
  obtain ⟨a, ha⟩ := htotal t' (SortedMap.mem_keys_iff.2 ⟨q, hq⟩)
  have hmem : a ∈ livePartners q := by
    have hstate := hlive a t' ha
    rw [stateOf_eq_bind, hq] at hstate
    exact mem_livePartners.2 hstate
  rw [hpartners, List.mem_singleton] at hmem
  exact hfunctional s t' t (hmem ▸ ha) hT

/-- A round of propagation keeps every matching. -/
theorem Keeps.step (h : c.Keeps T) (hc : c.IsOver P) (hT : IsMatching P T) : c.step.Keeps T := by
  rw [step_eq]
  constructor
  · intro s t hst
    refine stateOf_retainAll_eq_live.2 ⟨h.left s t hst, ?_⟩
    simp only [isConsistent, h.right s t hst, decide_true, Bool.true_and, List.all_eq_true,
      decide_eq_true_eq]
    intro t' ht'
    refine eq_of_mem_claims hT.functional h.right (fun b hb => ?_) hst ht'
    obtain ⟨a, hab⟩ := (hc.right_keys b).1 hb
    exact hT.right_total a b hab
  · intro s t hst
    refine stateOf_retainAll_eq_live.2 ⟨h.right s t hst, ?_⟩
    simp only [isConsistent, h.left s t hst, decide_true, Bool.true_and, List.all_eq_true,
      decide_eq_true_eq]
    intro s' hs'
    refine eq_of_mem_claims (T := fun b a => T a b) (fun b a a' => hT.injective a a' b)
      (fun b a => h.left a b) (fun a ha => ?_) hst hs'
    obtain ⟨b, hab⟩ := (hc.left_keys a).1 ha
    exact hT.left_total a b hab

theorem firstEmpty?_eq_none (h : ∀ s ∈ p.keys, ∃ t, stateOf p s t = some .live) :
    firstEmpty? p = none := by
  unfold firstEmpty?
  rw [Option.map_eq_none_iff, List.find?_eq_none]
  rintro ⟨s, q⟩ hmem hempty
  obtain ⟨t, ht⟩ := h s (List.mem_map_of_mem hmem)
  rw [stateOf_eq_bind, SortedMap.get?_eq_some_iff.2 hmem] at ht
  have hnone := List.eq_nil_iff_forall_not_mem.1 (List.isEmpty_iff.1 hempty)
  exact hnone t (mem_livePartners.2 ht)

theorem Keeps.emptySignal?_eq_none (h : c.Keeps T) (hc : c.IsOver P) (hT : IsMatching P T) :
    c.emptySignal? = none := by
  have hleft : firstEmpty? c.left = none := firstEmpty?_eq_none fun s hs => by
    obtain ⟨t, hst⟩ := (hc.left_keys s).1 hs
    obtain ⟨t', hst'⟩ := hT.left_total s t hst
    exact ⟨t', h.left s t' hst'⟩
  have hright : firstEmpty? c.right = none := firstEmpty?_eq_none fun t ht => by
    obtain ⟨s, hst⟩ := (hc.right_keys t).1 ht
    obtain ⟨s', hst'⟩ := hT.right_total s t hst
    exact ⟨s', h.right s' t hst'⟩
  unfold emptySignal?
  rw [hleft, hright]

/-! ## Termination of propagation -/

/-- The number of live candidates of one side. -/
def nLive (p : SidePartners) : Nat := total (p.values.map fun q => (livePartners q).length)

theorem length_livePartners (q : SortedMap Signal CandidateState) :
    (livePartners q).length = q.entries.countP (·.2 = .live) := by
  simp [livePartners, SortedMap.keys, SortedMap.filter, List.countP_eq_length_filter]

theorem countP_retain_le (l : List (Signal × CandidateState)) (keep : Signal → Bool) :
    (l.map fun e => (e.1, if keep e.1 then e.2 else .removed)).countP (·.2 = .live) ≤
      l.countP (·.2 = .live) := by
  rw [List.countP_map]
  refine List.countP_mono_left fun e _ he => ?_
  simp only [Function.comp_apply, decide_eq_true_eq] at he ⊢
  split at he
  · exact he
  · cases he

theorem retain_eq_of_countP (l : List (Signal × CandidateState)) (keep : Signal → Bool)
    (h : l.countP (·.2 = .live) ≤
      (l.map fun e => (e.1, if keep e.1 then e.2 else .removed)).countP (·.2 = .live)) :
    (l.map fun e => (e.1, if keep e.1 then e.2 else .removed)) = l := by
  induction l with
  | nil => rfl
  | cons e rest ih =>
    obtain ⟨t, state⟩ := e
    have hrest := countP_retain_le rest keep
    simp only [List.map_cons, List.countP_cons] at h ⊢
    cases hkeep : keep t with
    | true =>
      simp only [hkeep, if_true] at h ⊢
      rw [ih (by omega)]
    | false =>
      cases state with
      | live =>
        simp [hkeep, -List.countP_map] at h
        omega
      | removed =>
        simp [hkeep, -List.countP_map] at h ⊢
        exact ih h

theorem length_livePartners_retain_le (q : SortedMap Signal CandidateState) (keep : Signal → Bool) :
    (livePartners (retain q keep)).length ≤ (livePartners q).length := by
  rw [length_livePartners, length_livePartners]
  exact countP_retain_le q.entries keep

theorem retain_eq_of_length (q : SortedMap Signal CandidateState) (keep : Signal → Bool)
    (h : (livePartners q).length ≤ (livePartners (retain q keep)).length) : retain q keep = q := by
  rw [length_livePartners, length_livePartners] at h
  have hentries := retain_eq_of_countP q.entries keep h
  obtain ⟨l, hl⟩ := q
  simpa [retain, SortedMap.mapValues] using hentries

theorem nLive_eq (p : SidePartners) :
    nLive p = total (p.entries.map fun e => (livePartners e.2).length) := by
  simp [nLive, SortedMap.values, Function.comp_def]

theorem total_retainAll_le (l : List (Signal × SortedMap Signal CandidateState))
    (keep : Signal → Signal → Bool) :
    total (l.map fun e => (livePartners (retain e.2 (keep e.1))).length) ≤
      total (l.map fun e => (livePartners e.2).length) := by
  induction l with
  | nil => exact Nat.le_refl _
  | cons e rest ih =>
    simp only [List.map_cons, total_cons]
    exact Nat.add_le_add (length_livePartners_retain_le e.2 (keep e.1)) ih

theorem map_retain_eq_of_total (l : List (Signal × SortedMap Signal CandidateState))
    (keep : Signal → Signal → Bool)
    (h : total (l.map fun e => (livePartners e.2).length) ≤
      total (l.map fun e => (livePartners (retain e.2 (keep e.1))).length)) :
    (l.map fun e => (e.1, retain e.2 (keep e.1))) = l := by
  induction l with
  | nil => rfl
  | cons e rest ih =>
    have hfirst := length_livePartners_retain_le e.2 (keep e.1)
    have hrest := total_retainAll_le rest keep
    simp only [List.map_cons, total_cons] at h ⊢
    rw [retain_eq_of_length e.2 (keep e.1) (by omega), ih (by omega)]

theorem nLive_retainAll (keep : Signal → Signal → Bool) :
    nLive (retainAll p keep) = total (p.entries.map fun e => (livePartners (retain e.2 (keep e.1))).length) := by
  simp [nLive_eq, retainAll, SortedMap.mapValues, Function.comp_def]

theorem nLive_retainAll_le (keep : Signal → Signal → Bool) : nLive (retainAll p keep) ≤ nLive p := by
  rw [nLive_retainAll, nLive_eq]
  exact total_retainAll_le p.entries keep

/-- Removal that keeps the number of live candidates removes nothing. -/
theorem retainAll_eq_of_nLive {keep : Signal → Signal → Bool}
    (h : nLive p ≤ nLive (retainAll p keep)) : retainAll p keep = p := by
  rw [nLive_retainAll, nLive_eq] at h
  have hentries := map_retain_eq_of_total p.entries keep h
  obtain ⟨l, hl⟩ := p
  simpa [retainAll, SortedMap.mapValues] using hentries

/-- A round that changes something removes a live candidate. -/
theorem nLive_step_lt (h : c.step ≠ c) :
    nLive c.step.left + nLive c.step.right < nLive c.left + nLive c.right := by
  rw [step_eq] at h ⊢
  have hleft := nLive_retainAll_le (p := c.left) (isConsistent c.right)
  have hright := nLive_retainAll_le (p := c.right) (isConsistent c.left)
  by_contra hle
  apply h
  obtain ⟨l, r⟩ := c
  simp only [mk.injEq] at hle hleft hright ⊢
  exact ⟨retainAll_eq_of_nLive (by omega), retainAll_eq_of_nLive (by omega)⟩

/-! ## Runs of propagation -/

theorem lt_roundBound (c : Candidates) : nLive c.left + nLive c.right < c.roundBound := by
  show nLive c.left + nLive c.right < nLive c.left + nLive c.right + 2
  omega

/-- Rounds from candidates on until one leaves a signal without partners or changes nothing. -/
inductive Propagates : Candidates → Candidates → Option Difference → Prop
  /-- A signal is left without partners. -/
  | stuck {c : Candidates} {d : Difference} (hempty : c.step.emptySignal? = some d) :
      Propagates c c.step (some d)
  /-- The round changes nothing. -/
  | still {c : Candidates} (hfull : c.step.emptySignal? = none) (hfix : c.step = c) :
      Propagates c c none
  /-- The round removes a candidate. -/
  | sweep {c c' : Candidates} {d : Option Difference} (hfull : c.step.emptySignal? = none)
      (hchange : c.step ≠ c) (hrest : Propagates c.step c' d) : Propagates c c' d

/-- With enough fuel, propagation is a run. -/
theorem propagates_propagateFrom {fuel : Nat} (hfuel : nLive c.left + nLive c.right < fuel) :
    Propagates c (propagateFrom fuel c).1 (propagateFrom fuel c).2 := by
  induction fuel generalizing c with
  | zero => exact absurd hfuel (Nat.not_lt_zero _)
  | succ fuel ih =>
    rw [propagateFrom]
    cases hempty : c.step.emptySignal? with
    | some d => exact .stuck hempty
    | none =>
      by_cases hfix : c.step = c
      · simp only [hfix, if_true]
        exact .still hempty hfix
      · simp only [hfix, if_false]
        exact .sweep hempty hfix (ih (Nat.lt_of_lt_of_le (nLive_step_lt hfix) (Nat.le_of_lt_succ hfuel)))

theorem propagates_propagate (c : Candidates) : Propagates c c.propagate.1 c.propagate.2 :=
  propagates_propagateFrom (lt_roundBound c)

namespace Propagates

variable {c' : Candidates} {d : Option Difference}

/-- A run preserves whatever every round preserves. -/
theorem invariant {Q : Candidates → Prop} (h : Propagates c c' d) (hstep : ∀ c, Q c → Q c.step)
    (hc : Q c) : Q c' := by
  induction h with
  | stuck _ => exact hstep _ hc
  | still _ _ => exact hc
  | sweep _ _ _ ih => exact ih (hstep _ hc)

theorem isOver (h : Propagates c c' d) (hc : c.IsOver P) : c'.IsOver P :=
  h.invariant (Q := fun c => c.IsOver P) (fun _ hc => hc.step) hc

/-- A run keeps every matching, and finds no difference where there is one. -/
theorem keeps (h : Propagates c c' d) (hkeeps : c.Keeps T) (hc : c.IsOver P) (hT : IsMatching P T) :
    c'.Keeps T ∧ d = none := by
  induction h with
  | stuck hempty =>
    rw [(hkeeps.step hc hT).emptySignal?_eq_none hc.step hT] at hempty
    cases hempty
  | still _ _ => exact ⟨hkeeps, rfl⟩
  | sweep _ _ _ ih => exact ih (hkeeps.step hc hT) hc.step

/-- A run that finds no difference ends where a round changes nothing and every signal has a partner. -/
theorem still_of_none (h : Propagates c c' none) : c'.step = c' ∧ c'.emptySignal? = none := by
  generalize hd : (none : Option Difference) = d at h
  induction h with
  | stuck _ => cases hd
  | still hfull hfix => exact ⟨hfix, hfix ▸ hfull⟩
  | sweep _ _ _ ih => exact ih hd

end Propagates

/-- The sides agree on which pairs are live. -/
def IsSymmetric (c : Candidates) : Prop :=
  ∀ s t, stateOf c.left s t = some .live ↔ stateOf c.right t s = some .live

theorem isSymmetric_of_step_eq (h : c.step = c) : c.IsSymmetric := by
  have hleft : retainAll c.left (isConsistent c.right) = c.left := congrArg Candidates.left h
  have hright : retainAll c.right (isConsistent c.left) = c.right := congrArg Candidates.right h
  intro s t
  constructor
  · intro hlive
    rw [← hleft, stateOf_retainAll_eq_live, isConsistent, Bool.and_eq_true, decide_eq_true_eq] at hlive
    exact hlive.2.1
  · intro hlive
    rw [← hright, stateOf_retainAll_eq_live, isConsistent, Bool.and_eq_true, decide_eq_true_eq] at hlive
    exact hlive.2.1

/-! ## Candidates of classes -/

theorem stateOf_addPartner (p : SidePartners) (s t x y : Signal) :
    stateOf (addPartner p s t) x y = if x = s ∧ y = t then some .live else stateOf p x y := by
  unfold addPartner
  rw [stateOf_eq_bind, SortedMap.get?_upsert]
  by_cases hx : x = s
  · subst hx
    rw [if_pos rfl, Option.bind_some, SortedMap.get?_insert]
    by_cases hy : y = t
    · simp [hy]
    · simp only [hy, and_false, if_false]
      rfl
  · simp [hx, stateOf_eq_bind]

theorem mem_keys_addPartner (p : SidePartners) (s t x : Signal) :
    x ∈ (addPartner p s t).keys ↔ x = s ∨ x ∈ p.keys := by
  unfold addPartner
  rw [SortedMap.mem_keys_iff, SortedMap.get?_upsert, SortedMap.mem_keys_iff]
  by_cases hx : x = s <;> simp [hx]

theorem stateOf_foldl_addPartner (pairs : List (Signal × Signal)) (p : SidePartners) (x y : Signal) :
    stateOf (pairs.foldl (fun p e => addPartner p e.1 e.2) p) x y =
      if (x, y) ∈ pairs then some .live else stateOf p x y := by
  induction pairs generalizing p with
  | nil => simp
  | cons e rest ih =>
    obtain ⟨s, t⟩ := e
    rw [List.foldl_cons, ih, stateOf_addPartner]
    by_cases hrest : (x, y) ∈ rest <;> simp [hrest]

theorem mem_keys_foldl_addPartner (pairs : List (Signal × Signal)) (p : SidePartners) (x : Signal) :
    x ∈ (pairs.foldl (fun p e => addPartner p e.1 e.2) p).keys ↔ (∃ y, (x, y) ∈ pairs) ∨ x ∈ p.keys := by
  induction pairs generalizing p with
  | nil => simp
  | cons e rest ih =>
    obtain ⟨s, t⟩ := e
    rw [List.foldl_cons, ih, mem_keys_addPartner]
    simp only [List.mem_cons, Prod.mk.injEq, exists_or, exists_and_left, exists_eq, and_true]
    tauto

/-- The pairs of candidates that a list of classes allows. -/
def classPairs (classes : List (List (List Signal))) : List (Signal × Signal) :=
  classes.flatMap fun
    | [left, right] =>
      (left.filter (· ≠ constantSignal)).flatMap fun l =>
        (right.filter (· ≠ constantSignal)).map fun r => (l, r)
    | _ => []

theorem mem_classPairs {classes : List (List (List Signal))}
    (hclasses : ∀ m ∈ classes, m.length = 2) :
    (s, t) ∈ classPairs classes ↔ s ≠ constantSignal ∧ t ≠ constantSignal ∧
      ∃ m ∈ classes, s ∈ m[0]?.getD [] ∧ t ∈ m[1]?.getD [] := by
  unfold classPairs
  rw [List.mem_flatMap]
  constructor
  · rintro ⟨m, hm, hmem⟩
    obtain ⟨left, right, rfl⟩ := List.length_eq_two.1 (hclasses m hm)
    simp only [List.mem_flatMap, List.mem_map, List.mem_filter, decide_eq_true_eq, Prod.mk.injEq] at hmem
    obtain ⟨l, ⟨hl, hl0⟩, r, ⟨hr, hr0⟩, rfl, rfl⟩ := hmem
    exact ⟨hl0, hr0, _, hm, hl, hr⟩
  · rintro ⟨hs, ht, m, hm, hleft, hright⟩
    obtain ⟨left, right, rfl⟩ := List.length_eq_two.1 (hclasses m hm)
    refine ⟨_, hm, ?_⟩
    simp only [List.mem_flatMap, List.mem_map, List.mem_filter, decide_eq_true_eq, Prod.mk.injEq]
    exact ⟨s, ⟨hleft, hs⟩, t, ⟨hright, ht⟩, rfl, rfl⟩

theorem ofClasses_eq (classes : List (List (List Signal))) :
    ofClasses classes =
      ⟨(classPairs classes).foldl (fun p e => addPartner p e.1 e.2) SortedMap.empty,
        ((classPairs classes).map Prod.swap).foldl (fun p e => addPartner p e.1 e.2)
          SortedMap.empty⟩ := by
  rw [List.foldl_map]
  rfl

theorem stateOf_empty (s t : Signal) : stateOf SortedMap.empty s t = none := rfl

/-- The candidates of classes are the pairs of the classes, all of them live. -/
theorem stateOf_ofClasses (classes : List (List (List Signal))) (s t : Signal) :
    stateOf (ofClasses classes).left s t = (if (s, t) ∈ classPairs classes then some .live else none) ∧
      stateOf (ofClasses classes).right t s =
        if (s, t) ∈ classPairs classes then some .live else none := by
  have hswap : (t, s) ∈ (classPairs classes).map Prod.swap ↔ (s, t) ∈ classPairs classes := by
    rw [List.mem_map]
    constructor
    · rintro ⟨⟨a, b⟩, hmem, heq⟩
      cases heq
      exact hmem
    · exact fun hmem => ⟨_, hmem, rfl⟩
  rw [ofClasses_eq]
  simp only [stateOf_foldl_addPartner, stateOf_empty, hswap, and_self]

theorem isOver_ofClasses (classes : List (List (List Signal))) :
    (ofClasses classes).IsOver fun s t => (s, t) ∈ classPairs classes where
  left := fun s t => by
    rw [(stateOf_ofClasses classes s t).1]
    split <;> simp [*]
  right := fun s t => by
    rw [(stateOf_ofClasses classes s t).2]
    split <;> simp [*]
  left_keys := fun s => by
    rw [ofClasses_eq, mem_keys_foldl_addPartner]
    simp [SortedMap.keys, SortedMap.empty]
  right_keys := fun t => by
    rw [ofClasses_eq, mem_keys_foldl_addPartner]
    simp [SortedMap.keys, SortedMap.empty]

theorem keeps_ofClasses {classes : List (List (List Signal))}
    (hT : ∀ s t, T s t → (s, t) ∈ classPairs classes) : (ofClasses classes).Keeps T where
  left := fun s t hst => by rw [(stateOf_ofClasses classes s t).1, if_pos (hT s t hst)]
  right := fun s t hst => by rw [(stateOf_ofClasses classes s t).2, if_pos (hT s t hst)]

end CircuitEquiv.Candidates
