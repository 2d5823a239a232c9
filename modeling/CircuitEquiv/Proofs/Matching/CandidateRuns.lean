-- SUMMARY: Propagation of candidates ends by itself, keeps every one-to-one matching, and reaches a consistent state.
import CircuitEquiv.Proofs.Matching.Candidates
import Mathlib.Data.Set.Function

/-!
# Runs of candidate propagation

Candidates start from classes and are restricted and propagated in any order. Every propagation ends,
because each sweep but the last removes a candidate. It keeps the pairs of every bijection of the
signals that were live on both sides, so it finds no difference where there is such a bijection. Where
it finds none, the sides agree, no signal is left without a partner, and a signal that has one partner
is the only partner of that one.
-/

namespace CircuitEquiv.Candidates

variable {c : Candidates} {p : SidePartners} {s t : Signal}

/-! ## Runs -/

/-- Candidates that arise from classes by restrictions and propagations. -/
inductive Reached : Candidates → Prop
  | ofClasses (classes : List (List (List Signal))) : Reached (ofClasses classes)
  | restrict {c : Candidates} (h : Reached c) (side : Side) (s : Signal)
      (allowed : SortedSet Signal) : Reached (c.restrict side s allowed)
  | propagate {c : Candidates} (h : Reached c) : Reached c.propagate.1

/-- Candidates that have arisen are about the same pairs on both sides. -/
theorem Reached.isOver (h : Reached c) : ∃ P, c.IsOver P := by
  induction h with
  | ofClasses classes => exact ⟨_, isOver_ofClasses classes⟩
  | restrict _ side s allowed ih =>
    obtain ⟨P, hP⟩ := ih
    exact ⟨P, hP.restrict s allowed⟩
  | propagate _ ih =>
    obtain ⟨P, hP⟩ := ih
    exact ⟨P, (propagates_propagate _).isOver hP⟩

/-- Where a sweep changes nothing, propagation does not either. -/
theorem propagate_of_still (hfix : c.step = c) (hempty : c.emptySignal? = none) :
    c.propagate = (c, none) := by
  have hfull : c.step.emptySignal? = none := hfix.symm ▸ hempty
  rw [propagate, show c.roundBound = (c.roundBound - 1) + 1 from rfl, propagateFrom, hfull]
  simp only [hfix, if_true]

/-! ## Consistency -/

/-- Candidates that agree with each other. -/
structure IsConsistentState (c : Candidates) : Prop where
  /-- A pair is live on the left exactly if it is live on the right. -/
  live_iff : ∀ s t, t ∈ c.live .left s ↔ s ∈ c.live .right t
  /-- Every signal has a live partner. -/
  exists_live : ∀ side, ∀ s ∈ c.signals side, ∃ t, t ∈ c.live side s
  /-- A signal with a single live partner is that partner's only live partner. -/
  exclusive : ∀ side s t, c.live side s = [t] → c.live side.other t = [s]

theorem exists_live_of_firstEmpty? (h : firstEmpty? p = none) (hs : s ∈ p.keys) :
    ∃ t, stateOf p s t = some .live := by
  obtain ⟨q, hq⟩ := SortedMap.mem_keys_iff.1 hs
  rw [firstEmpty?, Option.map_eq_none_iff, List.find?_eq_none] at h
  have hne := h _ (SortedMap.get?_eq_some_iff.1 hq)
  obtain ⟨t, ht⟩ := List.exists_mem_of_ne_nil _ fun hnil => hne (List.isEmpty_iff.2 hnil)
  exact ⟨t, by rw [stateOf_eq_bind, hq]; exact mem_livePartners.1 ht⟩

theorem firstEmpty?_of_emptySignal? (h : c.emptySignal? = none) :
    firstEmpty? c.left = none ∧ firstEmpty? c.right = none := by
  unfold emptySignal? at h
  split at h
  · cases h
  · cases h
  · exact ⟨‹_›, ‹_›⟩

/-- Where removal by claims of the other side changes nothing, a signal that has one partner is the
only partner of that one. -/
theorem livePartners_eq_singleton {own other : SidePartners}
    (hown : retainAll own (isConsistent other) = own)
    (hreturned : ∀ a b, stateOf other a b = some .live → stateOf own b a = some .live)
    (h : livePartners (other.getD s SortedMap.empty) = [t]) :
    livePartners (own.getD t SortedMap.empty) = [s] := by
  have hst : stateOf own t s = some .live :=
    hreturned s t (mem_livePartners.1 (h ▸ List.mem_singleton_self t))
  have hclaim : s ∈ (claims other).getD t [] := by
    cases hs : other.get? s with
    | none => rw [SortedMap.getD, hs] at h; cases h
    | some q => exact mem_claims.2 ⟨q, hs, by rwa [SortedMap.getD, hs] at h⟩
  have honly : ∀ a ∈ livePartners (own.getD t SortedMap.empty), a = s := fun a ha => by
    have hlive : stateOf own t a = some .live := mem_livePartners.1 ha
    rw [← hown, stateOf_retainAll_eq_live, isConsistent, Bool.and_eq_true, List.all_eq_true] at hlive
    exact (of_decide_eq_true (hlive.2.2 s hclaim)).symm
  refine List.perm_singleton.1
    ((List.perm_ext_iff_of_nodup (nodup_livePartners _) (List.nodup_singleton s)).2 fun a => ?_)
  rw [List.mem_singleton]
  exact ⟨honly a, fun ha => ha ▸ mem_livePartners.2 hst⟩

theorem isConsistentState_of_still (hfix : c.step = c) (hempty : c.emptySignal? = none) :
    c.IsConsistentState := by
  have hsymmetric := isSymmetric_of_step_eq hfix
  have hleft : retainAll c.left (isConsistent c.right) = c.left := congrArg Candidates.left hfix
  have hright : retainAll c.right (isConsistent c.left) = c.right := congrArg Candidates.right hfix
  obtain ⟨hfull, hfull'⟩ := firstEmpty?_of_emptySignal? hempty
  refine ⟨fun s t => ?_, ?_, ?_⟩
  · rw [mem_live, mem_live]
    exact hsymmetric s t
  · rintro (_ | _) s hs
    · obtain ⟨t, ht⟩ := exists_live_of_firstEmpty? hfull hs
      exact ⟨t, mem_live.2 ht⟩
    · obtain ⟨t, ht⟩ := exists_live_of_firstEmpty? hfull' hs
      exact ⟨t, mem_live.2 ht⟩
  · rintro (_ | _) s t h
    · exact livePartners_eq_singleton hright (fun a b => (hsymmetric a b).1) h
    · exact livePartners_eq_singleton hleft (fun a b => (hsymmetric b a).2) h

/-! ## Bijections of the signals -/

/-- A bijection of the signals that have an entry, all of whose pairs are live on both sides. -/
structure IsLiveBijection (c : Candidates) (σ : Signal → Signal) : Prop where
  bijOn : Set.BijOn σ {s | s ∈ c.signals .left} {t | t ∈ c.signals .right}
  live_left : ∀ s ∈ c.signals .left, σ s ∈ c.live .left s
  live_right : ∀ s ∈ c.signals .left, s ∈ c.live .right (σ s)

variable {P : Signal → Signal → Prop} {σ : Signal → Signal}

/-- The pairs of a bijection match the signals that candidates are about one to one. -/
theorem IsLiveBijection.isMatching (h : c.IsLiveBijection σ) (hc : c.IsOver P) :
    IsMatching P fun s t => s ∈ c.signals .left ∧ σ s = t where
  functional := fun _ _ _ hst hst' => hst.2.symm.trans hst'.2
  injective := fun _ _ _ hst hst' => h.bijOn.injOn hst.1 hst'.1 (hst.2.trans hst'.2.symm)
  left_total := fun s t hst => ⟨σ s, (hc.left_keys s).2 ⟨t, hst⟩, rfl⟩
  right_total := fun s t hst => h.bijOn.surjOn ((hc.right_keys t).2 ⟨s, hst⟩)

theorem isLiveBijection_iff_keeps
    (hbij : Set.BijOn σ {s | s ∈ c.signals .left} {t | t ∈ c.signals .right}) :
    c.IsLiveBijection σ ↔ c.Keeps fun s t => s ∈ c.signals .left ∧ σ s = t := by
  constructor
  · rintro ⟨-, hleft, hright⟩
    refine ⟨?_, ?_⟩
    · rintro s _ ⟨hs, rfl⟩
      exact mem_livePartners.1 (hleft s hs)
    · rintro s _ ⟨hs, rfl⟩
      exact mem_livePartners.1 (hright s hs)
  · rintro ⟨hleft, hright⟩
    exact ⟨hbij, fun s hs => mem_livePartners.2 (hleft s _ ⟨hs, rfl⟩),
      fun s hs => mem_livePartners.2 (hright s _ ⟨hs, rfl⟩)⟩

theorem signals_step (c : Candidates) : c.step.signals = c.signals := by
  funext side
  cases side with
  | left => exact keys_retainAll (p := c.left) (isConsistent c.right)
  | right => exact keys_retainAll (p := c.right) (isConsistent c.left)

theorem signals_propagate (c : Candidates) : c.propagate.1.signals = c.signals :=
  (propagates_propagate c).invariant (Q := fun c' => c'.signals = c.signals)
    (fun c' hc' => (signals_step c').trans hc') rfl

/-- A run keeps every bijection of live pairs, and finds no difference where there is one. -/
theorem IsLiveBijection.propagate (h : c.IsLiveBijection σ) (hc : c.IsOver P) :
    c.propagate.2 = none ∧ c.propagate.1.IsLiveBijection σ := by
  have hmatching := h.isMatching hc
  have hkeeps := (isLiveBijection_iff_keeps h.bijOn).1 h
  obtain ⟨hkept, hnone⟩ := (propagates_propagate c).keeps hkeeps hc hmatching
  rw [← signals_propagate c] at hkept
  refine ⟨hnone, (isLiveBijection_iff_keeps ?_).2 hkept⟩
  rw [signals_propagate]
  exact h.bijOn

/-- Propagation is sound and reaches a consistent fixpoint, whatever restrictions and propagations
came before. Its sweeps come to an end; a bijection of the signals whose pairs are all live keeps them
live and shows that there is no difference to find; and where no difference is found, the candidates
agree with each other and propagating them again changes nothing. -/
theorem propagate_exact (h : Reached c) :
    Propagates c c.propagate.1 c.propagate.2 ∧
      (∀ σ, c.IsLiveBijection σ → c.propagate.1.IsLiveBijection σ ∧ c.propagate.2 = none) ∧
      (c.propagate.2 = none → c.propagate.1.IsConsistentState ∧
        c.propagate.1.propagate = (c.propagate.1, none)) := by
  obtain ⟨P, hP⟩ := h.isOver
  have hrun := propagates_propagate c
  refine ⟨hrun, fun σ hσ => (hσ.propagate hP).symm, fun hnone => ?_⟩
  rw [hnone] at hrun
  obtain ⟨hfix, hempty⟩ := hrun.still_of_none
  exact ⟨isConsistentState_of_still hfix hempty, propagate_of_still hfix hempty⟩

namespace Sample

/-- Three signals a side, of which the first must map to the first of the other side. -/
def restricted : Candidates :=
  (ofClasses [[[1, 2, 3], [4, 5, 6]]]).restrict .left 1 (SortedSet.ofList [4])

end Sample

open Sample in
/-- Every left signal can still map to the one three above it, so propagation ends without a
difference. -/
theorem propagate_exact_restricted :
    Reached restricted ∧ restricted.IsLiveBijection (· + 3) ∧
      restricted.propagate.1.IsLiveBijection (· + 3) ∧ restricted.propagate.1.IsConsistentState := by
  have hreached : Reached restricted := .restrict (.ofClasses _) _ _ _
  have hmaps : ∀ s ∈ restricted.signals .left, s + 3 ∈ restricted.signals .right := by decide
  have honto : ∀ t ∈ restricted.signals .right, ∃ s ∈ restricted.signals .left, s + 3 = t := by decide
  have hlive : restricted.IsLiveBijection (· + 3) :=
    ⟨⟨hmaps, fun _ _ _ _ heq => Nat.add_right_cancel heq, honto⟩, by decide, by decide⟩
  obtain ⟨-, hkept, hconsistent⟩ := propagate_exact hreached
  exact ⟨hreached, hlive, (hkept _ hlive).1, (hconsistent (hkept _ hlive).2).1⟩

end CircuitEquiv.Candidates
