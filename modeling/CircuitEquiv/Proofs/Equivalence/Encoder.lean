-- SUMMARY: Encoding a class: every model matches the members of the class one to one, and every equivalence is still modelled.
import CircuitEquiv.Proofs.Equivalence.Narrowing
import CircuitEquiv.Proofs.Matching.Draft

/-!
# Encoding classes

Two invariants are carried through all rounds of encoding. Soundness: every assignment that obeys the
encoder matches the members of the classes encoded so far one to one, and a matched norm pair meets
its shape. Completeness: the pairs of a given equivalence are modelled, and they are live.
-/

namespace CircuitEquiv

/-! ## Matched classes -/

/-- The variable of a norm pair. -/
def normVariable (pair : Nat × Nat) : PairVariable := .norm pair.1 pair.2

theorem normVariable_injective : Function.Injective normVariable := by
  rintro ⟨l, r⟩ ⟨l', r'⟩ h
  cases h
  rfl

/-- A relation of pairs matches the members of a class one to one, and the signal pairs meet the
shapes of the matched norm pairs. -/
structure Residual.IsMatched (res : Residual) (S : PairVariable → Prop) (m : ClassMembers) : Prop where
  left_exists : ∀ l ∈ m.left, ∃ r ∈ m.right, S (.norm l r)
  right_exists : ∀ r ∈ m.right, ∃ l ∈ m.left, S (.norm l r)
  left_unique : ∀ l ∈ m.left, ∀ r r', S (.norm l r) → S (.norm l r') → r = r'
  right_unique : ∀ r ∈ m.right, ∀ l l', S (.norm l r) → S (.norm l' r) → l = l'
  shape : ∀ l ∈ m.left, ∀ r, S (.norm l r) → ∃ isCandidate shape,
    PairShape.ofNorms? isCandidate (res.leftNorm l) (res.rightNorm r) = some shape ∧
      shape.Holds fun s t => S (.signal s t)

namespace Residual

variable {res : Residual} {S S' : PairVariable → Prop} {m : ClassMembers} {c : Candidates}
  {pairs : List ((Nat × Nat) × PairShape)}

/-- A class stays matched when no other pairs of its members are selected. -/
theorem IsMatched.mono (h : res.IsMatched S m) (hS : ∀ p, S p → S' p)
    (hback : ∀ l r, l ∈ m.left ∨ r ∈ m.right → S' (.norm l r) → S (.norm l r)) :
    res.IsMatched S' m where
  left_exists := fun l hl => by
    obtain ⟨r, hr, hS'⟩ := h.left_exists l hl
    exact ⟨r, hr, hS _ hS'⟩
  right_exists := fun r hr => by
    obtain ⟨l, hl, hS'⟩ := h.right_exists r hr
    exact ⟨l, hl, hS _ hS'⟩
  left_unique := fun l hl r r' hr hr' =>
    h.left_unique l hl r r' (hback l r (Or.inl hl) hr) (hback l r' (Or.inl hl) hr')
  right_unique := fun r hr l l' hl hl' =>
    h.right_unique r hr l l' (hback l r (Or.inr hr) hl) (hback l' r (Or.inr hr) hl')
  shape := fun l hl r hr => by
    obtain ⟨isCandidate, shape, hshape, hholds⟩ := h.shape l hl r (hback l r (Or.inl hl) hr)
    exact ⟨isCandidate, shape, hshape, hholds.mono fun s t => hS _⟩

/-- The norm pairs of each member, on one side. -/
def sideGroups (pairs : List ((Nat × Nat) × PairShape)) (side : Nat × Nat → Nat) :
    List (List PairVariable) :=
  (SortedMap.groupValues (pairs.map fun p => (side p.1, normVariable p.1))).values

/-- The norm pairs of each left and of each right member. -/
def classGroups (pairs : List ((Nat × Nat) × PairShape)) : List (List PairVariable) :=
  sideGroups pairs Prod.fst ++ sideGroups pairs Prod.snd

theorem mem_sideGroups {side : Nat × Nat → Nat} {ps : List PairVariable} :
    ps ∈ sideGroups pairs side ↔ ∃ p ∈ pairs,
      ps = (pairs.filter fun q => side q.1 = side p.1).map fun q => normVariable q.1 :=
  SortedMap.mem_values_groupValues_map

theorem isUnique_sideGroups {side : Nat × Nat → Nat}
    (hsome : ∀ p ∈ pairs, ∃ q ∈ pairs, side q.1 = side p.1 ∧ S (normVariable q.1))
    (hone : ∀ p ∈ pairs, ∀ q ∈ pairs, side p.1 = side q.1 → S (normVariable p.1) →
      S (normVariable q.1) → p.1 = q.1) :
    ∀ ps ∈ sideGroups pairs side, Draft.IsUnique S ps := by
  intro ps hps
  obtain ⟨p, hp, rfl⟩ := mem_sideGroups.1 hps
  constructor
  · obtain ⟨q, hq, hside, hS⟩ := hsome p hp
    exact ⟨_, List.mem_map_of_mem (List.mem_filter.2 ⟨hq, by simpa using hside⟩), hS⟩
  · intro x hx y hy hSx hSy
    obtain ⟨q, hq, rfl⟩ := List.mem_map.1 hx
    obtain ⟨q', hq', rfl⟩ := List.mem_map.1 hy
    simp only [List.mem_filter, decide_eq_true_eq] at hq hq'
    rw [hone q hq.1 q' hq'.1 (hq.2.trans hq'.2.symm) hSx hSy]

theorem nodup_of_mem_classGroups (hpairs : (pairs.map (·.1)).Nodup) {ps : List PairVariable}
    (hps : ps ∈ classGroups pairs) : ps.Nodup := by
  have hvariables : (pairs.map fun q => normVariable q.1).Nodup := by
    have hmap := hpairs.map normVariable_injective
    rwa [List.map_map] at hmap
  have hgroup : ∀ side, ps ∈ sideGroups pairs side → ps.Nodup := fun side hside => by
    obtain ⟨p, -, rfl⟩ := mem_sideGroups.1 hside
    exact hvariables.sublist (List.filter_sublist.map _)
  exact (List.mem_append.1 hps).elim (hgroup _) (hgroup _)

theorem exists_of_mem_classGroups {ps : List PairVariable} (hps : ps ∈ classGroups pairs)
    {x : PairVariable} (hx : x ∈ ps) : ∃ p ∈ pairs, x = normVariable p.1 := by
  have hgroup : ∀ side, ps ∈ sideGroups pairs side → ∃ p ∈ pairs, x = normVariable p.1 :=
    fun side hside => by
      obtain ⟨p, -, rfl⟩ := mem_sideGroups.1 hside
      obtain ⟨q, hq, rfl⟩ := List.mem_map.1 hx
      exact ⟨q, List.mem_of_mem_filter hq, rfl⟩
  exact (List.mem_append.1 hps).elim (hgroup _) (hgroup _)

/-- One pair of a group is selected, and no other one. -/
theorem selected_of_isUnique_sideGroups {side : Nat × Nat → Nat}
    (h : ∀ ps ∈ sideGroups pairs side, Draft.IsUnique S ps) {p : (Nat × Nat) × PairShape}
    (hp : p ∈ pairs) :
    (∃ q ∈ pairs, side q.1 = side p.1 ∧ S (normVariable q.1)) ∧
      ∀ q ∈ pairs, side q.1 = side p.1 → S (normVariable p.1) → S (normVariable q.1) → p.1 = q.1 := by
  obtain ⟨⟨x, hx, hSx⟩, hone⟩ := h _ (mem_sideGroups.2 ⟨p, hp, rfl⟩)
  constructor
  · obtain ⟨q, hq, rfl⟩ := List.mem_map.1 hx
    simp only [List.mem_filter, decide_eq_true_eq] at hq
    exact ⟨q, hq.1, hq.2, hSx⟩
  · intro q hq hside hSp hSq
    exact normVariable_injective (hone _
      (List.mem_map_of_mem (List.mem_filter.2 ⟨hp, by simp⟩)) _
      (List.mem_map_of_mem (List.mem_filter.2 ⟨hq, by simpa using hside⟩)) hSp hSq)

/-- A class is matched when every member has exactly one selected pair. -/
theorem isMatched_of_isUnique (hpairs : res.feasiblePairs c m = .ok pairs)
    (hS : ∀ ps ∈ classGroups pairs, Draft.IsUnique S ps)
    (hshape : ∀ p ∈ pairs, S (normVariable p.1) → p.2.Holds fun s t => S (.signal s t))
    (honly : ∀ l r, l ∈ m.left ∨ r ∈ m.right → S (.norm l r) → ∃ p ∈ pairs, p.1 = (l, r)) :
    res.IsMatched S m := by
  obtain ⟨rfl, hleft, hright⟩ := feasiblePairs_eq_ok_iff.1 hpairs
  have hgroupsLeft := fun ps hps => hS ps (List.mem_append_left _ hps)
  have hgroupsRight := fun ps hps => hS ps (List.mem_append_right _ hps)
  constructor
  case left_exists =>
    intro l hl
    obtain ⟨p, hp, rfl⟩ := hleft l hl
    obtain ⟨⟨q, hq, hside, hSq⟩, -⟩ := selected_of_isUnique_sideGroups hgroupsLeft hp
    obtain ⟨⟨l', r⟩, shape⟩ := q
    obtain rfl : l' = p.1.1 := hside
    exact ⟨r, (mem_candidatePairs.1 hq).2.1, hSq⟩
  case right_exists =>
    intro r hr
    obtain ⟨p, hp, rfl⟩ := hright r hr
    obtain ⟨⟨q, hq, hside, hSq⟩, -⟩ := selected_of_isUnique_sideGroups hgroupsRight hp
    obtain ⟨⟨l, r'⟩, shape⟩ := q
    obtain rfl : r' = p.1.2 := hside
    exact ⟨l, (mem_candidatePairs.1 hq).1, hSq⟩
  case left_unique =>
    intro l hl r r' hr hr'
    obtain ⟨p, hp, heq⟩ := honly l r (Or.inl hl) hr
    obtain ⟨q, hq, heq'⟩ := honly l r' (Or.inl hl) hr'
    have hsame := (selected_of_isUnique_sideGroups hgroupsLeft hp).2 q hq
      (by rw [heq, heq']) (by rwa [heq]) (by rwa [heq'])
    rw [heq, heq'] at hsame
    exact congrArg Prod.snd hsame
  case right_unique =>
    intro r hr l l' hl hl'
    obtain ⟨p, hp, heq⟩ := honly l r (Or.inr hr) hl
    obtain ⟨q, hq, heq'⟩ := honly l' r (Or.inr hr) hl'
    have hsame := (selected_of_isUnique_sideGroups hgroupsRight hp).2 q hq
      (by rw [heq, heq']) (by rwa [heq]) (by rwa [heq'])
    rw [heq, heq'] at hsame
    exact congrArg Prod.fst hsame
  case shape =>
    intro l hl r hr
    obtain ⟨⟨pair, shape⟩, hp, rfl⟩ := honly l r (Or.inl hl) hr
    exact ⟨_, shape, (mem_candidatePairs.1 hp).2.2, hshape _ hp hr⟩

end Residual

/-! ## Adding norm pairs -/

namespace Draft

variable {Q T : PairVariable → Prop} {d : Draft} {v : Nat → Bool}
  {pairs : List ((Nat × Nat) × PairShape)}

/-- Adds the demands of several norm pairs. -/
def addNormPairs (d : Draft) (pairs : List ((Nat × Nat) × PairShape)) : Draft :=
  pairs.foldl (fun d p => (d.addNormPair p.1.1 p.1.2 p.2).2) d

theorem addNormPairs_cons (d : Draft) (p : (Nat × Nat) × PairShape)
    (rest : List ((Nat × Nat) × PairShape)) :
    d.addNormPairs (p :: rest) = (d.addNormPair p.1.1 p.1.2 p.2).2.addNormPairs rest := rfl

theorem grows_addNormPairs (h : ∀ p ∈ pairs, Q (normVariable p.1) ∧
    p.2.Within fun s t => Q (.signal s t)) : Grows Q d (d.addNormPairs pairs) :=
  grows_foldl fun _ p _ hp => grows_addNormPair (h p hp).1 (h p hp).2

theorem grows_addNormPairs_true : Grows (fun _ => True) d (d.addNormPairs pairs) :=
  grows_addNormPairs fun p _ => ⟨trivial, p.2.within_true⟩

theorem binds_addNormPairs {p : (Nat × Nat) × PairShape} (hp : p ∈ pairs) :
    (d.addNormPairs pairs).Binds (normVariable p.1) := by
  induction pairs generalizing d with
  | nil => cases hp
  | cons first rest ih =>
    rw [addNormPairs_cons]
    rcases List.mem_cons.1 hp with rfl | hp
    · exact grows_addNormPairs_true.binds_of_binds binds_addNormPair
    · exact ih hp

/-- The literal of a norm pair stays the same when more pairs are added. -/
theorem addNormPair_fst_eq_literalOf {l r : Nat} {shape : PairShape}
    (rest : List ((Nat × Nat) × PairShape)) : (d.addNormPair l r shape).1 =
      ((d.addNormPair l r shape).2.addNormPairs rest).literalOf (.norm l r) := by
  rw [grows_addNormPairs_true.literalOf binds_addNormPair, addNormPair_fst]

theorem holds_of_addNormPairs (h : (d.addNormPairs pairs).Holds v) {p : (Nat × Nat) × PairShape}
    (hp : p ∈ pairs) (hselects : (d.addNormPairs pairs).Selects v (normVariable p.1)) :
    p.2.Holds fun s t => (d.addNormPairs pairs).Selects v (.signal s t) := by
  induction pairs generalizing d with
  | nil => cases hp
  | cons first rest ih =>
    rw [addNormPairs_cons] at h hselects ⊢
    rcases List.mem_cons.1 hp with rfl | hp
    · have hgrows : Grows (fun _ => True) (d.addNormPair p.1.1 p.1.2 p.2).2
          ((d.addNormPair p.1.1 p.1.2 p.2).2.addNormPairs rest) := grows_addNormPairs_true
      have hfirst := holds_of_addNormPair (hgrows.holds v h)
        (hgrows.selects_of_binds binds_addNormPair hselects)
      exact hfirst.mono fun s t => hgrows.selects
    · exact ih h hp hselects

theorem extensible_addNormPairs (hd : d.WellFormed) (h : d.Models T v)
    (hT : ∀ p ∈ pairs, T (normVariable p.1) → p.2.Holds fun s t => T (.signal s t)) :
    d.Extensible (d.addNormPairs pairs) T v := by
  induction pairs generalizing d v with
  | nil => exact ⟨v, .refl _ _, h⟩
  | cons first rest ih =>
    obtain ⟨hfirst, hrest⟩ := List.forall_mem_cons.1 hT
    have hgrows : Grows (fun _ => True) d (d.addNormPair first.1.1 first.1.2 first.2).2 :=
      grows_addNormPair trivial first.2.within_true
    exact (extensible_addNormPair hd h hfirst).trans
      (fun w _ hw => ih (hgrows.wellFormed hd) hw hrest) hgrows.vars.nextId

end Draft

/-! ## Encoding one class -/

namespace Encoder

open Residual (classGroups sideGroups candidatePairs)

variable {res : Residual} {policy : Policy} {threshold : Nat} {e e' : Encoder} {m : ClassMembers}
  {pairs : List ((Nat × Nat) × PairShape)} {v : Nat → Bool}

/-- An assignment obeys an encoder: its clauses and its assumptions hold. -/
structure Satisfied (e : Encoder) (v : Nat → Bool) : Prop where
  holds : e.draft.Holds v
  assumptions : ∀ a ∈ e.assumptions, a.holds v = true

/-- The clauses and the assumptions of an encoder mention only variables that were issued. -/
structure WellFormed (e : Encoder) : Prop where
  wellFormed : e.draft.WellFormed
  assumptions : ∀ a ∈ e.assumptions, a.var < e.draft.vars.nextId

/-- Some assignment that obeys the encoder selects the pairs of a relation. -/
def IsModelled (e : Encoder) (T : PairVariable → Prop) : Prop :=
  ∃ v, e.draft.Models T v ∧ ∀ a ∈ e.assumptions, a.holds v = true

theorem addPairs_eq (e : Encoder) (pairs : List ((Nat × Nat) × PairShape)) :
    e.addPairs pairs =
      (pairs.map fun p => (p.1, (e.draft.addNormPairs pairs).literalOf (normVariable p.1)),
        { e with draft := e.draft.addNormPairs pairs }) := by
  induction pairs generalizing e with
  | nil => rfl
  | cons p rest ih =>
    obtain ⟨⟨l, r⟩, shape⟩ := p
    show ((((l, r), (e.draft.addNormPair l r shape).1) ::
      (addPairs { e with draft := (e.draft.addNormPair l r shape).2 } rest).1),
      (addPairs { e with draft := (e.draft.addNormPair l r shape).2 } rest).2) = _
    rw [ih, Draft.addNormPair_fst_eq_literalOf rest]
    rfl

theorem foldl_addExactlyOne (e : Encoder) (groups : List (List Literal)) :
    groups.foldl (addExactlyOne policy threshold) e =
      { e with draft := e.draft.addGroups (policy.atMostOne threshold) groups } := by
  induction groups generalizing e with
  | nil => rfl
  | cons lits rest ih => exact ih _

theorem groupValues_map_values {κ β γ : Type} [Ord κ] [Std.TransOrd κ] [Std.LawfulEqOrd κ]
    [DecidableEq κ] (l : List (κ × β)) (g : β → γ) :
    SortedMap.groupValues (l.map fun e => (e.1, g e.2)) =
      (SortedMap.groupValues l).mapValues fun _ vs => vs.map g := by
  apply SortedMap.ext_get?
  intro k
  rw [SortedMap.get?_mapValues, SortedMap.get?_groupValues, SortedMap.get?_groupValues]
  simp only [List.map_map, List.filter_map]
  by_cases hk : k ∈ l.map (·.1)
  · rw [if_pos hk, if_pos (by simpa [Function.comp_def] using hk)]
    simp [Function.comp_def]
  · rw [if_neg hk, if_neg (by simpa [Function.comp_def] using hk)]
    rfl

theorem values_groupValues_map (pairs : List ((Nat × Nat) × PairShape)) (side : Nat × Nat → Nat)
    (d : Draft) :
    (SortedMap.groupValues (pairs.map fun p => (side p.1, d.literalOf (normVariable p.1)))).values =
      (sideGroups pairs side).map fun ps => ps.map d.literalOf := by
  have hmap := groupValues_map_values (pairs.map fun p => (side p.1, normVariable p.1)) d.literalOf
  rw [List.map_map] at hmap
  unfold sideGroups
  rw [show (pairs.map fun p => (side p.1, d.literalOf (normVariable p.1))) =
    pairs.map ((fun e => (e.1, d.literalOf e.2)) ∘ fun p => (side p.1, normVariable p.1)) from rfl, hmap]
  simp [SortedMap.values, SortedMap.mapValues, Function.comp_def]

/-- The encoder after a class with the given feasible pairs. -/
def withPairs (policy : Policy) (threshold : Nat) (e : Encoder) (m : ClassMembers)
    (pairs : List ((Nat × Nat) × PairShape)) : Encoder :=
  let d := e.draft.addNormPairs pairs
  if m.all (·.length = 1) then
    ⟨e.candidates, d, e.assumptions ++ pairs.map fun p => d.literalOf (normVariable p.1)⟩
  else
    ⟨e.candidates, d.addGroups (policy.atMostOne threshold)
      ((classGroups pairs).map fun ps => ps.map d.literalOf), e.assumptions⟩

theorem addClass_eq (e : Encoder) (m : ClassMembers) :
    addClass res policy threshold e m =
      res.feasiblePairs e.candidates m >>= fun pairs => .ok (withPairs policy threshold e m pairs) := by
  unfold addClass
  cases res.feasiblePairs e.candidates m with
  | error difference => rfl
  | ok pairs =>
    simp only [ok_bind, addPairs_eq, withPairs]
    split
    · simp only [List.map_map]
      rfl
    · simp only [foldl_addExactlyOne, List.map_map, Function.comp_def, values_groupValues_map,
        classGroups, List.map_append]
      rfl

theorem candidates_withPairs : (withPairs policy threshold e m pairs).candidates = e.candidates := by
  unfold withPairs
  split <;> rfl

theorem var_lt_of_mem_classGroups {d : Draft} {lits : List Literal}
    (hlits : lits ∈ (classGroups pairs).map fun ps => ps.map (d.addNormPairs pairs).literalOf)
    {l : Literal} (hl : l ∈ lits) : l.var < (d.addNormPairs pairs).vars.nextId := by
  obtain ⟨ps, hps, rfl⟩ := List.mem_map.1 hlits
  obtain ⟨x, hx, rfl⟩ := List.mem_map.1 hl
  obtain ⟨p, hp, rfl⟩ := Residual.exists_of_mem_classGroups hps hx
  exact Draft.var_literalOf_lt (Draft.binds_addNormPairs hp)

theorem grows_withPairs_addNormPairs :
    Draft.Grows (fun _ => False) (e.draft.addNormPairs pairs)
      (withPairs policy threshold e m pairs).draft := by
  unfold withPairs
  split
  · exact .refl _ _
  · exact Draft.grows_addGroups _ fun lits hlits l hl => var_lt_of_mem_classGroups hlits hl

theorem grows_withPairs {Q : PairVariable → Prop} (h : ∀ p ∈ pairs, Q (normVariable p.1) ∧
    p.2.Within fun s t => Q (.signal s t)) :
    Draft.Grows Q e.draft (withPairs policy threshold e m pairs).draft :=
  (Draft.grows_addNormPairs h).trans (grows_withPairs_addNormPairs.mono fun _ hp => hp.elim)

/-- A class of one member on each side has only one pair to offer. -/
theorem eq_of_all_length_eq_one (hlength : m.length = 2) (hall : m.all (·.length = 1) = true)
    {l l' r r' : Nat} (hl : l ∈ m.left) (hl' : l' ∈ m.left) (hr : r ∈ m.right) (hr' : r' ∈ m.right) :
    l = l' ∧ r = r' := by
  obtain ⟨ls, rs, rfl⟩ := List.length_eq_two.1 hlength
  simp only [List.all_cons, List.all_nil, Bool.and_true, Bool.and_eq_true, decide_eq_true_eq] at hall
  obtain ⟨a, rfl⟩ := List.length_eq_one_iff.1 hall.1
  obtain ⟨b, rfl⟩ := List.length_eq_one_iff.1 hall.2
  simp only [ClassMembers.left, ClassMembers.right, List.getElem?_cons_zero,
    List.getElem?_cons_succ, Option.getD_some, List.mem_singleton] at hl hl' hr hr'
  exact ⟨hl.trans hl'.symm, hr.trans hr'.symm⟩

/-- The only pair of a class of one member on each side is assumed. -/
theorem isUnique_of_withPairs_single (hlength : m.length = 2) (hall : m.all (·.length = 1) = true)
    (hv : (withPairs policy threshold e m (res.candidatePairs e.candidates m)).Satisfied v) :
    ∀ ps ∈ classGroups (res.candidatePairs e.candidates m), Draft.IsUnique
      ((withPairs policy threshold e m (res.candidatePairs e.candidates m)).draft.Selects v) ps := by
  have hselects : ∀ p ∈ res.candidatePairs e.candidates m,
      (withPairs policy threshold e m (res.candidatePairs e.candidates m)).draft.Selects v
        (normVariable p.1) := by
    intro p hp
    refine grows_withPairs_addNormPairs.selects
      ((Draft.holds_literalOf (Draft.binds_addNormPairs hp)).1 (hv.assumptions _ ?_))
    unfold withPairs
    rw [if_pos hall]
    exact List.mem_append_right _ (List.mem_map_of_mem hp)
  have hsame : ∀ p ∈ res.candidatePairs e.candidates m, ∀ q ∈ res.candidatePairs e.candidates m,
      p.1 = q.1 := by
    rintro ⟨⟨l, r⟩, shape⟩ hp ⟨⟨l', r'⟩, shape'⟩ hq
    obtain ⟨hl, hr, -⟩ := Residual.mem_candidatePairs.1 hp
    obtain ⟨hl', hr', -⟩ := Residual.mem_candidatePairs.1 hq
    obtain ⟨rfl, rfl⟩ := eq_of_all_length_eq_one hlength hall hl hl' hr hr'
    rfl
  have hside : ∀ side, ∀ ps ∈ sideGroups (res.candidatePairs e.candidates m) side, Draft.IsUnique
      ((withPairs policy threshold e m (res.candidatePairs e.candidates m)).draft.Selects v) ps :=
    fun side => Residual.isUnique_sideGroups (fun p hp => ⟨p, hp, rfl, hselects p hp⟩)
      fun p hp q hq _ _ _ => hsame p hp q hq
  intro ps hps
  exact (List.mem_append.1 hps).elim (hside _ ps) (hside _ ps)

/-- In a larger class the clauses leave every member one pair. -/
theorem isUnique_of_withPairs_groups (hall : ¬ m.all (·.length = 1) = true)
    (hv : (withPairs policy threshold e m pairs).Satisfied v) :
    ∀ ps ∈ classGroups pairs,
      Draft.IsUnique ((withPairs policy threshold e m pairs).draft.Selects v) ps := by
  intro ps hps
  have hholds : ((e.draft.addNormPairs pairs).addGroups (policy.atMostOne threshold)
      ((classGroups pairs).map fun ps => ps.map (e.draft.addNormPairs pairs).literalOf)).Holds v := by
    have hwhole := hv.holds
    unfold withPairs at hwhole
    rwa [if_neg hall] at hwhole
  have hbinds : ∀ x ∈ ps, (e.draft.addNormPairs pairs).Binds x := fun x hx => by
    obtain ⟨p, hp, rfl⟩ := Residual.exists_of_mem_classGroups hps hx
    exact Draft.binds_addNormPairs hp
  obtain ⟨hsome, hone⟩ := Draft.exactlyOne_of_addGroups
    (fun lits hlits l hl => var_lt_of_mem_classGroups hlits hl) hholds _ (List.mem_map_of_mem hps)
  exact grows_withPairs_addNormPairs.isUnique hbinds (Draft.isUnique_of_exactlyOne hbinds hsome hone)

/-- What an assignment that obeys the encoder after a class says about the class. -/
theorem isMatched_of_withPairs (hlength : m.length = 2)
    (hpairs : res.feasiblePairs e.candidates m = .ok pairs)
    (hv : (withPairs policy threshold e m pairs).Satisfied v)
    (honly : ∀ l r, l ∈ m.left ∨ r ∈ m.right →
      (withPairs policy threshold e m pairs).draft.Binds (.norm l r) → ∃ p ∈ pairs, p.1 = (l, r)) :
    res.IsMatched ((withPairs policy threshold e m pairs).draft.Selects v) m := by
  refine Residual.isMatched_of_isUnique hpairs ?_ (fun p hp hselects => ?_)
    fun l r hlr ⟨id, hid, _⟩ => honly l r hlr ⟨id, hid⟩
  · by_cases hall : m.all (·.length = 1) = true
    · obtain ⟨rfl, -, -⟩ := Residual.feasiblePairs_eq_ok_iff.1 hpairs
      exact isUnique_of_withPairs_single hlength hall hv
    · exact isUnique_of_withPairs_groups hall hv
  · have hbase := Draft.holds_of_addNormPairs (grows_withPairs_addNormPairs.holds v hv.holds) hp
      (grows_withPairs_addNormPairs.selects_of_binds (Draft.binds_addNormPairs hp) hselects)
    exact hbase.mono fun s t => grows_withPairs_addNormPairs.selects

end Encoder

end CircuitEquiv
