-- SUMMARY: A renaming carries one normal form onto another exactly when it meets the demands of their pair shape.
import CircuitEquiv.Matching.PairShape
import CircuitEquiv.Proofs.Constraint.RenamedForms
import CircuitEquiv.Proofs.Data.Failure

/-!
# The meaning of pair shapes

A pair shape is a condition on a relation between left and right signals. For the graph of a
renaming it says that the renamed left normal form is the right one. So a shape can stand for the
renamed constraint in a formula, and the partners that it allows a signal include its image.
-/

namespace CircuitEquiv

/-! ## Repetitions -/

section EraseReps

variable {α : Type} [BEq α] [LawfulBEq α]

theorem mem_eraseRepsBy_loop (x a : α) (l acc : List α) :
    x ∈ List.eraseRepsBy.loop (· == ·) a l acc ↔ x = a ∨ x ∈ l ∨ x ∈ acc := by
  induction l generalizing a acc with
  | nil => simp [List.eraseRepsBy.loop, or_comm]
  | cons b rest ih =>
    rw [List.eraseRepsBy.loop]
    cases h : a == b with
    | true =>
      obtain rfl := eq_of_beq h
      rw [ih, List.mem_cons, or_assoc, ← or_assoc (a := x = a) (b := x = a), or_self]
    | false =>
      rw [ih, List.mem_cons, List.mem_cons]
      tauto

@[simp]
theorem mem_eraseReps {x : α} {l : List α} : x ∈ l.eraseReps ↔ x ∈ l := by
  cases l with
  | nil => rfl
  | cons a rest =>
    show x ∈ List.eraseRepsBy.loop (· == ·) a rest [] ↔ _
    simp [mem_eraseRepsBy_loop]

end EraseReps

/-! ## Demands -/

/-- Some pair of a disjunction is related. -/
def PairDisjunction.Holds (T : Signal → Signal → Prop) (d : PairDisjunction) : Prop :=
  ∃ pair ∈ d, T pair.1 pair.2

/-- All disjunctions of a list hold. -/
def PairDisjunction.AllHold (T : Signal → Signal → Prop) (ds : List PairDisjunction) : Prop :=
  ∀ d ∈ ds, PairDisjunction.Holds T d

/-- Every pair of the disjunctions is related. -/
def PairDisjunction.AllWithin (P : Signal → Signal → Prop) (ds : List PairDisjunction) : Prop :=
  ∀ d ∈ ds, ∀ pair ∈ d, P pair.1 pair.2

namespace PairDisjunction

variable {T : Signal → Signal → Prop} {ds es : List PairDisjunction}

theorem allHold_append : AllHold T (ds ++ es) ↔ AllHold T ds ∧ AllHold T es := List.forall_mem_append

theorem allWithin_append : AllWithin T (ds ++ es) ↔ AllWithin T ds ∧ AllWithin T es :=
  List.forall_mem_append

theorem AllWithin.mono {P Q : Signal → Signal → Prop} (h : AllWithin P ds)
    (hPQ : ∀ s t, P s t → Q s t) : AllWithin Q ds := fun d hd pair hpair => hPQ _ _ (h d hd pair hpair)

end PairDisjunction

namespace PairShape

variable {T T' : Signal → Signal → Prop} {shape shape' : PairShape}

/-- A relation of signals meets all demands of a shape. -/
structure Holds (T : Signal → Signal → Prop) (shape : PairShape) : Prop where
  common : PairDisjunction.AllHold T shape.common
  choices : ∀ alternatives ∈ shape.choices, ∃ ds ∈ alternatives, PairDisjunction.AllHold T ds

/-- Every pair that a shape mentions is related. -/
structure Within (P : Signal → Signal → Prop) (shape : PairShape) : Prop where
  common : PairDisjunction.AllWithin P shape.common
  choices : ∀ alternatives ∈ shape.choices, ∀ ds ∈ alternatives, PairDisjunction.AllWithin P ds

/-- A renaming meets the demands of a shape. -/
abbrev IsMetBy (shape : PairShape) (f : Signal → Signal) : Prop := shape.Holds fun s t => f s = t

theorem Within.mono {P Q : Signal → Signal → Prop} (h : shape.Within P)
    (hPQ : ∀ s t, P s t → Q s t) : shape.Within Q where
  common := h.common.mono hPQ
  choices := fun alternatives ha ds hds => (h.choices alternatives ha ds hds).mono hPQ

theorem within_true (shape : PairShape) : shape.Within fun _ _ => True :=
  ⟨fun _ _ _ _ => trivial, fun _ _ _ _ _ _ _ _ => trivial⟩

/-- Only the pairs that a shape mentions matter. -/
theorem Holds.mono_within {P : Signal → Signal → Prop} (h : shape.Holds T) (hwithin : shape.Within P)
    (hT : ∀ s t, P s t → T s t → T' s t) : shape.Holds T' where
  common := fun d hd => by
    obtain ⟨pair, hpair, hTpair⟩ := h.common d hd
    exact ⟨pair, hpair, hT _ _ (hwithin.common d hd pair hpair) hTpair⟩
  choices := fun alternatives ha => by
    obtain ⟨ds, hds, hall⟩ := h.choices alternatives ha
    refine ⟨ds, hds, fun d hd => ?_⟩
    obtain ⟨pair, hpair, hTpair⟩ := hall d hd
    exact ⟨pair, hpair, hT _ _ (hwithin.choices alternatives ha ds hds d hd pair hpair) hTpair⟩

theorem Holds.mono (h : shape.Holds T) (hT : ∀ s t, T s t → T' s t) : shape.Holds T' :=
  h.mono_within (within_true shape) fun s t _ => hT s t

/-! ### Choices -/

theorem addChoice?_eq_none_iff {alternatives : List (List PairDisjunction)} :
    addChoice? shape alternatives = none ↔ alternatives = [] := by
  have hempty : alternatives.eraseReps = [] ↔ alternatives = [] := by
    simp only [List.eq_nil_iff_forall_not_mem, mem_eraseReps]
  rw [← hempty]
  unfold addChoice?
  split
  · simp [*]
  · simp [*]
  · rename_i hnil _
    simpa using hnil

theorem holds_addChoice? {alternatives : List (List PairDisjunction)}
    (h : addChoice? shape alternatives = some shape') :
    shape'.Holds T ↔
      shape.Holds T ∧ ∃ ds ∈ alternatives, PairDisjunction.AllHold T ds := by
  have hmem : (∃ ds ∈ alternatives, PairDisjunction.AllHold T ds) ↔
      ∃ ds ∈ alternatives.eraseReps, PairDisjunction.AllHold T ds := by simp only [mem_eraseReps]
  rw [hmem]
  unfold addChoice? at h
  split at h
  · cases h
  · rename_i only heq
    cases h
    rw [heq]
    constructor
    · intro hholds
      obtain ⟨hcommon, honly⟩ := PairDisjunction.allHold_append.1 hholds.common
      exact ⟨⟨hcommon, hholds.choices⟩, only, List.mem_singleton.2 rfl, honly⟩
    · rintro ⟨hholds, ds, hds, hall⟩
      rw [List.mem_singleton.1 hds] at hall
      exact ⟨PairDisjunction.allHold_append.2 ⟨hholds.common, hall⟩, hholds.choices⟩
  · cases h
    constructor
    · intro hholds
      refine ⟨⟨hholds.common, fun a ha => hholds.choices a (List.mem_append_left _ ha)⟩, ?_⟩
      exact hholds.choices _ (List.mem_append_right _ (List.mem_singleton.2 rfl))
    · rintro ⟨hholds, hchoice⟩
      refine ⟨hholds.common, fun a ha => ?_⟩
      rcases List.mem_append.1 ha with ha | ha
      · exact hholds.choices a ha
      · rwa [List.mem_singleton.1 ha]

theorem within_addChoice? {alternatives : List (List PairDisjunction)}
    (h : addChoice? shape alternatives = some shape') (hshape : shape.Within T)
    (halternatives : ∀ ds ∈ alternatives, PairDisjunction.AllWithin T ds) : shape'.Within T := by
  unfold addChoice? at h
  split at h
  · cases h
  · rename_i only heq
    cases h
    have honly : only ∈ alternatives := by
      rw [← mem_eraseReps, heq]
      exact List.mem_singleton.2 rfl
    exact ⟨PairDisjunction.allWithin_append.2 ⟨hshape.common, halternatives only honly⟩,
      hshape.choices⟩
  · cases h
    refine ⟨hshape.common, fun a ha => ?_⟩
    rcases List.mem_append.1 ha with ha | ha
    · exact hshape.choices a ha
    · intro ds hds
      rw [List.mem_singleton.1 ha, mem_eraseReps] at hds
      exact halternatives ds hds

/-! ### Terms -/

variable {isCandidate : Signal → Signal → Bool} {f : Signal → Signal} {p q : Terms}
  {ds : List PairDisjunction}

/-- The pairs that a term can be matched by. -/
def termOptions (isCandidate : Signal → Signal → Bool) (q : Terms) (s : Signal) (value : Nat) :
    PairDisjunction :=
  (q.erase constantSignal).entries.filterMap fun (t, other) =>
    if other = value ∧ isCandidate s t then some (s, t) else none

theorem mem_termOptions {s : Signal} {value : Nat} {pair : Signal × Signal} :
    pair ∈ termOptions isCandidate q s value ↔
      pair.1 = s ∧ pair.2 ≠ constantSignal ∧ q.get? pair.2 = some value ∧
        isCandidate s pair.2 = true := by
  obtain ⟨s', t⟩ := pair
  simp only [termOptions, SortedMap.entries_erase, List.mem_filterMap, List.mem_filter,
    decide_eq_true_eq, Option.ite_none_right_eq_some, Option.some.injEq, Prod.mk.injEq, Prod.exists,
    SortedMap.get?_eq_some_iff]
  constructor
  · rintro ⟨t, other, ⟨hmem, hne⟩, ⟨rfl, hcandidate⟩, rfl, rfl⟩
    exact ⟨rfl, hne, hmem, hcandidate⟩
  · rintro ⟨rfl, hne, hmem, hcandidate⟩
    exact ⟨t, value, ⟨hmem, hne⟩, ⟨rfl, hcandidate⟩, rfl, rfl⟩

theorem matchTerms?_eq (p q : Terms) :
    matchTerms? isCandidate p q =
      if p.size ≠ q.size ∨ p.get? constantSignal ≠ q.get? constantSignal then none
      else (p.erase constantSignal).entries.mapM fun e =>
        if (termOptions isCandidate q e.1 e.2).isEmpty then none
        else some (termOptions isCandidate q e.1 e.2) := rfl

theorem mem_entries_erase {s : Signal} {value : Nat} :
    (s, value) ∈ (p.erase constantSignal).entries ↔
      s ≠ constantSignal ∧ p.get? s = some value := by
  rw [SortedMap.entries_erase, List.mem_filter, decide_eq_true_eq, SortedMap.get?_eq_some_iff,
    and_comm]

theorem allWithin_matchTerms? (h : matchTerms? isCandidate p q = some ds) :
    PairDisjunction.AllWithin
      (fun s t => (s ∈ p.keys ∧ s ≠ constantSignal) ∧ isCandidate s t = true) ds := by
  rw [matchTerms?_eq] at h
  split at h
  · cases h
  · intro d hd pair hpair
    obtain ⟨e, hmem, he⟩ := exists_of_mem_mapM h hd
    obtain ⟨hne, hvalue⟩ := mem_entries_erase.1 hmem
    split at he
    · cases he
    · cases he
      obtain ⟨hs, -, -, hcandidate⟩ := mem_termOptions.1 hpair
      rw [hs]
      exact ⟨⟨SortedMap.mem_keys_iff.2 ⟨_, hvalue⟩, hne⟩, hcandidate⟩

/-- Terms of equal number that agree along a renaming are renamed terms. -/
theorem mapKeys_eq_of_size {κ β : Type} [Ord κ] [Std.TransOrd κ] [Std.LawfulEqOrd κ]
    {m n : SortedMap κ β} {g : κ → κ} (hg : Set.InjOn g {k | k ∈ m.keys}) (hsize : m.size = n.size)
    (hget : ∀ k v, m.get? k = some v → n.get? (g k) = some v) : m.mapKeys g = n := by
  have hperm := SortedMap.entries_mapKeys_perm hg
  have hsub : (m.mapKeys g).entries ⊆ n.entries := by
    intro e he
    obtain ⟨⟨k, v⟩, hkv, rfl⟩ := List.mem_map.1 (hperm.mem_iff.1 he)
    exact SortedMap.get?_eq_some_iff.1 (hget k v (SortedMap.get?_eq_some_iff.2 hkv))
  have hlength : n.entries.length ≤ (m.mapKeys g).entries.length := by
    rw [hperm.length_eq, List.length_map]
    exact hsize.ge
  exact SortedMap.ext_entries_perm
    (List.Subperm.perm_of_length_le ((m.mapKeys g).nodup_entries.subperm hsub) hlength)

/-- A renaming that meets the demands of matched terms renames the one to the other. -/
theorem rename_eq_of_matchTerms? (hf : IsRenaming f) (h : matchTerms? isCandidate p q = some ds)
    (hds : PairDisjunction.AllHold (fun s t => f s = t) ds) : Terms.rename p f = q := by
  rw [matchTerms?_eq] at h
  split at h
  · cases h
  · rename_i hagree
    obtain ⟨hsize, hconstant⟩ := not_or.1 hagree
    refine mapKeys_eq_of_size hf.injective.injOn (not_not.1 hsize) fun s value hs => ?_
    by_cases h0 : s = constantSignal
    · subst h0
      rw [hf.constant, ← not_not.1 hconstant, hs]
    · obtain ⟨d, hd, he⟩ := exists_mem_of_mapM h (mem_entries_erase.2 ⟨h0, hs⟩)
      split at he
      · cases he
      · cases he
        obtain ⟨pair, hpair, hfs⟩ := hds _ hd
        obtain ⟨hs', -, hget, -⟩ := mem_termOptions.1 hpair
        rw [← hget, ← hfs, hs']

/-- Terms are matched by a renaming between them whose pairs are candidates. -/
theorem exists_matchTerms? (hf : IsRenaming f) (h : Terms.rename p f = q)
    (hcandidate : ∀ s ∈ p.keys, s ≠ constantSignal → isCandidate s (f s) = true) :
    ∃ ds, matchTerms? isCandidate p q = some ds ∧
      PairDisjunction.AllHold (fun s t => f s = t) ds := by
  have hget : ∀ s, q.get? (f s) = p.get? s := fun s => by
    rw [← h]
    exact SortedMap.get?_mapKeys_of_injective hf.injective s
  have hsize : p.size = q.size := by
    rw [← h]
    have hlength := (SortedMap.entries_mapKeys_perm (m := p) hf.injective.injOn).length_eq
    rw [List.length_map] at hlength
    exact hlength.symm
  have hconstant : p.get? constantSignal = q.get? constantSignal := by
    rw [← hget, hf.constant]
  have hoption : ∀ s value, (s, value) ∈ (p.erase constantSignal).entries →
      (s, f s) ∈ termOptions isCandidate q s value := by
    intro s value hmem
    obtain ⟨hne, hs⟩ := mem_entries_erase.1 hmem
    exact mem_termOptions.2 ⟨rfl, hf.ne_constant hne, (hget s).trans hs,
      hcandidate s (SortedMap.mem_keys_iff.2 ⟨value, hs⟩) hne⟩
  have hnonempty : ∀ e ∈ (p.erase constantSignal).entries,
      (termOptions isCandidate q e.1 e.2).isEmpty = false := fun e he =>
    List.isEmpty_eq_false_iff_exists_mem.2 ⟨_, hoption e.1 e.2 he⟩
  obtain ⟨ds, hds⟩ := exists_mapM (g := fun e : Signal × Nat =>
      if (termOptions isCandidate q e.1 e.2).isEmpty then none
      else some (termOptions isCandidate q e.1 e.2)) (l := (p.erase constantSignal).entries)
    fun e he => ⟨_, by rw [hnonempty e he, if_neg Bool.false_ne_true]⟩
  refine ⟨ds, ?_, fun d hd => ?_⟩
  · rw [matchTerms?_eq, if_neg (by simp [hsize, hconstant]), hds]
  · obtain ⟨e, he, hde⟩ := exists_of_mem_mapM hds hd
    rw [hnonempty e he, if_neg Bool.false_ne_true, Option.some.injEq] at hde
    exact ⟨_, hde ▸ hoption e.1 e.2 he, rfl⟩

/-! ### Rank-one constraints -/

/-- The ways of matching the factors of unordered products. -/
def factorAlternatives (isCandidate : Signal → Signal → Bool) (l r : R1csConstraint) :
    List (List PairDisjunction) :=
  let factors (ra rb : Terms) : Option (List PairDisjunction) := do
    return (← matchTerms? isCandidate l.a ra) ++ (← matchTerms? isCandidate l.b rb)
  [factors r.a r.b, factors r.b r.a].filterMap id

theorem mem_factorAlternatives {l r : R1csConstraint} :
    ds ∈ factorAlternatives isCandidate l r ↔ ∃ ra rb, (ra = r.a ∧ rb = r.b ∨ ra = r.b ∧ rb = r.a) ∧
      ∃ as bs, matchTerms? isCandidate l.a ra = some as ∧
        matchTerms? isCandidate l.b rb = some bs ∧ as ++ bs = ds := by
  simp only [factorAlternatives, List.mem_filterMap, List.mem_cons, List.not_mem_nil, or_false, id]
  constructor
  · rintro ⟨_, rfl | rfl, h⟩
    · simp only [Option.bind_eq_bind, Option.bind_eq_some_iff] at h
      obtain ⟨as, has, bs, hbs, h⟩ := h
      exact ⟨r.a, r.b, Or.inl ⟨rfl, rfl⟩, as, bs, has, hbs, Option.some.inj h⟩
    · simp only [Option.bind_eq_bind, Option.bind_eq_some_iff] at h
      obtain ⟨as, has, bs, hbs, h⟩ := h
      exact ⟨r.b, r.a, Or.inr ⟨rfl, rfl⟩, as, bs, has, hbs, Option.some.inj h⟩
  · rintro ⟨ra, rb, ⟨rfl, rfl⟩ | ⟨rfl, rfl⟩, as, bs, has, hbs, rfl⟩
    · exact ⟨_, Or.inl rfl, by simp [has, hbs]⟩
    · exact ⟨_, Or.inr rfl, by simp [has, hbs]⟩

theorem ofR1cs?_of_isUnordered {l r : R1csConstraint} (hl : l.isUnordered = true)
    (hr : r.isUnordered = true) :
    ofR1cs? isCandidate l r = (matchTerms? isCandidate l.c r.c).bind fun c =>
      addChoice? ⟨c, []⟩ (factorAlternatives isCandidate l r) := by
  unfold ofR1cs?
  rw [hl, hr]
  rfl

theorem ofR1cs?_of_not_isUnordered {l r : R1csConstraint} (hl : l.isUnordered = false)
    (hr : r.isUnordered = false) :
    ofR1cs? isCandidate l r = (matchTerms? isCandidate l.c r.c).bind fun c =>
      (matchTerms? isCandidate l.a r.a).bind fun a =>
        (matchTerms? isCandidate l.b r.b).bind fun b => some ⟨c ++ a ++ b, []⟩ := by
  unfold ofR1cs?
  rw [hl, hr]
  rfl

theorem ofR1cs?_of_ne {l r : R1csConstraint} (h : l.isUnordered ≠ r.isUnordered) :
    ofR1cs? isCandidate l r = none := by
  unfold ofR1cs?
  cases hl : l.isUnordered <;> cases hr : r.isUnordered
  · simp [hl, hr] at h
  · cases matchTerms? isCandidate l.c r.c <;> rfl
  · cases matchTerms? isCandidate l.c r.c <;> rfl
  · simp [hl, hr] at h

theorem within_ofR1cs? {l r : R1csConstraint} (h : ofR1cs? isCandidate l r = some shape) :
    shape.Within fun s t => s ∈ l.signals ∧ isCandidate s t = true := by
  have hpart : ∀ {p q : Terms} {ds : List PairDisjunction}, matchTerms? isCandidate p q = some ds →
      (∀ s ∈ p.keys, s ∈ l.a.keys ∨ s ∈ l.b.keys ∨ s ∈ l.c.keys) →
      PairDisjunction.AllWithin (fun s t => s ∈ l.signals ∧ isCandidate s t = true) ds :=
    fun hmatch hkeys => (allWithin_matchTerms? hmatch).mono fun s _ h =>
      ⟨R1csConstraint.mem_signals.2 ⟨hkeys s h.1.1, h.1.2⟩, h.2⟩
  have ha : ∀ s ∈ l.a.keys, s ∈ l.a.keys ∨ s ∈ l.b.keys ∨ s ∈ l.c.keys := fun s hs => Or.inl hs
  have hb : ∀ s ∈ l.b.keys, s ∈ l.a.keys ∨ s ∈ l.b.keys ∨ s ∈ l.c.keys :=
    fun s hs => Or.inr (Or.inl hs)
  have hc : ∀ s ∈ l.c.keys, s ∈ l.a.keys ∨ s ∈ l.b.keys ∨ s ∈ l.c.keys :=
    fun s hs => Or.inr (Or.inr hs)
  by_cases hne : l.isUnordered = r.isUnordered
  · cases hl : l.isUnordered with
    | true =>
      rw [ofR1cs?_of_isUnordered hl (hne ▸ hl), Option.bind_eq_some_iff] at h
      obtain ⟨cs, hcs, hshape⟩ := h
      refine within_addChoice? hshape ⟨hpart hcs hc, fun _ ha => by cases ha⟩ ?_
      intro ds hds
      obtain ⟨ra, rb, -, as, bs, has, hbs, rfl⟩ := mem_factorAlternatives.1 hds
      exact PairDisjunction.allWithin_append.2 ⟨hpart has ha, hpart hbs hb⟩
    | false =>
      simp only [ofR1cs?_of_not_isUnordered hl (hne ▸ hl), Option.bind_eq_some_iff,
        Option.some.injEq] at h
      obtain ⟨cs, hcs, as, has, bs, hbs, rfl⟩ := h
      refine ⟨?_, fun _ ha => by cases ha⟩
      exact PairDisjunction.allWithin_append.2
        ⟨PairDisjunction.allWithin_append.2 ⟨hpart hcs hc, hpart has ha⟩, hpart hbs hb⟩
  · rw [ofR1cs?_of_ne hne] at h
    cases h

/-- A renaming that meets the demands carries the left constraint onto the right one. -/
theorem isCarriedOnto_of_ofR1cs? {l r : R1csConstraint} (hf : IsRenaming f)
    (h : ofR1cs? isCandidate l r = some shape) (hmet : shape.IsMetBy f) : l.IsCarriedOnto f r := by
  by_cases hne : l.isUnordered = r.isUnordered
  · cases hl : l.isUnordered with
    | true =>
      rw [ofR1cs?_of_isUnordered hl (hne ▸ hl), Option.bind_eq_some_iff] at h
      obtain ⟨c, hc, hshape⟩ := h
      obtain ⟨hcommon, ds, hds, hall⟩ := (holds_addChoice? hshape).1 hmet
      obtain ⟨ra, rb, hside, as, bs, has, hbs, rfl⟩ := mem_factorAlternatives.1 hds
      obtain ⟨hallA, hallB⟩ := PairDisjunction.allHold_append.1 hall
      have hrename : l.rename f = ⟨ra, rb, r.c⟩ := by
        rw [R1csConstraint.rename, rename_eq_of_matchTerms? hf hc hcommon.common,
          rename_eq_of_matchTerms? hf has hallA, rename_eq_of_matchTerms? hf hbs hallB]
      rcases hside with ⟨rfl, rfl⟩ | ⟨rfl, rfl⟩
      · exact Or.inl hrename
      · exact Or.inr ⟨hl, hrename⟩
    | false =>
      simp only [ofR1cs?_of_not_isUnordered hl (hne ▸ hl), Option.bind_eq_some_iff,
        Option.some.injEq] at h
      obtain ⟨c, hc, a, ha, b, hb, rfl⟩ := h
      obtain ⟨hcommon, hallB⟩ := PairDisjunction.allHold_append.1 hmet.common
      obtain ⟨hallC, hallA⟩ := PairDisjunction.allHold_append.1 hcommon
      left
      rw [R1csConstraint.rename, rename_eq_of_matchTerms? hf hc hallC,
        rename_eq_of_matchTerms? hf ha hallA, rename_eq_of_matchTerms? hf hb hallB]
  · rw [ofR1cs?_of_ne hne] at h
    cases h

/-- A renaming that carries one constraint onto the other meets the demands of a shape. -/
theorem exists_ofR1cs?_of_isCarriedOnto {l r : R1csConstraint} (hf : IsRenaming f)
    (h : l.IsCarriedOnto f r) (hcandidate : ∀ s ∈ l.signals, isCandidate s (f s) = true) :
    ∃ shape, ofR1cs? isCandidate l r = some shape ∧ shape.IsMetBy f := by
  have hunordered : l.isUnordered = r.isUnordered := by
    rw [← R1csConstraint.isUnordered_rename hf l]
    rcases h with h | ⟨-, h⟩
    · rw [h]
    · rw [h, R1csConstraint.isUnordered_exchanged]
  have hmatch : ∀ p q : Terms, Terms.rename p f = q →
      (∀ s ∈ p.keys, s ∈ l.a.keys ∨ s ∈ l.b.keys ∨ s ∈ l.c.keys) →
      ∃ ds, matchTerms? isCandidate p q = some ds ∧
        PairDisjunction.AllHold (fun s t => f s = t) ds := fun p q hpq hkeys =>
    exists_matchTerms? hf hpq fun s hs hne => hcandidate s (R1csConstraint.mem_signals.2 ⟨hkeys s hs, hne⟩)
  obtain ⟨as, has, hallA⟩ := hmatch l.a _ rfl fun s hs => Or.inl hs
  obtain ⟨bs, hbs, hallB⟩ := hmatch l.b _ rfl fun s hs => Or.inr (Or.inl hs)
  have hc : Terms.rename l.c f = r.c := by
    rcases h with h | ⟨-, h⟩
    · exact congrArg R1csConstraint.c h
    · exact congrArg R1csConstraint.c h
  obtain ⟨cs, hcs, hallC⟩ := hmatch l.c r.c hc fun s hs => Or.inr (Or.inr hs)
  cases hl : l.isUnordered with
  | true =>
    have hfactors : as ++ bs ∈ factorAlternatives isCandidate l r := by
      refine mem_factorAlternatives.2 ⟨_, _, ?_, as, bs, has, hbs, rfl⟩
      rcases h with h | ⟨-, h⟩
      · exact Or.inl ⟨congrArg R1csConstraint.a h, congrArg R1csConstraint.b h⟩
      · exact Or.inr ⟨congrArg R1csConstraint.a h, congrArg R1csConstraint.b h⟩
    cases hshape : addChoice? ⟨cs, []⟩ (factorAlternatives isCandidate l r) with
    | none =>
      rw [addChoice?_eq_none_iff.1 hshape] at hfactors
      cases hfactors
    | some shape =>
      refine ⟨shape, ?_, (holds_addChoice? hshape).2 ⟨⟨hallC, fun _ ha => by cases ha⟩, _, hfactors,
        PairDisjunction.allHold_append.2 ⟨hallA, hallB⟩⟩⟩
      rw [ofR1cs?_of_isUnordered hl (hunordered ▸ hl), hcs, Option.bind_some, hshape]
  | false =>
    have hrename : l.rename f = r := h.resolve_right fun h' => by
      rw [hl] at h'
      cases h'.1
    subst hrename
    refine ⟨⟨cs ++ as ++ bs, []⟩, ?_, ?_, fun _ ha => by cases ha⟩
    · rw [ofR1cs?_of_not_isUnordered hl (hunordered ▸ hl), hcs, Option.bind_some]
      show ((matchTerms? isCandidate l.a (Terms.rename l.a f)).bind _) = _
      rw [has, Option.bind_some]
      show ((matchTerms? isCandidate l.b (Terms.rename l.b f)).bind _) = _
      rw [hbs, Option.bind_some]
    · exact PairDisjunction.allHold_append.2 ⟨PairDisjunction.allHold_append.2 ⟨hallC, hallA⟩, hallB⟩

/-! ### Polynomial constraints -/

theorem renamePair_of_mem_orientations {x u : Signal × Signal} {pairs : PairDisjunction}
    (hu : u.1 ≤ u.2) (hpairs : pairs ∈ orientations x u) (h : ∀ pair ∈ pairs, f pair.1 = pair.2) :
    AcirConstraint.renamePair f x = u := by
  unfold orientations at hpairs
  unfold AcirConstraint.renamePair
  split at hpairs
  · rename_i hx husquare
    rw [List.mem_singleton] at hpairs
    subst hpairs
    have h1 := h _ List.mem_cons_self
    rw [← of_decide_eq_true hx, h1, Nat.min_self, Nat.max_self]
    exact Prod.ext rfl (of_decide_eq_true husquare)
  · simp only [List.mem_cons, List.not_mem_nil, or_false] at hpairs
    rcases hpairs with rfl | rfl
    · rw [List.forall_mem_cons, List.forall_mem_singleton] at h
      rw [h.1, h.2, Nat.min_eq_left hu, Nat.max_eq_right hu]
    · rw [List.forall_mem_cons, List.forall_mem_singleton] at h
      rw [h.1, h.2, Nat.min_eq_right hu, Nat.max_eq_left hu]
  · cases hpairs

/-- An orientation pairs the signals of the left pair. -/
theorem left_of_mem_orientations {x u : Signal × Signal} {pairs : PairDisjunction}
    (hpairs : pairs ∈ orientations x u) : ∀ pair ∈ pairs, pair.1 = x.1 ∨ pair.1 = x.2 := by
  unfold orientations at hpairs
  split at hpairs
  · rw [List.mem_singleton] at hpairs
    subst hpairs
    simp
  · simp only [List.mem_cons, List.not_mem_nil, or_false] at hpairs
    rcases hpairs with rfl | rfl <;> simp
  · cases hpairs

theorem exists_mem_orientations (hf : IsRenaming f) (x : Signal × Signal) :
    ∃ pairs ∈ orientations x (AcirConstraint.renamePair f x), ∀ pair ∈ pairs, f pair.1 = pair.2 := by
  by_cases hx : x.1 = x.2
  · refine ⟨[(x.1, f x.1)], ?_, by simp⟩
    simp [orientations, AcirConstraint.renamePair, hx]
  · have hne : f x.1 ≠ f x.2 := fun h => hx (hf.injective h)
    refine ⟨[(x.1, f x.1), (x.2, f x.2)], ?_, by simp⟩
    rcases AcirConstraint.renamePair_eq_or f x with h | h
    · simp [orientations, h, hx, hne]
    · simp [orientations, h, hx, hne.symm]

theorem mem_multAlternatives {r : AcirConstraint} {x : Signal × Signal} {value : Nat} :
    ds ∈ multAlternatives isCandidate r x value ↔ ∃ u, r.mult.get? u = some value ∧
      ∃ pairs ∈ orientations x u, (∀ pair ∈ pairs, isCandidate pair.1 pair.2 = true) ∧
        pairs.map ([·]) = ds := by
  simp only [multAlternatives, List.mem_flatMap, List.mem_map, List.mem_filter, decide_eq_true_eq,
    List.all_eq_true, Prod.exists, SortedMap.get?_eq_some_iff]
  constructor
  · rintro ⟨a, b, v, ⟨hmem, rfl⟩, pairs, ⟨hpairs, hcandidate⟩, rfl⟩
    exact ⟨a, b, hmem, pairs, hpairs, fun pair hpair => hcandidate pair hpair, rfl⟩
  · rintro ⟨a, b, hmem, pairs, hpairs, hcandidate, rfl⟩
    exact ⟨a, b, value, ⟨hmem, rfl⟩, pairs, ⟨hpairs, fun pair hpair => hcandidate pair hpair⟩, rfl⟩

theorem allHold_map_singleton {pairs : PairDisjunction} :
    PairDisjunction.AllHold T (pairs.map ([·])) ↔ ∀ pair ∈ pairs, T pair.1 pair.2 := by
  unfold PairDisjunction.AllHold
  rw [List.forall_mem_map]
  refine forall₂_congr fun pair _ => ?_
  simp [PairDisjunction.Holds]

section AddChoices

variable {α : Type} {choices : α → List (List PairDisjunction)} {l : List α}

theorem holds_foldlM_addChoice?
    (h : l.foldlM (fun shape e => addChoice? shape (choices e)) shape = some shape') :
    shape'.Holds T ↔
      shape.Holds T ∧ ∀ e ∈ l, ∃ ds ∈ choices e, PairDisjunction.AllHold T ds := by
  induction l generalizing shape with
  | nil =>
    cases h
    simp
  | cons e rest ih =>
    rw [List.foldlM_cons, Option.bind_eq_bind, Option.bind_eq_some_iff] at h
    obtain ⟨mid, hmid, hrest⟩ := h
    rw [ih hrest, holds_addChoice? hmid, List.forall_mem_cons, and_assoc]

theorem within_foldlM_addChoice?
    (h : l.foldlM (fun shape e => addChoice? shape (choices e)) shape = some shape')
    (hshape : shape.Within T)
    (hchoices : ∀ e ∈ l, ∀ ds ∈ choices e, PairDisjunction.AllWithin T ds) : shape'.Within T := by
  induction l generalizing shape with
  | nil =>
    cases h
    exact hshape
  | cons e rest ih =>
    rw [List.foldlM_cons, Option.bind_eq_bind, Option.bind_eq_some_iff] at h
    obtain ⟨mid, hmid, hrest⟩ := h
    rw [List.forall_mem_cons] at hchoices
    exact ih hrest (within_addChoice? hmid hshape hchoices.1) hchoices.2

theorem exists_foldlM_addChoice? (shape : PairShape) (h : ∀ e ∈ l, choices e ≠ []) :
    ∃ shape', l.foldlM (fun shape e => addChoice? shape (choices e)) shape = some shape' := by
  induction l generalizing shape with
  | nil => exact ⟨shape, rfl⟩
  | cons e rest ih =>
    rw [List.forall_mem_cons] at h
    cases hmid : addChoice? shape (choices e) with
    | none => exact absurd (addChoice?_eq_none_iff.1 hmid) h.1
    | some mid =>
      obtain ⟨shape', hrest⟩ := ih mid h.2
      exact ⟨shape', by rw [List.foldlM_cons, hmid, Option.bind_eq_bind, Option.bind_some, hrest]⟩

end AddChoices

theorem ofAcir?_eq (l r : AcirConstraint) :
    ofAcir? isCandidate l r =
      if l.constant ≠ r.constant ∨ l.mult.size ≠ r.mult.size then none
      else (matchTerms? isCandidate l.linear r.linear).bind fun linear =>
        l.mult.entries.foldlM
          (fun shape e => addChoice? shape (multAlternatives isCandidate r e.1 e.2)) ⟨linear, []⟩ :=
  rfl

theorem within_ofAcir? {l r : AcirConstraint} (h : ofAcir? isCandidate l r = some shape) :
    shape.Within fun s t => s ∈ l.signals ∧ isCandidate s t = true := by
  rw [ofAcir?_eq] at h
  split at h
  · cases h
  · obtain ⟨linear, hlinear, hmult⟩ := Option.bind_eq_some_iff.1 h
    refine within_foldlM_addChoice? hmult ⟨(allWithin_matchTerms? hlinear).mono fun s t h =>
      ⟨AcirConstraint.mem_signals.2 (Or.inr h.1.1), h.2⟩, fun _ ha => by cases ha⟩ fun e he ds hds => ?_
    obtain ⟨u, -, pairs, hpairs, hcandidate, rfl⟩ := mem_multAlternatives.1 hds
    intro d hd pair hpair
    obtain ⟨pair', hpair', rfl⟩ := List.mem_map.1 hd
    rw [List.mem_singleton.1 hpair]
    exact ⟨AcirConstraint.mem_signals.2 (Or.inl ⟨e.1, List.mem_map_of_mem he,
      left_of_mem_orientations hpairs pair' hpair'⟩), hcandidate _ hpair'⟩

/-- A renaming that meets the demands renames the left polynomial to the right one. -/
theorem rename_eq_of_ofAcir? {l r : AcirConstraint} (hf : IsRenaming f) (hl : l.HasProperKeys)
    (hr : r.HasProperKeys) (h : ofAcir? isCandidate l r = some shape) (hmet : shape.IsMetBy f) :
    l.rename f = r := by
  rw [ofAcir?_eq] at h
  split at h
  · cases h
  · rename_i hagree
    obtain ⟨hconstant, hsize⟩ := not_or.1 hagree
    obtain ⟨linear, hlinear, hmult⟩ := Option.bind_eq_some_iff.1 h
    obtain ⟨hcommon, hchoices⟩ := (holds_foldlM_addChoice? hmult).1 hmet
    have hterms : l.mult.mapKeys (AcirConstraint.renamePair f) = r.mult := by
      refine mapKeys_eq_of_size (hl.injOn_renamePair hf) (not_not.1 hsize) fun x value hx => ?_
      obtain ⟨ds, hds, hall⟩ := hchoices (x, value) (SortedMap.get?_eq_some_iff.1 hx)
      obtain ⟨u, hu, pairs, hpairs, -, rfl⟩ := mem_multAlternatives.1 hds
      have hkey : u ∈ r.mult.keys := SortedMap.mem_keys_iff.2 ⟨value, hu⟩
      rwa [renamePair_of_mem_orientations (hr.mult_keys u hkey).2 hpairs
        (allHold_map_singleton.1 hall)]
    obtain ⟨rmult, rlinear, rconstant⟩ := r
    show (⟨l.mult.mapKeys (AcirConstraint.renamePair f), Terms.rename l.linear f, l.constant⟩ :
      AcirConstraint) = _
    rw [hterms, rename_eq_of_matchTerms? hf hlinear hcommon.common, not_not.1 hconstant]

/-- The shape of a renamed polynomial exists and is met by the renaming. -/
theorem exists_ofAcir? {l : AcirConstraint} (hf : IsRenaming f) (hl : l.HasProperKeys)
    (hcandidate : ∀ s ∈ l.signals, isCandidate s (f s) = true) :
    ∃ shape, ofAcir? isCandidate l (l.rename f) = some shape ∧ shape.IsMetBy f := by
  have hinjective := hl.injOn_renamePair hf
  obtain ⟨linear, hlinear, hall⟩ := exists_matchTerms? hf (q := (l.rename f).linear) rfl
    fun s hs _ => hcandidate s (AcirConstraint.mem_signals.2 (Or.inr hs))
  have hchoices : ∀ e ∈ l.mult.entries,
      ∃ ds ∈ multAlternatives isCandidate (l.rename f) e.1 e.2,
        PairDisjunction.AllHold (fun s t => f s = t) ds := by
    rintro ⟨x, value⟩ he
    have hx : x ∈ l.mult.keys := List.mem_map_of_mem he
    obtain ⟨pairs, hpairs, hmet⟩ := exists_mem_orientations hf x
    have hget : (l.rename f).mult.get? (AcirConstraint.renamePair f x) = some value := by
      rw [AcirConstraint.mult_rename, SortedMap.get?_mapKeys hinjective hx,
        SortedMap.get?_eq_some_iff]
      exact he
    refine ⟨_, mem_multAlternatives.2 ⟨_, hget, pairs, hpairs, fun pair hpair => ?_, rfl⟩,
      allHold_map_singleton.2 hmet⟩
    rw [← hmet pair hpair]
    exact hcandidate _ (AcirConstraint.mem_signals.2
      (Or.inl ⟨x, hx, left_of_mem_orientations hpairs pair hpair⟩))
  have hnonempty : ∀ e ∈ l.mult.entries,
      multAlternatives isCandidate (l.rename f) e.1 e.2 ≠ [] := fun e he hnil => by
    obtain ⟨ds, hds, -⟩ := hchoices e he
    rw [hnil] at hds
    cases hds
  obtain ⟨shape, hshape⟩ := exists_foldlM_addChoice? ⟨linear, []⟩ hnonempty
  have hsize : l.mult.size = (l.rename f).mult.size := by
    have hlength := (SortedMap.entries_mapKeys_perm hinjective).length_eq
    rw [List.length_map] at hlength
    exact hlength.symm
  refine ⟨shape, ?_, (holds_foldlM_addChoice? hshape).2 ⟨⟨hall, fun _ ha => by cases ha⟩, hchoices⟩⟩
  have hagree : ¬(l.constant ≠ (l.rename f).constant ∨ l.mult.size ≠ (l.rename f).mult.size) :=
    not_or.2 ⟨not_not.2 rfl, not_not.2 hsize⟩
  rw [ofAcir?_eq, if_neg hagree, hlinear, Option.bind_some, hshape]

/-! ### Constraints of either dialect -/

/-- A shape is about candidate partners of signals of the left norm. -/
theorem within_signals_ofNorms? {l r : Constraint} (h : ofNorms? isCandidate l r = some shape) :
    shape.Within fun s t => s ∈ l.signals ∧ isCandidate s t = true := by
  cases l with
  | r1cs l =>
    cases r with
    | r1cs r => exact within_ofR1cs? h
    | acir r => cases h
  | acir l =>
    cases r with
    | r1cs r => cases h
    | acir r => exact within_ofAcir? h

theorem within_ofNorms? {l r : Constraint} (h : ofNorms? isCandidate l r = some shape) :
    shape.Within fun s t => isCandidate s t = true :=
  (within_signals_ofNorms? h).mono fun _ _ h => h.2

/-- A renaming that meets the demands carries the left constraint onto the right one. -/
theorem isCarriedOnto_of_ofNorms? {l r : Constraint} (hf : IsRenaming f) (hl : l.HasProperKeys)
    (hr : r.HasProperKeys) (h : ofNorms? isCandidate l r = some shape) (hmet : shape.IsMetBy f) :
    l.IsCarriedOnto f r := by
  cases l with
  | r1cs l =>
    cases r with
    | r1cs r => exact isCarriedOnto_of_ofR1cs? hf h hmet
    | acir r => cases h
  | acir l =>
    cases r with
    | r1cs r => cases h
    | acir r => exact rename_eq_of_ofAcir? hf hl hr h hmet

/-- A renaming to candidates that carries one constraint onto the other meets a shape of the two. -/
theorem exists_ofNorms?_of_isCarriedOnto {l r : Constraint} (hf : IsRenaming f) (hl : l.HasProperKeys)
    (h : l.IsCarriedOnto f r) (hcandidate : ∀ s ∈ l.signals, isCandidate s (f s) = true) :
    ∃ shape, ofNorms? isCandidate l r = some shape ∧ shape.IsMetBy f := by
  cases l with
  | r1cs l =>
    cases r with
    | r1cs r => exact exists_ofR1cs?_of_isCarriedOnto hf h hcandidate
    | acir r => exact h.elim
  | acir l =>
    cases r with
    | r1cs r => exact h.elim
    | acir r => exact (show l.rename f = r from h) ▸ exists_ofAcir? hf hl hcandidate

section Prime

variable {F : PrimeField} [Fact F.modulus.Prime] {c d m n : Constraint}

/-- A renaming that meets the demands of a norm pair carries the left norm onto the right one. -/
theorem renameNormal_eq_of_ofNorms? (hf : IsRenaming f) (hc : c.IsReduced F)
    (hm : m ∈ c.normalize F) (hd : d.IsReduced F) (hn : n ∈ d.normalize F)
    (h : ofNorms? isCandidate m n = some shape) (hmet : shape.IsMetBy f) :
    m.renameNormal f = n := by
  have hmreduced := hc.rescaling (Constraint.isRescaling_of_mem_normalize hc.coefficients hm)
  have hnreduced := hd.rescaling (Constraint.isRescaling_of_mem_normalize hd.coefficients hn)
  exact (Constraint.isCarriedOnto_iff_renameNormal_eq hf hc hm hd hn).1
    (isCarriedOnto_of_ofNorms? hf hmreduced.hasProperKeys hnreduced.hasProperKeys h hmet)

/-- The shape of a norm and its image exists where the signals are candidates, and it is met. -/
theorem exists_ofNorms? (hf : IsRenaming f) (hc : c.IsReduced F) (hm : m ∈ c.normalize F)
    (hcandidate : ∀ s ∈ m.signals, isCandidate s (f s) = true) :
    ∃ shape, ofNorms? isCandidate m (m.renameNormal f) = some shape ∧ shape.IsMetBy f := by
  have hmreduced := hc.rescaling (Constraint.isRescaling_of_mem_normalize hc.coefficients hm)
  have hcarried := (Constraint.isCarriedOnto_iff_renameNormal_eq hf hc hm (hc.rename hf)
    ((Constraint.mem_normalize_rename hc hf).2 ⟨m, hm, rfl⟩)).2 rfl
  exact exists_ofNorms?_of_isCarriedOnto hf hmreduced.hasProperKeys hcarried hcandidate

end Prime

/-! ### Allowed partners -/

/-- A restriction, where `none` restricts nothing, lets a signal through. -/
def Allows (allowed : Option (SortedSet Signal)) (t : Signal) : Prop :=
  ∀ set, allowed = some set → t ∈ set

theorem allows_none (t : Signal) : Allows none t := fun _ h => by cases h

theorem allows_meet {a b : Option (SortedSet Signal)} {t : Signal} (ha : Allows a t)
    (hb : Allows b t) : Allows (meet a b) t := by
  cases a with
  | none => exact hb
  | some a =>
    cases b with
    | none => exact ha
    | some b =>
      intro set hset
      cases hset
      unfold SortedSet.inter
      simp [ha a rfl, hb b rfl]

theorem allows_foldl_meet {α : Type} {t : Signal} {g : α → Option (SortedSet Signal)} {l : List α}
    (hl : ∀ e ∈ l, Allows (g e) t) {a : Option (SortedSet Signal)} (ha : Allows a t) :
    Allows (l.foldl (fun allowed e => meet allowed (g e)) a) t := by
  induction l generalizing a with
  | nil => exact ha
  | cons e rest ih =>
    rw [List.forall_mem_cons] at hl
    exact ih hl.2 (allows_meet ha hl.1)

theorem mem_foldl_union {t : Signal} {sets : List (SortedSet Signal)} {acc : SortedSet Signal} :
    t ∈ sets.foldl SortedSet.union acc ↔ t ∈ acc ∨ ∃ set ∈ sets, t ∈ set := by
  induction sets generalizing acc with
  | nil => simp
  | cons set rest ih =>
    rw [List.foldl_cons, ih, SortedSet.mem_union]
    simp only [List.mem_cons, exists_eq_or_imp]
    tauto

/-- The union of the restrictions of several alternatives lets through what one of them does. -/
theorem allows_union {α : Type} {t : Signal} {g : α → Option (SortedSet Signal)} {l : List α}
    {e : α} (he : e ∈ l) (h : Allows (g e) t) :
    Allows ((l.mapM g).map fun sets => sets.foldl SortedSet.union SortedSet.empty) t := by
  intro set hset
  obtain ⟨sets, hsets, rfl⟩ := Option.map_eq_some_iff.1 hset
  obtain ⟨s, hs, hg⟩ := exists_mem_of_mapM hsets he
  exact mem_foldl_union.2 (Or.inr ⟨s, hs, h s hg⟩)

theorem allows_partners? {d : PairDisjunction} {s : Signal}
    (h : PairDisjunction.Holds (fun s t => f s = t) d) : Allows (partners? s d) (f s) := by
  unfold partners?
  split
  · exact allows_none _
  · rename_i hall
    intro set hset
    cases hset
    obtain ⟨pair, hpair, hf⟩ := h
    have hs : pair.1 = s := by
      have hevery := (not_or.1 hall).2
      rw [Bool.not_eq_true', Bool.not_eq_false, List.all_eq_true] at hevery
      exact of_decide_eq_true (hevery pair hpair)
    rw [SortedSet.mem_ofList, ← hs, hf]
    exact List.mem_map_of_mem hpair

theorem allows_partnersInAll? {s : Signal}
    (h : PairDisjunction.AllHold (fun s t => f s = t) ds) : Allows (partnersInAll? s ds) (f s) :=
  allows_foldl_meet (fun d hd => allows_partners? (h d hd)) (allows_none _)

/-- A renaming that meets a shape sends every signal to an allowed partner. -/
theorem allows_allowed? (hmet : shape.IsMetBy f) (s : Signal) : Allows (shape.allowed? s) (f s) := by
  refine allows_foldl_meet (fun choice hchoice => ?_) (allows_partnersInAll? hmet.common)
  obtain ⟨ds, hds, hall⟩ := hmet.choices choice hchoice
  exact allows_union hds (allows_partnersInAll? hall)

/-! ## Pairs of members -/

/-- The pairs of members of two lists that have a shape. -/
def shapedPairs (shape? : Nat → Nat → Option PairShape) (ls rs : List Nat) :
    List ((Nat × Nat) × PairShape) :=
  ls.flatMap fun l => rs.filterMap fun r => (shape? l r).map fun shape => ((l, r), shape)

variable {shape? : Nat → Nat → Option PairShape} {ls rs : List Nat}

theorem mem_shapedPairs {l r : Nat} {shape : PairShape} :
    ((l, r), shape) ∈ shapedPairs shape? ls rs ↔ l ∈ ls ∧ r ∈ rs ∧ shape? l r = some shape := by
  simp only [shapedPairs, List.mem_flatMap, List.mem_filterMap, Option.map_eq_some_iff,
    Prod.mk.injEq]
  constructor
  · rintro ⟨l, hl, r, hr, shape, hshape, ⟨rfl, rfl⟩, rfl⟩
    exact ⟨hl, hr, hshape⟩
  · rintro ⟨hl, hr, hshape⟩
    exact ⟨l, hl, r, hr, shape, hshape, ⟨rfl, rfl⟩, rfl⟩

theorem nodup_map_shapedPairs (hls : ls.Nodup) (hrs : rs.Nodup) :
    ((shapedPairs shape? ls rs).map (·.1)).Nodup := by
  unfold shapedPairs
  rw [List.map_flatMap, List.nodup_flatMap]
  constructor
  · intro l _
    rw [List.map_filterMap]
    refine hrs.filterMap fun r r' p hr hr' => ?_
    simp only [Option.map_map, Option.mem_def, Option.map_eq_some_iff, Function.comp_apply] at hr hr'
    obtain ⟨shape, -, rfl⟩ := hr
    obtain ⟨shape', -, heq⟩ := hr'
    exact (congrArg Prod.snd heq).symm
  · refine hls.imp fun {l l'} hne p hp hp' => hne ?_
    simp only [List.mem_map, List.mem_filterMap, Option.map_eq_some_iff] at hp hp'
    obtain ⟨_, ⟨r, -, shape, -, rfl⟩, rfl⟩ := hp
    obtain ⟨_, ⟨r', -, shape', -, rfl⟩, heq⟩ := hp'
    exact (congrArg Prod.fst heq).symm

end PairShape

end CircuitEquiv
