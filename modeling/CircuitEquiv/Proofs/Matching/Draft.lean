-- SUMMARY: What the clauses of a draft say about pair variables, and that an assignment of the pairs that obeys it can be extended to a model.
import CircuitEquiv.Matching.Draft
import CircuitEquiv.Proofs.Data.Numbering
import CircuitEquiv.Proofs.Matching.PairShape
import CircuitEquiv.Proofs.Sat.Cardinality

/-!
# The meaning of drafts

Every operation on a draft adds clauses and ids and leaves the older ones alone. Its meaning is said
twice: every assignment of the variables under which the clauses hold obeys a condition on the pairs,
and where a relation of pairs obeys the condition, an assignment that follows the relation can be
changed on new variables so that the clauses hold.
-/

namespace CircuitEquiv.Draft

variable {Q T : PairVariable → Prop} {d d' d'' : Draft} {v : Nat → Bool} {p : PairVariable}

/-- Every clause of a draft holds. -/
def Holds (d : Draft) (v : Nat → Bool) : Prop := Clause.allHold d.clauses.toList v = true

/-- An assignment makes the variable of a pair true. -/
def Selects (d : Draft) (v : Nat → Bool) (p : PairVariable) : Prop :=
  ∃ id, d.vars.get? p = some id ∧ v id = true

/-- The pair has a variable. -/
def Binds (d : Draft) (p : PairVariable) : Prop := ∃ id, d.vars.get? p = some id

/-- No pair has two variables, and the clauses mention variables that have been issued. -/
structure WellFormed (d : Draft) : Prop where
  functional : d.vars.IsFunctional
  below : Clause.AllBelow d.vars.nextId d.clauses.toList

/-! ## Growth -/

/-- One draft is part of another, whose further pairs are all in `Q`. -/
structure Grows (Q : PairVariable → Prop) (d d' : Draft) : Prop where
  vars : d.vars.IsExtendedBy d'.vars
  holds : ∀ v, d'.Holds v → d.Holds v
  wellFormed : d.WellFormed → d'.WellFormed
  binds : ∀ p, d'.Binds p → d.Binds p ∨ Q p

theorem Grows.refl (Q : PairVariable → Prop) (d : Draft) : Grows Q d d :=
  ⟨.refl _, fun _ h => h, id, fun _ h => Or.inl h⟩

theorem Grows.trans (h : Grows Q d d') (h' : Grows Q d' d'') : Grows Q d d'' where
  vars := h.vars.trans h'.vars
  holds := fun v hv => h.holds v (h'.holds v hv)
  wellFormed := fun hd => h'.wellFormed (h.wellFormed hd)
  binds := fun p hp => (h'.binds p hp).elim (h.binds p) Or.inr

theorem Grows.selects (h : Grows Q d d') (hp : d.Selects v p) : d'.Selects v p := by
  obtain ⟨id, hid, hv⟩ := hp
  exact ⟨id, h.vars.get? p id hid, hv⟩

theorem Grows.binds_of_binds (h : Grows Q d d') (hp : d.Binds p) : d'.Binds p := by
  obtain ⟨id, hid⟩ := hp
  exact ⟨id, h.vars.get? p id hid⟩

/-- What is selected later was selected before, if it had a variable. -/
theorem Grows.selects_of_binds (h : Grows Q d d') (hp : d.Binds p) (hs : d'.Selects v p) :
    d.Selects v p := by
  obtain ⟨id, hid⟩ := hp
  obtain ⟨id', hid', hv⟩ := hs
  rw [h.vars.get? p id hid] at hid'
  cases hid'
  exact ⟨id, hid, hv⟩

theorem Grows.lt_nextId (h : Grows Q d d') {n : Nat} (hn : n < d.vars.nextId) : n < d'.vars.nextId :=
  Nat.lt_of_lt_of_le hn h.vars.nextId

theorem grows_foldl {α : Type} {step : Draft → α → Draft} {l : List α}
    (hstep : ∀ d' a, d.vars.nextId ≤ d'.vars.nextId → a ∈ l → Grows Q d' (step d' a)) :
    Grows Q d (l.foldl step d) := by
  induction l generalizing d with
  | nil => exact .refl Q d
  | cons a rest ih =>
    have hfirst := hstep d a (Nat.le_refl _) List.mem_cons_self
    refine hfirst.trans (ih fun d' b hd' hb => hstep d' b ?_ (List.mem_cons_of_mem _ hb))
    exact Nat.le_trans hfirst.vars.nextId hd'

theorem grows_addClauses {cs : List Clause} (hcs : Clause.AllBelow d.vars.nextId cs) :
    Grows Q d (d.addClauses cs) where
  vars := .refl _
  holds := fun v hv => by
    unfold Holds addClauses at hv
    rw [Array.toList_appendList, Clause.allHold_append] at hv
    exact hv.1
  wellFormed := fun h => ⟨h.functional, by
    unfold addClauses
    rw [Array.toList_appendList]
    exact h.below.append hcs⟩
  binds := fun _ h => Or.inl h

theorem holds_addClauses {cs : List Clause} :
    (d.addClauses cs).Holds v ↔ d.Holds v ∧ Clause.allHold cs v = true := by
  unfold Holds addClauses
  rw [Array.toList_appendList, Clause.allHold_append]

theorem addClause_eq (d : Draft) (c : Clause) : d.addClause c = d.addClauses [c] := by
  simp [addClause, addClauses]

theorem grows_addClause {c : Clause} (hc : ∀ l ∈ c, l.var < d.vars.nextId) :
    Grows Q d (d.addClause c) := by
  rw [addClause_eq]
  exact grows_addClauses fun c' hc' => by rwa [List.mem_singleton.1 hc']

theorem holds_addClause {c : Clause} : (d.addClause c).Holds v ↔ d.Holds v ∧ c.holds v = true := by
  rw [addClause_eq, holds_addClauses, Clause.allHold_cons]
  simp

/-! ## Models -/

/-- An assignment under which the clauses hold and that follows a relation of pairs. -/
structure Models (d : Draft) (T : PairVariable → Prop) (v : Nat → Bool) : Prop where
  follows : ∀ p id, d.vars.get? p = some id → (v id = true ↔ T p)
  holds : d.Holds v

/-- An assignment can be changed on the variables that are new in `d'` to a model of it. -/
def Extensible (d d' : Draft) (T : PairVariable → Prop) (v : Nat → Bool) : Prop :=
  ∃ w, AgreesBelow d.vars.nextId v w ∧ d'.Models T w

theorem Extensible.trans (h : d.Extensible d' T v)
    (h' : ∀ w, AgreesBelow d.vars.nextId v w → d'.Models T w → d'.Extensible d'' T w)
    (hle : d.vars.nextId ≤ d'.vars.nextId) : d.Extensible d'' T v := by
  obtain ⟨w, hw, hmodels⟩ := h
  obtain ⟨u, hu, hmodels'⟩ := h' w hw hmodels
  exact ⟨u, hw.trans hu hle, hmodels'⟩

theorem Models.selects_iff (h : d.Models T v) (hp : d.Binds p) : d.Selects v p ↔ T p := by
  obtain ⟨id, hid⟩ := hp
  rw [← h.follows p id hid]
  constructor
  · rintro ⟨id', hid', hv⟩
    rw [hid] at hid'
    cases hid'
    exact hv
  · exact fun hv => ⟨id, hid, hv⟩

theorem Models.of_agreesBelow (h : d.Models T v) (hd : d.WellFormed) {w : Nat → Bool}
    (hw : AgreesBelow d.vars.nextId v w) : d.Models T w where
  follows := fun p id hid => by rw [hw id (Numbering.lt_nextId hid), h.follows p id hid]
  holds := by
    unfold Holds
    rw [Clause.allHold_of_agreesBelow hw hd.below]
    exact h.holds

theorem Models.addClauses (h : d.Models T v) {cs : List Clause} (hcs : Clause.allHold cs v = true) :
    (d.addClauses cs).Models T v := ⟨h.follows, holds_addClauses.2 ⟨h.holds, hcs⟩⟩

theorem Models.addClause (h : d.Models T v) {c : Clause} (hc : c.holds v = true) :
    (d.addClause c).Models T v := ⟨h.follows, holds_addClause.2 ⟨h.holds, hc⟩⟩

/-! ## The empty draft -/

theorem not_binds_empty (p : PairVariable) : ¬ Draft.empty.Binds p := by
  rintro ⟨id, hid⟩
  simp [Draft.empty] at hid

theorem wellFormed_empty : Draft.empty.WellFormed :=
  ⟨Numbering.isFunctional_startingAt 1, by simp [Draft.empty, Clause.AllBelow]⟩

theorem models_empty : Draft.empty.Models T v :=
  ⟨fun p id h => absurd ⟨id, h⟩ (not_binds_empty p), by simp [Draft.empty, Draft.Holds]⟩

/-! ## Literals -/

/-- The literal of a pair that has a variable. -/
def literalOf (d : Draft) (p : PairVariable) : Literal := .positive ((d.vars.get? p).getD 0)

theorem holds_literalOf (hp : d.Binds p) : (d.literalOf p).holds v = true ↔ d.Selects v p := by
  obtain ⟨id, hid⟩ := hp
  simp [literalOf, Selects, hid]

theorem var_literalOf_lt (hp : d.Binds p) : (d.literalOf p).var < d.vars.nextId := by
  obtain ⟨id, hid⟩ := hp
  simp [literalOf, hid, Numbering.lt_nextId hid]

theorem Grows.literalOf (h : Grows Q d d') (hp : d.Binds p) : d'.literalOf p = d.literalOf p := by
  obtain ⟨id, hid⟩ := hp
  simp [Draft.literalOf, hid, h.vars.get? p id hid]

theorem binds_literal (d : Draft) (p : PairVariable) : (d.literal p).2.Binds p :=
  ⟨_, Numbering.get?_assign_self d.vars p⟩

theorem literal_fst (d : Draft) (p : PairVariable) :
    (d.literal p).1 = (d.literal p).2.literalOf p := by
  unfold literalOf literal
  rw [Numbering.get?_assign_self]
  rfl

theorem grows_literal (d : Draft) (p : PairVariable) : Grows (· = p) d (d.literal p).2 where
  vars := Numbering.isExtendedBy_assign d.vars p
  holds := fun _ h => h
  wellFormed := fun h => ⟨h.functional.assign p,
    h.below.mono (Numbering.isExtendedBy_assign d.vars p).nextId⟩
  binds := fun q hq => by
    by_cases hqp : q = p
    · exact Or.inr hqp
    · obtain ⟨id, hid⟩ := hq
      exact Or.inl ⟨id, by rwa [← Numbering.get?_assign_of_ne hqp]⟩

theorem Grows.mono {Q' : PairVariable → Prop} (h : Grows Q d d') (hQ : ∀ p, Q p → Q' p) :
    Grows Q' d d' :=
  ⟨h.vars, h.holds, h.wellFormed, fun p hp => (h.binds p hp).imp_right (hQ p)⟩

/-- A new variable is given the value of its pair. -/
theorem extensible_literal (hd : d.WellFormed) (h : d.Models T v) (p : PairVariable) :
    d.Extensible (d.literal p).2 T v := by
  classical
  rcases Numbering.assign_fst d.vars p with hp | ⟨hp, hid⟩
  · have hsame : (d.literal p).2 = d := by
      unfold literal Numbering.assign
      rw [hp]
    rw [hsame]
    exact ⟨v, .refl _ _, h⟩
  · have hagrees := AgreesBelow.update v d.vars.nextId (decide (T p))
    refine ⟨_, hagrees, fun q id hq => ?_, (h.of_agreesBelow hd hagrees).holds⟩
    by_cases hqp : q = p
    · subst hqp
      replace hq : (d.vars.assign q).2.get? q = some id := hq
      rw [Numbering.get?_assign_self, hid] at hq
      cases hq
      rw [Function.update_self, decide_eq_true_eq]
    · replace hq : (d.vars.assign p).2.get? q = some id := hq
      rw [Numbering.get?_assign_of_ne hqp] at hq
      exact (h.of_agreesBelow hd hagrees).follows q id hq

theorem literals_cons (d : Draft) (p : PairVariable) (rest : List PairVariable) :
    d.literals (p :: rest) =
      ((d.literal p).1 :: ((d.literal p).2.literals rest).1, ((d.literal p).2.literals rest).2) := rfl

theorem grows_literals (d : Draft) (ps : List PairVariable) :
    Grows (· ∈ ps) d (d.literals ps).2 := by
  induction ps generalizing d with
  | nil => exact .refl _ _
  | cons p rest ih =>
    rw [literals_cons]
    exact ((grows_literal d p).mono fun q hq => hq ▸ List.mem_cons_self).trans
      ((ih _).mono fun q hq => List.mem_cons_of_mem _ hq)

theorem binds_literals {ps : List PairVariable} (hp : p ∈ ps) : (d.literals ps).2.Binds p := by
  induction ps generalizing d with
  | nil => cases hp
  | cons q rest ih =>
    rw [literals_cons]
    rcases List.mem_cons.1 hp with rfl | hp
    · exact (grows_literals _ rest).binds_of_binds (binds_literal d p)
    · exact ih hp

theorem literals_fst (d : Draft) (ps : List PairVariable) :
    (d.literals ps).1 = ps.map (d.literals ps).2.literalOf := by
  induction ps generalizing d with
  | nil => rfl
  | cons p rest ih =>
    rw [literals_cons, List.map_cons, ih, literal_fst,
      (grows_literals _ rest).literalOf (binds_literal d p)]

theorem extensible_literals (hd : d.WellFormed) (h : d.Models T v) (ps : List PairVariable) :
    d.Extensible (d.literals ps).2 T v := by
  induction ps generalizing d v with
  | nil => exact ⟨v, .refl _ _, h⟩
  | cons p rest ih =>
    rw [literals_cons]
    have hgrows := grows_literal d p
    exact (extensible_literal hd h p).trans (fun w _ hw => ih (hgrows.wellFormed hd) hw)
      hgrows.vars.nextId

/-! ## Auxiliary variables -/

theorem auxiliaries_succ (d : Draft) (n : Nat) :
    d.auxiliaries (n + 1) =
      ((d.auxiliary).1 :: ((d.auxiliary).2.auxiliaries n).1, ((d.auxiliary).2.auxiliaries n).2) := rfl

theorem grows_auxiliary (d : Draft) : Grows Q d (d.auxiliary).2 where
  vars := Numbering.isExtendedBy_fresh d.vars
  holds := fun _ h => h
  wellFormed := fun h => ⟨h.functional.fresh, h.below.mono (Numbering.isExtendedBy_fresh d.vars).nextId⟩
  binds := fun q ⟨id, hid⟩ => Or.inl ⟨id, by rwa [← Numbering.get?_fresh]⟩

theorem grows_auxiliaries (d : Draft) (n : Nat) : Grows Q d (d.auxiliaries n).2 := by
  induction n generalizing d with
  | zero => exact .refl _ _
  | succ n ih =>
    rw [auxiliaries_succ]
    exact (grows_auxiliary d).trans (ih _)

theorem nextId_auxiliaries (d : Draft) (n : Nat) :
    (d.auxiliaries n).2.vars.nextId = d.vars.nextId + n := by
  induction n generalizing d with
  | zero => rfl
  | succ n ih =>
    rw [auxiliaries_succ, ih]
    have hnext : (d.auxiliary).2.vars.nextId = d.vars.nextId + 1 := Numbering.nextId_fresh d.vars
    omega

theorem auxiliaries_fst (d : Draft) (n : Nat) :
    (d.auxiliaries n).1 = (List.range n).map fun i => Literal.positive (d.vars.nextId + i) := by
  induction n generalizing d with
  | zero => rfl
  | succ n ih =>
    have hnext : (d.auxiliary).2.vars.nextId = d.vars.nextId + 1 := Numbering.nextId_fresh d.vars
    rw [auxiliaries_succ, ih, hnext, List.range_succ_eq_map, List.map_cons, List.map_map]
    refine List.cons_eq_cons.2 ⟨rfl, List.map_congr_left fun i _ => ?_⟩
    simp only [Function.comp_apply]
    congr 1
    omega

/-- Auxiliary variables can be given any values. -/
theorem extensible_auxiliaries (hd : d.WellFormed) (h : d.Models T v) (n : Nat) (b : Nat → Bool) :
    ∃ w, AgreesBelow d.vars.nextId v w ∧ (d.auxiliaries n).2.Models T w ∧
      ∀ i, w (d.vars.nextId + i) = b i := by
  let w : Nat → Bool := fun i => if i < d.vars.nextId then v i else b (i - d.vars.nextId)
  have hagrees : AgreesBelow d.vars.nextId v w := fun i hi => if_pos hi
  have hmodels := h.of_agreesBelow hd hagrees
  have hget : ∀ m (e : Draft) q, (e.auxiliaries m).2.vars.get? q = e.vars.get? q := by
    intro m
    induction m with
    | zero => exact fun e q => rfl
    | succ m ih => exact fun e q => (ih _ q).trans (Numbering.get?_fresh e.vars q)
  have hclauses : ∀ m (e : Draft), (e.auxiliaries m).2.clauses = e.clauses := by
    intro m
    induction m with
    | zero => exact fun e => rfl
    | succ m ih => exact fun e => ih _
  refine ⟨w, hagrees, ⟨fun q id hq => hmodels.follows q id (hget n d q ▸ hq), ?_⟩, fun i => ?_⟩
  · unfold Holds
    rw [hclauses]
    exact hmodels.holds
  · simp [w]

/-! ## Cardinality -/

theorem grows_addAtMostOne (encoding : AtMostOne) {lits : List Literal}
    (h : ∀ l ∈ lits, l.var < d.vars.nextId) : Grows Q d (d.addAtMostOne encoding lits) where
  vars := Numbering.isExtendedBy_skipTo d.vars _
  holds := fun v hv => (holds_addClauses.1 hv).1
  wellFormed := fun hd => by
    refine ⟨hd.functional.skipTo _, ?_⟩
    have hnext : (d.addAtMostOne encoding lits).vars.nextId =
        max d.vars.nextId (encoding.clauses lits d.vars.nextId).2 := Numbering.nextId_skipTo d.vars _
    have hclauses : (d.addAtMostOne encoding lits).clauses.toList =
        d.clauses.toList ++ (encoding.clauses lits d.vars.nextId).1 := Array.toList_appendList ..
    rw [hnext, hclauses]
    exact (hd.below.mono (Nat.le_max_left _ _)).append
      ((AtMostOne.allBelow_clauses encoding h).mono (Nat.le_max_right _ _))
  binds := fun q ⟨id, hid⟩ => Or.inl ⟨id, by rwa [← Numbering.get?_skipTo]⟩

theorem atMostOneHolds_of_addAtMostOne {encoding : AtMostOne} {lits : List Literal}
    (h : (d.addAtMostOne encoding lits).Holds v) : AtMostOneHolds v lits :=
  AtMostOne.atMostOneHolds_of_clauses (holds_addClauses.1 h).2

theorem extensible_addAtMostOne (hd : d.WellFormed) (h : d.Models T v) (encoding : AtMostOne)
    {lits : List Literal} (hlits : ∀ l ∈ lits, l.var < d.vars.nextId) (hone : AtMostOneHolds v lits) :
    d.Extensible (d.addAtMostOne encoding lits) T v := by
  obtain ⟨w, hw, hclauses⟩ := AtMostOne.exists_clauses encoding hlits hone
  have hmodels := h.of_agreesBelow hd hw
  refine ⟨w, hw, fun q id hq => ?_, holds_addClauses.2 ⟨hmodels.holds, hclauses⟩⟩
  replace hq : (d.vars.skipTo _).get? q = some id := hq
  rw [Numbering.get?_skipTo] at hq
  exact hmodels.follows q id hq

theorem grows_addExactlyOne (encoding : AtMostOne) {lits : List Literal}
    (h : ∀ l ∈ lits, l.var < d.vars.nextId) : Grows Q d (d.addExactlyOne encoding lits) :=
  (grows_addClause h).trans (grows_addAtMostOne encoding h)

/-- The meaning of an exactly-one constraint. -/
theorem exactlyOne_of_holds {encoding : AtMostOne} {lits : List Literal}
    (h : (d.addExactlyOne encoding lits).Holds v) :
    (∃ l ∈ lits, l.holds v = true) ∧ AtMostOneHolds v lits :=
  ⟨Clause.holds_iff.1 (holds_addClause.1 (holds_addClauses.1 h).1).2,
    atMostOneHolds_of_addAtMostOne h⟩

theorem extensible_addExactlyOne (hd : d.WellFormed) (h : d.Models T v) (encoding : AtMostOne)
    {lits : List Literal} (hlits : ∀ l ∈ lits, l.var < d.vars.nextId)
    (hsome : ∃ l ∈ lits, l.holds v = true) (hone : AtMostOneHolds v lits) :
    d.Extensible (d.addExactlyOne encoding lits) T v :=
  extensible_addAtMostOne ((grows_addClause (Q := fun _ => True) hlits).wellFormed hd)
    (h.addClause (Clause.holds_iff.2 hsome)) encoding hlits hone

/-! ### Groups of literals -/

/-- A constraint on literals that can be added to drafts, and what it says of them. -/
structure Expresses (add : Draft → List Literal → Draft)
    (P : (Nat → Bool) → List Literal → Prop) : Prop where
  grows : ∀ (Q : PairVariable → Prop) (d : Draft) (lits : List Literal),
    (∀ l ∈ lits, l.var < d.vars.nextId) → Grows Q d (add d lits)
  holds : ∀ (d : Draft) (lits : List Literal) (v : Nat → Bool), (add d lits).Holds v → P v lits
  extensible : ∀ (d : Draft) (lits : List Literal) (T : PairVariable → Prop) (v : Nat → Bool),
    d.WellFormed → d.Models T v → (∀ l ∈ lits, l.var < d.vars.nextId) → P v lits →
      d.Extensible (add d lits) T v
  congr : ∀ (next : Nat) (v w : Nat → Bool) (lits : List Literal), AgreesBelow next v w →
    (∀ l ∈ lits, l.var < next) → P v lits → P w lits

namespace Expresses

variable {add : Draft → List Literal → Draft} {P : (Nat → Bool) → List Literal → Prop}
  {groups : List (List Literal)} (h : Expresses add P)

include h

theorem grows_foldl (hvar : ∀ lits ∈ groups, ∀ l ∈ lits, l.var < d.vars.nextId) :
    Grows Q d (groups.foldl add d) :=
  Draft.grows_foldl fun _ lits hd' hlits =>
    h.grows Q _ lits fun l hl => Nat.lt_of_lt_of_le (hvar lits hlits l hl) hd'

theorem of_holds_foldl (hvar : ∀ lits ∈ groups, ∀ l ∈ lits, l.var < d.vars.nextId)
    (hholds : (groups.foldl add d).Holds v) : ∀ lits ∈ groups, P v lits := by
  induction groups generalizing d with
  | nil => exact fun _ hlits => absurd hlits List.not_mem_nil
  | cons first rest ih =>
    obtain ⟨hfirst, hvars⟩ := List.forall_mem_cons.1 hvar
    have hgrows := h.grows (fun _ => True) d first hfirst
    have hvars' : ∀ lits ∈ rest, ∀ l ∈ lits, l.var < (add d first).vars.nextId :=
      fun lits hlits l hl => hgrows.lt_nextId (hvars lits hlits l hl)
    have hrest := (h.grows_foldl (Q := fun _ => True) hvars').holds v hholds
    exact List.forall_mem_cons.2 ⟨h.holds d first v hrest, ih hvars' hholds⟩

theorem extensible_foldl (hd : d.WellFormed) (hmodels : d.Models T v)
    (hvar : ∀ lits ∈ groups, ∀ l ∈ lits, l.var < d.vars.nextId) (hP : ∀ lits ∈ groups, P v lits) :
    d.Extensible (groups.foldl add d) T v := by
  induction groups generalizing d v with
  | nil => exact ⟨v, .refl _ _, hmodels⟩
  | cons first rest ih =>
    obtain ⟨hfirst, hvars⟩ := List.forall_mem_cons.1 hvar
    obtain ⟨hPfirst, hPrest⟩ := List.forall_mem_cons.1 hP
    have hgrows := h.grows (fun _ => True) d first hfirst
    refine (h.extensible d first T v hd hmodels hfirst hPfirst).trans (fun w hw hmodels' => ?_)
      hgrows.vars.nextId
    exact ih (hgrows.wellFormed hd) hmodels'
      (fun lits hlits l hl => hgrows.lt_nextId (hvars lits hlits l hl))
      fun lits hlits => h.congr _ v w lits hw (hvars lits hlits) (hPrest lits hlits)

end Expresses

theorem expresses_addAtMostOne (encoding : Nat → AtMostOne) :
    Expresses (fun d lits => d.addAtMostOne (encoding lits.length) lits) AtMostOneHolds where
  grows _ _ _ hvar := grows_addAtMostOne _ hvar
  holds _ _ _ h := atMostOneHolds_of_addAtMostOne h
  extensible _ _ _ _ hd hmodels hvar hone := extensible_addAtMostOne hd hmodels _ hvar hone
  congr _ _ _ _ hw hvar hone := (atMostOneHolds_of_agreesBelow hw hvar).2 hone

theorem expresses_addExactlyOne (encoding : Nat → AtMostOne) :
    Expresses (fun d lits => d.addExactlyOne (encoding lits.length) lits)
      fun v lits => (∃ l ∈ lits, l.holds v = true) ∧ AtMostOneHolds v lits where
  grows _ _ _ hvar := grows_addExactlyOne _ hvar
  holds _ _ _ h := exactlyOne_of_holds h
  extensible _ _ _ _ hd hmodels hvar h := extensible_addExactlyOne hd hmodels _ hvar h.1 h.2
  congr _ _ _ _ hw hvar h := by
    obtain ⟨⟨l, hl, hlit⟩, hone⟩ := h
    refine ⟨⟨l, hl, ?_⟩, (atMostOneHolds_of_agreesBelow hw hvar).2 hone⟩
    rw [Literal.holds_of_agreesBelow hw (hvar l hl), hlit]

/-- The exactly-one constraints of several groups of literals. -/
def addGroups (encoding : Nat → AtMostOne) (d : Draft) (groups : List (List Literal)) : Draft :=
  groups.foldl (fun d lits => d.addExactlyOne (encoding lits.length) lits) d

theorem grows_addGroups (encoding : Nat → AtMostOne) {groups : List (List Literal)}
    (h : ∀ lits ∈ groups, ∀ l ∈ lits, l.var < d.vars.nextId) :
    Grows Q d (d.addGroups encoding groups) := (expresses_addExactlyOne encoding).grows_foldl h

theorem exactlyOne_of_addGroups {encoding : Nat → AtMostOne} {groups : List (List Literal)}
    (hvar : ∀ lits ∈ groups, ∀ l ∈ lits, l.var < d.vars.nextId)
    (h : (d.addGroups encoding groups).Holds v) :
    ∀ lits ∈ groups, (∃ l ∈ lits, l.holds v = true) ∧ AtMostOneHolds v lits :=
  (expresses_addExactlyOne encoding).of_holds_foldl hvar h

theorem extensible_addGroups (hd : d.WellFormed) (h : d.Models T v) (encoding : Nat → AtMostOne)
    {groups : List (List Literal)} (hvar : ∀ lits ∈ groups, ∀ l ∈ lits, l.var < d.vars.nextId)
    (hone : ∀ lits ∈ groups, (∃ l ∈ lits, l.holds v = true) ∧ AtMostOneHolds v lits) :
    d.Extensible (d.addGroups encoding groups) T v :=
  (expresses_addExactlyOne encoding).extensible_foldl hd h hvar hone

/-! ### Groups of pairs -/

/-- Exactly one pair of a list is in a relation. -/
def IsUnique (T : PairVariable → Prop) (ps : List PairVariable) : Prop :=
  (∃ p ∈ ps, T p) ∧ ∀ p ∈ ps, ∀ q ∈ ps, T p → T q → p = q

theorem Grows.isUnique (h : Grows Q d d') {ps : List PairVariable} (hbinds : ∀ p ∈ ps, d.Binds p)
    (hunique : IsUnique (d.Selects v) ps) : IsUnique (d'.Selects v) ps := by
  obtain ⟨⟨p, hp, hselects⟩, hone⟩ := hunique
  refine ⟨⟨p, hp, h.selects hselects⟩, fun q hq r hr hq' hr' => ?_⟩
  exact hone q hq r hr (h.selects_of_binds (hbinds q hq) hq') (h.selects_of_binds (hbinds r hr) hr')

theorem literalOf_injective {q : PairVariable} (hp : d.Binds p) (hq : d.Binds q)
    (h : d.literalOf p = d.literalOf q) : p = q := by
  obtain ⟨id, hid⟩ := hp
  obtain ⟨id', hid'⟩ := hq
  simp only [literalOf, hid, hid', Option.getD_some, Literal.positive, Literal.mk.injEq,
    and_true] at h
  subst h
  exact Numbering.eq_of_get? hid hid'

theorem eq_of_atMostOneHolds {lits : List Literal} (h : AtMostOneHolds v lits) {l m : Literal}
    (hl : l ∈ lits) (hm : m ∈ lits) (hl' : l.holds v = true) (hm' : m.holds v = true) : l = m := by
  by_contra hne
  have hpair := List.Pairwise.forall_of_forall_of_flip (R := fun l m : Literal =>
    l ≠ m → l.holds v = true → m.holds v = true → False) (fun _ _ hself => absurd rfl hself)
    (h.imp fun hlm _ hl hm => by simp [hlm hl] at hm)
    (h.imp fun hlm _ hm hl => by simp [hlm hl] at hm)
  exact hpair hl hm hne hl' hm'

/-- Of pairs with at most one literal that holds, at most one is selected. -/
theorem eq_of_selects {ps : List PairVariable} (hbinds : ∀ p ∈ ps, d.Binds p)
    (hone : AtMostOneHolds v (ps.map d.literalOf)) :
    ∀ p ∈ ps, ∀ q ∈ ps, d.Selects v p → d.Selects v q → p = q := fun p hp q hq hpv hqv =>
  literalOf_injective (hbinds p hp) (hbinds q hq)
    (eq_of_atMostOneHolds hone (List.mem_map_of_mem hp) (List.mem_map_of_mem hq)
      ((holds_literalOf (hbinds p hp)).2 hpv) ((holds_literalOf (hbinds q hq)).2 hqv))

theorem Models.holds_literalOf_iff (h : d.Models T v) (hp : d.Binds p) :
    (d.literalOf p).holds v = true ↔ T p := (holds_literalOf hp).trans (h.selects_iff hp)

theorem atMostOneHolds_of_eq {ps : List PairVariable} (h : d.Models T v)
    (hbinds : ∀ p ∈ ps, d.Binds p) (hnodup : ps.Nodup)
    (hT : ∀ p ∈ ps, ∀ q ∈ ps, T p → T q → p = q) : AtMostOneHolds v (ps.map d.literalOf) := by
  unfold AtMostOneHolds
  rw [List.pairwise_map]
  refine hnodup.imp_of_mem fun {p q} hp hq hne hpv => ?_
  rw [Bool.eq_false_iff]
  exact fun hqv => hne (hT p hp q hq ((h.holds_literalOf_iff (hbinds p hp)).1 hpv)
    ((h.holds_literalOf_iff (hbinds q hq)).1 hqv))

/-- Of the literals of pairs exactly one holds when exactly one of the pairs is selected. -/
theorem isUnique_of_exactlyOne {ps : List PairVariable} (hbinds : ∀ p ∈ ps, d.Binds p)
    (hsome : ∃ l ∈ ps.map d.literalOf, l.holds v = true)
    (hone : AtMostOneHolds v (ps.map d.literalOf)) : IsUnique (d.Selects v) ps := by
  refine ⟨?_, eq_of_selects hbinds hone⟩
  obtain ⟨l, hl, hlit⟩ := hsome
  obtain ⟨p, hp, rfl⟩ := List.mem_map.1 hl
  exact ⟨p, hp, (holds_literalOf (hbinds p hp)).1 hlit⟩

theorem exactlyOne_of_isUnique {ps : List PairVariable} (h : d.Models T v)
    (hbinds : ∀ p ∈ ps, d.Binds p) (hnodup : ps.Nodup) (hT : IsUnique T ps) :
    (∃ l ∈ ps.map d.literalOf, l.holds v = true) ∧ AtMostOneHolds v (ps.map d.literalOf) := by
  refine ⟨?_, atMostOneHolds_of_eq h hbinds hnodup hT.2⟩
  obtain ⟨p, hp, hTp⟩ := hT.1
  exact ⟨_, List.mem_map_of_mem hp, (h.holds_literalOf_iff (hbinds p hp)).2 hTp⟩

/-! ## Disjunctions -/

variable {guard : Literal} {pairs : PairDisjunction} {ds : List PairDisjunction}

/-- The variables of the pairs of a disjunction. -/
def pairVariables (pairs : PairDisjunction) : List PairVariable :=
  pairs.map fun pair => .signal pair.1 pair.2

theorem addDisjunction_eq (d : Draft) (guard : Literal) (pairs : PairDisjunction) :
    d.addDisjunction guard pairs =
      (d.literals (pairVariables pairs)).2.addClause
        (guard.negate :: (d.literals (pairVariables pairs)).1) := rfl

theorem grows_addDisjunction (hguard : guard.var < d.vars.nextId)
    (hpairs : ∀ pair ∈ pairs, Q (.signal pair.1 pair.2)) :
    Grows Q d (d.addDisjunction guard pairs) := by
  rw [addDisjunction_eq]
  have hliterals : Grows Q d (d.literals (pairVariables pairs)).2 :=
    (grows_literals d (pairVariables pairs)).mono fun p hp => by
      obtain ⟨pair, hpair, rfl⟩ := List.mem_map.1 hp
      exact hpairs pair hpair
  refine hliterals.trans (grows_addClause fun l hl => ?_)
  rcases List.mem_cons.1 hl with rfl | hl
  · exact hliterals.lt_nextId hguard
  · rw [literals_fst] at hl
    obtain ⟨p, hp, rfl⟩ := List.mem_map.1 hl
    exact var_literalOf_lt (binds_literals hp)

theorem holds_of_addDisjunction (h : (d.addDisjunction guard pairs).Holds v)
    (hguard : guard.holds v = true) :
    PairDisjunction.Holds (fun s t => (d.addDisjunction guard pairs).Selects v (.signal s t)) pairs := by
  rw [addDisjunction_eq] at h
  have hclause := Clause.holds_negate_cons.1 (holds_addClause.1 h).2 hguard
  obtain ⟨l, hl, hlit⟩ := Clause.holds_iff.1 hclause
  rw [literals_fst] at hl
  obtain ⟨p, hp, rfl⟩ := List.mem_map.1 hl
  have hselects := (holds_literalOf (binds_literals hp)).1 hlit
  obtain ⟨pair, hpair, rfl⟩ := List.mem_map.1 hp
  exact ⟨pair, hpair, hselects⟩

theorem extensible_addDisjunction (hd : d.WellFormed) (h : d.Models T v)
    (hvar : guard.var < d.vars.nextId)
    (hguard : guard.holds v = true → PairDisjunction.Holds (fun s t => T (.signal s t)) pairs) :
    d.Extensible (d.addDisjunction guard pairs) T v := by
  rw [addDisjunction_eq]
  obtain ⟨w, hw, hmodels⟩ := extensible_literals hd h (pairVariables pairs)
  refine ⟨w, hw, hmodels.addClause (Clause.holds_negate_cons.2 fun hg => ?_)⟩
  rw [Literal.holds_of_agreesBelow hw hvar] at hg
  obtain ⟨pair, hpair, hT⟩ := hguard hg
  have hmem : PairVariable.signal pair.1 pair.2 ∈ pairVariables pairs := List.mem_map_of_mem hpair
  rw [literals_fst]
  refine Clause.holds_iff.2 ⟨_, List.mem_map_of_mem hmem, ?_⟩
  exact (holds_literalOf (binds_literals hmem)).2 ((hmodels.selects_iff (binds_literals hmem)).2 hT)

theorem grows_addDisjunctions (hguard : guard.var < d.vars.nextId)
    (hds : PairDisjunction.AllWithin (fun s t => Q (.signal s t)) ds) :
    Grows Q d (d.addDisjunctions guard ds) :=
  grows_foldl fun _ pairs hd' hpairs =>
    grows_addDisjunction (Nat.lt_of_lt_of_le hguard hd') (hds pairs hpairs)

theorem allHold_of_addDisjunctions (hguard : guard.holds v = true)
    (hvar : guard.var < d.vars.nextId) (h : (d.addDisjunctions guard ds).Holds v) :
    PairDisjunction.AllHold (fun s t => (d.addDisjunctions guard ds).Selects v (.signal s t)) ds := by
  induction ds generalizing d with
  | nil => exact fun pairs hpairs => absurd hpairs List.not_mem_nil
  | cons pairs rest ih =>
    have hfirst : Grows (fun _ => True) d (d.addDisjunction guard pairs) :=
      grows_addDisjunction hvar fun _ _ => trivial
    have hrest : Grows (fun _ => True) (d.addDisjunction guard pairs)
        (d.addDisjunctions guard (pairs :: rest)) :=
      grows_addDisjunctions (hfirst.lt_nextId hvar) fun _ _ _ _ => trivial
    refine List.forall_mem_cons.2 ⟨?_, ih (hfirst.lt_nextId hvar) h⟩
    obtain ⟨pair, hpair, hselects⟩ := holds_of_addDisjunction (hrest.holds v h) hguard
    exact ⟨pair, hpair, hrest.selects hselects⟩

theorem extensible_addDisjunctions (hd : d.WellFormed) (h : d.Models T v)
    (hvar : guard.var < d.vars.nextId)
    (hguard : guard.holds v = true → PairDisjunction.AllHold (fun s t => T (.signal s t)) ds) :
    d.Extensible (d.addDisjunctions guard ds) T v := by
  induction ds generalizing d v with
  | nil => exact ⟨v, .refl _ _, h⟩
  | cons pairs rest ih =>
    have hgrows : Grows (fun _ => True) d (d.addDisjunction guard pairs) :=
      grows_addDisjunction hvar fun _ _ => trivial
    have hfirst := extensible_addDisjunction hd h hvar fun hg => hguard hg pairs List.mem_cons_self
    refine hfirst.trans (fun w hw hmodels => ?_) hgrows.vars.nextId
    refine ih (hgrows.wellFormed hd) hmodels (hgrows.lt_nextId hvar) fun hg => ?_
    rw [Literal.holds_of_agreesBelow hw hvar] at hg
    exact fun pairs hpairs => hguard hg pairs (List.mem_cons_of_mem _ hpairs)

/-! ## Choices -/

variable {alternatives : List (List PairDisjunction)}

/-- The demands of several guards. -/
def addGuarded (d : Draft) (guarded : List (Literal × List PairDisjunction)) : Draft :=
  guarded.foldl (fun d e => d.addDisjunctions e.1 e.2) d

theorem grows_addGuarded {guarded : List (Literal × List PairDisjunction)}
    (h : ∀ e ∈ guarded, e.1.var < d.vars.nextId ∧
      PairDisjunction.AllWithin (fun s t => Q (.signal s t)) e.2) :
    Grows Q d (d.addGuarded guarded) :=
  grows_foldl fun _ e hd' he =>
    grows_addDisjunctions (Nat.lt_of_lt_of_le (h e he).1 hd') (h e he).2

theorem allHold_of_addGuarded {guarded : List (Literal × List PairDisjunction)}
    (hvar : ∀ e ∈ guarded, e.1.var < d.vars.nextId) (h : (d.addGuarded guarded).Holds v)
    {e : Literal × List PairDisjunction} (he : e ∈ guarded) (hguard : e.1.holds v = true) :
    PairDisjunction.AllHold (fun s t => (d.addGuarded guarded).Selects v (.signal s t)) e.2 := by
  induction guarded generalizing d with
  | nil => cases he
  | cons first rest ih =>
    obtain ⟨hfirst, hvars⟩ := List.forall_mem_cons.1 hvar
    have hgrows : Grows (fun _ => True) d (d.addDisjunctions first.1 first.2) :=
      grows_addDisjunctions hfirst fun _ _ _ _ => trivial
    have hvars' : ∀ e ∈ rest, e.1.var < (d.addDisjunctions first.1 first.2).vars.nextId :=
      fun e he => hgrows.lt_nextId (hvars e he)
    rcases List.mem_cons.1 he with rfl | he
    · have hrest : Grows (fun _ => True) (d.addDisjunctions e.1 e.2) (d.addGuarded (e :: rest)) :=
        grows_addGuarded fun e he => ⟨hvars' e he, fun _ _ _ _ => trivial⟩
      intro pairs hpairs
      obtain ⟨pair, hpair, hselects⟩ :=
        allHold_of_addDisjunctions hguard hfirst (hrest.holds v h) pairs hpairs
      exact ⟨pair, hpair, hrest.selects hselects⟩
    · exact ih hvars' h he

theorem extensible_addGuarded {guarded : List (Literal × List PairDisjunction)} (hd : d.WellFormed)
    (h : d.Models T v) (hvar : ∀ e ∈ guarded, e.1.var < d.vars.nextId)
    (hguard : ∀ e ∈ guarded, e.1.holds v = true →
      PairDisjunction.AllHold (fun s t => T (.signal s t)) e.2) :
    d.Extensible (d.addGuarded guarded) T v := by
  induction guarded generalizing d v with
  | nil => exact ⟨v, .refl _ _, h⟩
  | cons first rest ih =>
    obtain ⟨hfirst, hvars⟩ := List.forall_mem_cons.1 hvar
    obtain ⟨hguard, hguards⟩ := List.forall_mem_cons.1 hguard
    have hgrows : Grows (fun _ => True) d (d.addDisjunctions first.1 first.2) :=
      grows_addDisjunctions hfirst fun _ _ _ _ => trivial
    refine (extensible_addDisjunctions hd h hfirst hguard).trans (fun w hw hmodels => ?_)
      hgrows.vars.nextId
    refine ih (hgrows.wellFormed hd) hmodels (fun e he => hgrows.lt_nextId (hvars e he)) ?_
    intro e he hg
    rw [Literal.holds_of_agreesBelow hw (hvars e he)] at hg
    exact hguards e he hg

theorem addChoice_eq (d : Draft) (guard : Literal) (alternatives : List (List PairDisjunction)) :
    d.addChoice guard alternatives =
      ((d.auxiliaries alternatives.length).2.addClause
        (guard.negate :: (d.auxiliaries alternatives.length).1)).addGuarded
          ((d.auxiliaries alternatives.length).1.zip alternatives) := rfl

/-- A selector stands beside its alternative. -/
theorem mem_zip_auxiliaries {e : Literal × List PairDisjunction} :
    e ∈ (d.auxiliaries alternatives.length).1.zip alternatives ↔
      ∃ i, e.1 = Literal.positive (d.vars.nextId + i) ∧ alternatives[i]? = some e.2 := by
  rw [auxiliaries_fst, List.mem_iff_getElem?]
  refine exists_congr fun i => ?_
  rw [List.getElem?_zip_eq_some, List.getElem?_map, Option.map_eq_some_iff]
  constructor
  · rintro ⟨⟨j, hj, he⟩, halternative⟩
    rw [List.getElem?_eq_some_iff] at hj
    obtain ⟨hlt, rfl⟩ := hj
    rw [List.getElem_range] at he
    exact ⟨he.symm, halternative⟩
  · rintro ⟨he, halternative⟩
    have hlt := (List.getElem?_eq_some_iff.1 halternative).1
    exact ⟨⟨i, by rw [List.getElem?_range hlt], he.symm⟩, halternative⟩

theorem var_lt_of_mem_zip {e : Literal × List PairDisjunction}
    (he : e ∈ (d.auxiliaries alternatives.length).1.zip alternatives) :
    e.1.var < (d.auxiliaries alternatives.length).2.vars.nextId := by
  obtain ⟨i, hvar, halternative⟩ := mem_zip_auxiliaries.1 he
  have hlt := (List.getElem?_eq_some_iff.1 halternative).1
  rw [hvar, nextId_auxiliaries]
  exact Nat.add_lt_add_left hlt _

theorem var_lt_of_mem_auxiliaries {n : Nat} {l : Literal} (hl : l ∈ (d.auxiliaries n).1) :
    l.var < (d.auxiliaries n).2.vars.nextId := by
  rw [auxiliaries_fst] at hl
  obtain ⟨i, hi, rfl⟩ := List.mem_map.1 hl
  rw [nextId_auxiliaries]
  exact Nat.add_lt_add_left (List.mem_range.1 hi) _

theorem var_lt_of_mem_selectors (hguard : guard.var < d.vars.nextId) (n : Nat) {l : Literal}
    (hl : l ∈ guard.negate :: (d.auxiliaries n).1) : l.var < (d.auxiliaries n).2.vars.nextId := by
  rcases List.mem_cons.1 hl with rfl | hl
  · exact (grows_auxiliaries (Q := fun _ => True) d n).lt_nextId hguard
  · exact var_lt_of_mem_auxiliaries hl

theorem grows_addChoice (hguard : guard.var < d.vars.nextId)
    (h : ∀ ds ∈ alternatives, PairDisjunction.AllWithin (fun s t => Q (.signal s t)) ds) :
    Grows Q d (d.addChoice guard alternatives) := by
  rw [addChoice_eq]
  refine (grows_auxiliaries d _).trans ((grows_addClause fun l hl =>
    var_lt_of_mem_selectors hguard _ hl).trans (grows_addGuarded fun e he => ?_))
  obtain ⟨i, -, halternative⟩ := mem_zip_auxiliaries.1 he
  exact ⟨var_lt_of_mem_zip he, h e.2 (List.mem_of_getElem? halternative)⟩

theorem exists_alternative_of_addChoice (h : (d.addChoice guard alternatives).Holds v)
    (hguard : guard.holds v = true) :
    ∃ ds ∈ alternatives, PairDisjunction.AllHold
      (fun s t => (d.addChoice guard alternatives).Selects v (.signal s t)) ds := by
  rw [addChoice_eq] at h ⊢
  have hgrows : Grows (fun _ => True)
      ((d.auxiliaries alternatives.length).2.addClause
        (guard.negate :: (d.auxiliaries alternatives.length).1)) _ :=
    grows_addGuarded fun e he => ⟨var_lt_of_mem_zip he, fun _ _ _ _ => trivial⟩
  have hclause := (holds_addClause.1 (hgrows.holds v h)).2
  obtain ⟨l, hl, hlit⟩ := Clause.holds_iff.1 (Clause.holds_negate_cons.1 hclause hguard)
  rw [auxiliaries_fst] at hl
  obtain ⟨i, hi, rfl⟩ := List.mem_map.1 hl
  have hlt := List.mem_range.1 hi
  have hmem : (Literal.positive (d.vars.nextId + i), alternatives[i]) ∈
      (d.auxiliaries alternatives.length).1.zip alternatives :=
    mem_zip_auxiliaries.2 ⟨i, rfl, List.getElem?_eq_getElem hlt⟩
  refine ⟨_, List.getElem_mem hlt, ?_⟩
  refine allHold_of_addGuarded ?_ h hmem hlit
  exact fun e he => var_lt_of_mem_zip he

/-- A selector is made true where its alternative is met. -/
theorem extensible_addChoice (hd : d.WellFormed) (h : d.Models T v)
    (hvar : guard.var < d.vars.nextId)
    (hguard : guard.holds v = true →
      ∃ ds ∈ alternatives, PairDisjunction.AllHold (fun s t => T (.signal s t)) ds) :
    d.Extensible (d.addChoice guard alternatives) T v := by
  classical
  rw [addChoice_eq]
  let met : Nat → Bool := fun i =>
    decide (∃ ds, alternatives[i]? = some ds ∧ PairDisjunction.AllHold (fun s t => T (.signal s t)) ds)
  obtain ⟨w, hw, hmodels, hmet⟩ := extensible_auxiliaries hd h alternatives.length met
  have hgrows := grows_auxiliaries (Q := fun _ => True) d alternatives.length
  have hclause : Clause.holds (guard.negate :: (d.auxiliaries alternatives.length).1) w = true := by
    refine Clause.holds_negate_cons.2 fun hg => ?_
    rw [Literal.holds_of_agreesBelow hw hvar] at hg
    obtain ⟨ds, hds, hall⟩ := hguard hg
    obtain ⟨i, hi⟩ := List.mem_iff_getElem?.1 hds
    rw [auxiliaries_fst]
    refine Clause.holds_iff.2 ⟨_, List.mem_map_of_mem
      (List.mem_range.2 (List.getElem?_eq_some_iff.1 hi).1), ?_⟩
    rw [Literal.holds_positive, hmet]
    exact decide_eq_true ⟨ds, hi, hall⟩
  have hselected := grows_addClause (Q := fun _ => True) (d := (d.auxiliaries alternatives.length).2)
    fun l hl => var_lt_of_mem_selectors hvar alternatives.length hl
  obtain ⟨u, hu, hmodels'⟩ := extensible_addGuarded
    (hselected.wellFormed (hgrows.wellFormed hd)) (hmodels.addClause hclause)
    (fun e he => var_lt_of_mem_zip he) fun e he hg => by
      obtain ⟨i, hpositive, halternative⟩ := mem_zip_auxiliaries.1 he
      rw [hpositive, Literal.holds_positive, hmet] at hg
      obtain ⟨ds, hds, hall⟩ := of_decide_eq_true hg
      rw [halternative] at hds
      cases hds
      exact hall
  exact ⟨u, hw.trans hu hgrows.vars.nextId, hmodels'⟩

/-! ## Norm pairs -/

variable {l r : Nat} {shape : PairShape}

/-- The demands of a shape under a guard. -/
def addShape (d : Draft) (guard : Literal) (shape : PairShape) : Draft :=
  shape.choices.foldl (fun d alternatives => d.addChoice guard alternatives)
    (d.addDisjunctions guard shape.common)

theorem addNormPair_eq (d : Draft) (l r : Nat) (shape : PairShape) :
    d.addNormPair l r shape =
      ((d.literal (.norm l r)).1, (d.literal (.norm l r)).2.addShape (d.literal (.norm l r)).1 shape) :=
  rfl

theorem grows_addShape (hguard : guard.var < d.vars.nextId)
    (hshape : shape.Within fun s t => Q (.signal s t)) : Grows Q d (d.addShape guard shape) := by
  have hcommon := grows_addDisjunctions hguard hshape.common
  exact hcommon.trans (grows_foldl fun _ alternatives hd' halternatives =>
    grows_addChoice (Nat.lt_of_lt_of_le (hcommon.lt_nextId hguard) hd')
      (hshape.choices alternatives halternatives))

theorem exists_alternative_of_addChoices {choices : List (List (List PairDisjunction))}
    (hvar : guard.var < d.vars.nextId) (hguard : guard.holds v = true)
    (h : (choices.foldl (fun d alternatives => d.addChoice guard alternatives) d).Holds v) :
    ∀ alternatives ∈ choices, ∃ ds ∈ alternatives, PairDisjunction.AllHold (fun s t =>
      (choices.foldl (fun d alternatives => d.addChoice guard alternatives) d).Selects v
        (.signal s t)) ds := by
  induction choices generalizing d with
  | nil => exact fun _ ha => absurd ha List.not_mem_nil
  | cons first rest ih =>
    have hfirst : Grows (fun _ => True) d (d.addChoice guard first) :=
      grows_addChoice hvar fun _ _ _ _ _ _ => trivial
    have hrest : Grows (fun _ => True) (d.addChoice guard first)
        (rest.foldl (fun d alternatives => d.addChoice guard alternatives) (d.addChoice guard first)) :=
      grows_foldl fun d' _ hd' _ =>
        grows_addChoice (Nat.lt_of_lt_of_le (hfirst.lt_nextId hvar) hd') fun _ _ _ _ _ _ => trivial
    refine List.forall_mem_cons.2 ⟨?_, ih (hfirst.lt_nextId hvar) h⟩
    obtain ⟨ds, hds, hall⟩ := exists_alternative_of_addChoice (hrest.holds v h) hguard
    refine ⟨ds, hds, fun pairs hpairs => ?_⟩
    obtain ⟨pair, hpair, hselects⟩ := hall pairs hpairs
    exact ⟨pair, hpair, hrest.selects hselects⟩

theorem extensible_addChoices {choices : List (List (List PairDisjunction))} (hd : d.WellFormed)
    (h : d.Models T v) (hvar : guard.var < d.vars.nextId)
    (hguard : guard.holds v = true → ∀ alternatives ∈ choices, ∃ ds ∈ alternatives,
      PairDisjunction.AllHold (fun s t => T (.signal s t)) ds) :
    d.Extensible (choices.foldl (fun d alternatives => d.addChoice guard alternatives) d) T v := by
  induction choices generalizing d v with
  | nil => exact ⟨v, .refl _ _, h⟩
  | cons first rest ih =>
    have hgrows : Grows (fun _ => True) d (d.addChoice guard first) :=
      grows_addChoice hvar fun _ _ _ _ _ _ => trivial
    have hfirst := extensible_addChoice hd h hvar fun hg => hguard hg first List.mem_cons_self
    refine hfirst.trans (fun w hw hmodels => ?_) hgrows.vars.nextId
    refine ih (hgrows.wellFormed hd) hmodels (hgrows.lt_nextId hvar) fun hg => ?_
    rw [Literal.holds_of_agreesBelow hw hvar] at hg
    exact fun alternatives ha => hguard hg alternatives (List.mem_cons_of_mem _ ha)

/-- Where the guard holds, the selected signal pairs meet the shape. -/
theorem holds_of_addShape (hvar : guard.var < d.vars.nextId) (hguard : guard.holds v = true)
    (h : (d.addShape guard shape).Holds v) :
    shape.Holds fun s t => (d.addShape guard shape).Selects v (.signal s t) := by
  have hcommon : Grows (fun _ => True) d (d.addDisjunctions guard shape.common) :=
    grows_addDisjunctions hvar fun _ _ _ _ => trivial
  have hchoices : Grows (fun _ => True) (d.addDisjunctions guard shape.common)
      (d.addShape guard shape) :=
    grows_foldl fun _ _ hd' _ =>
      grows_addChoice (Nat.lt_of_lt_of_le (hcommon.lt_nextId hvar) hd') fun _ _ _ _ _ _ => trivial
  refine ⟨fun pairs hpairs => ?_, exists_alternative_of_addChoices (hcommon.lt_nextId hvar) hguard h⟩
  obtain ⟨pair, hpair, hselects⟩ :=
    allHold_of_addDisjunctions hguard hvar (hchoices.holds v h) pairs hpairs
  exact ⟨pair, hpair, hchoices.selects hselects⟩

theorem extensible_addShape (hd : d.WellFormed) (h : d.Models T v) (hvar : guard.var < d.vars.nextId)
    (hguard : guard.holds v = true → shape.Holds fun s t => T (.signal s t)) :
    d.Extensible (d.addShape guard shape) T v := by
  have hgrows : Grows (fun _ => True) d (d.addDisjunctions guard shape.common) :=
    grows_addDisjunctions hvar fun _ _ _ _ => trivial
  refine (extensible_addDisjunctions hd h hvar fun hg => (hguard hg).common).trans
    (fun w hw hmodels => ?_) hgrows.vars.nextId
  refine extensible_addChoices (hgrows.wellFormed hd) hmodels (hgrows.lt_nextId hvar) fun hg => ?_
  rw [Literal.holds_of_agreesBelow hw hvar] at hg
  exact (hguard hg).choices

theorem var_literal_lt (d : Draft) (p : PairVariable) :
    (d.literal p).1.var < (d.literal p).2.vars.nextId := by
  rw [literal_fst]
  exact var_literalOf_lt (binds_literal d p)

/-- A norm pair binds its own variable and those of the signal pairs of its shape. -/
theorem grows_addNormPair (hQ : Q (.norm l r)) (hshape : shape.Within fun s t => Q (.signal s t)) :
    Grows Q d (d.addNormPair l r shape).2 :=
  ((grows_literal d _).mono fun p (hp : p = _) => hp ▸ hQ).trans
    (grows_addShape (var_literal_lt d _) hshape)

theorem binds_addNormPair : (d.addNormPair l r shape).2.Binds (.norm l r) :=
  (grows_addShape (Q := fun _ => True) (var_literal_lt d _) shape.within_true).binds_of_binds
    (binds_literal d _)

theorem addNormPair_fst :
    (d.addNormPair l r shape).1 = (d.addNormPair l r shape).2.literalOf (.norm l r) := by
  rw [addNormPair_eq, (grows_addShape (Q := fun _ => True) (var_literal_lt d _)
    shape.within_true).literalOf (binds_literal d _)]
  exact literal_fst d _

/-- A matched norm pair demands the signal pairs of its shape. -/
theorem holds_of_addNormPair (h : (d.addNormPair l r shape).2.Holds v)
    (hselects : (d.addNormPair l r shape).2.Selects v (.norm l r)) :
    shape.Holds fun s t => (d.addNormPair l r shape).2.Selects v (.signal s t) := by
  rw [← holds_literalOf binds_addNormPair, ← addNormPair_fst] at hselects
  exact holds_of_addShape (var_literal_lt d _) hselects h

theorem extensible_addNormPair (hd : d.WellFormed) (h : d.Models T v)
    (hT : T (.norm l r) → shape.Holds fun s t => T (.signal s t)) :
    d.Extensible (d.addNormPair l r shape).2 T v := by
  have hgrows := grows_literal d (.norm l r)
  refine (extensible_literal hd h (.norm l r)).trans (fun w _ hmodels => ?_) hgrows.vars.nextId
  have hguard : (d.literal (.norm l r)).1.holds w = true → T (.norm l r) := fun hg => by
    rw [literal_fst, holds_literalOf (binds_literal d _)] at hg
    exact (hmodels.selects_iff (binds_literal d _)).1 hg
  exact extensible_addShape (hgrows.wellFormed hd) hmodels (var_literal_lt d _)
    fun hg => hT (hguard hg)

/-! ## Siblings -/

variable {leftNorms rightNorms : Array Norm}

/-- The constraint that a norm comes from. -/
def originOf (norms : Array Norm) (n : Nat) : Nat := (norms[n]?.getD default).origin

theorem mem_siblings {norms : Array Norm} {k n : Nat} :
    n ∈ siblings norms k ↔ n < norms.size ∧ originOf norms n = k := by
  simp [siblings, originOf]

/-- The clauses that tie a norm pair to the pairs of its siblings. -/
def siblingClauses (d : Draft) (leftNorms rightNorms : Array Norm) : List Clause :=
  d.vars.bindings.flatMap fun
    | (id, .norm l r) =>
      ((siblings leftNorms (originOf leftNorms l)).filter (· ≠ l)).map fun l' =>
        .negative id :: ((siblings rightNorms (originOf rightNorms r)).filter (· ≠ r)).filterMap fun r' =>
          (d.vars.get? (.norm l' r')).map .positive
    | (_, .signal ..) => []

theorem addSiblings_eq (d : Draft) (leftNorms rightNorms : Array Norm) :
    d.addSiblings leftNorms rightNorms = d.addClauses (d.siblingClauses leftNorms rightNorms) := rfl

theorem mem_siblingClauses (hd : d.vars.IsFunctional) {c : Clause} :
    c ∈ d.siblingClauses leftNorms rightNorms ↔ ∃ id l r l', d.vars.get? (.norm l r) = some id ∧
      l' < leftNorms.size ∧ originOf leftNorms l' = originOf leftNorms l ∧ l' ≠ l ∧
      c = .negative id :: ((siblings rightNorms (originOf rightNorms r)).filter (· ≠ r)).filterMap
        fun r' => (d.vars.get? (.norm l' r')).map .positive := by
  unfold siblingClauses
  rw [List.mem_flatMap]
  constructor
  · rintro ⟨⟨id, p⟩, hmem, hc⟩
    cases p with
    | norm l r =>
      obtain ⟨l', hl', rfl⟩ := List.mem_map.1 hc
      rw [List.mem_filter, mem_siblings, decide_eq_true_eq] at hl'
      exact ⟨id, l, r, l', hd.mem_bindings.1 hmem, hl'.1.1, hl'.1.2, hl'.2, rfl⟩
    | signal s t => cases hc
  · rintro ⟨id, l, r, l', hget, hlt, horigin, hne, rfl⟩
    refine ⟨(id, .norm l r), hd.mem_bindings.2 hget, List.mem_map.2 ⟨l', ?_, rfl⟩⟩
    rw [List.mem_filter, mem_siblings, decide_eq_true_eq]
    exact ⟨⟨hlt, horigin⟩, hne⟩

theorem holds_siblingClause {id l' r : Nat} :
    Clause.holds (.negative id ::
        ((siblings rightNorms (originOf rightNorms r)).filter (· ≠ r)).filterMap
          fun r' => (d.vars.get? (.norm l' r')).map .positive) v = true ↔
      (v id = true → ∃ r' < rightNorms.size, originOf rightNorms r' = originOf rightNorms r ∧
        r' ≠ r ∧ d.Selects v (.norm l' r')) := by
  have hguard : Literal.negative id = (Literal.positive id).negate := rfl
  rw [hguard, Clause.holds_negate_cons, Literal.holds_positive, Clause.holds_iff]
  refine imp_congr_right fun _ => ?_
  simp only [List.mem_filterMap, List.mem_filter, mem_siblings, decide_eq_true_eq,
    Option.map_eq_some_iff]
  constructor
  · rintro ⟨_, ⟨r', ⟨⟨hlt, horigin⟩, hne⟩, id', hget, rfl⟩, hlit⟩
    exact ⟨r', hlt, horigin, hne, id', hget, by simpa using hlit⟩
  · rintro ⟨r', hlt, horigin, hne, id', hget, hv⟩
    exact ⟨.positive id', ⟨r', ⟨⟨hlt, horigin⟩, hne⟩, id', hget, rfl⟩, by simpa using hv⟩

/-- The norms of one constraint move together. -/
def SiblingsAgree (leftNorms rightNorms : Array Norm) (T : PairVariable → Prop) : Prop :=
  ∀ l r l', T (.norm l r) → l' < leftNorms.size → originOf leftNorms l' = originOf leftNorms l →
    l' ≠ l → ∃ r' < rightNorms.size, originOf rightNorms r' = originOf rightNorms r ∧ r' ≠ r ∧
      T (.norm l' r')

theorem grows_addSiblings (hd : d.WellFormed) :
    Grows Q d (d.addSiblings leftNorms rightNorms) := by
  rw [addSiblings_eq]
  refine grows_addClauses fun c hc l hl => ?_
  obtain ⟨id, i, r, i', hget, -, -, -, rfl⟩ := (mem_siblingClauses hd.functional).1 hc
  rcases List.mem_cons.1 hl with rfl | hl
  · exact Numbering.lt_nextId hget
  · obtain ⟨r', -, hr'⟩ := List.mem_filterMap.1 hl
    obtain ⟨id', hget', rfl⟩ := Option.map_eq_some_iff.1 hr'
    exact Numbering.lt_nextId hget'

theorem siblingsAgree_of_addSiblings (hd : d.WellFormed)
    (h : (d.addSiblings leftNorms rightNorms).Holds v) :
    SiblingsAgree leftNorms rightNorms (d.Selects v) := by
  rw [addSiblings_eq, holds_addClauses, Clause.allHold_iff] at h
  rintro l r l' ⟨id, hget, hv⟩ hlt horigin hne
  exact holds_siblingClause.1
    (h.2 _ ((mem_siblingClauses hd.functional).2 ⟨id, l, r, l', hget, hlt, horigin, hne, rfl⟩)) hv

theorem models_addSiblings (hd : d.WellFormed) (h : d.Models T v)
    (hT : SiblingsAgree leftNorms rightNorms T)
    (hbinds : ∀ l r, l < leftNorms.size → r < rightNorms.size → T (.norm l r) → d.Binds (.norm l r)) :
    (d.addSiblings leftNorms rightNorms).Models T v := by
  rw [addSiblings_eq]
  refine h.addClauses (Clause.allHold_iff.2 fun c hc => ?_)
  obtain ⟨id, l, r, l', hget, hlt, horigin, hne, rfl⟩ := (mem_siblingClauses hd.functional).1 hc
  refine holds_siblingClause.2 fun hv => ?_
  obtain ⟨r', hlt', horigin', hne', hT'⟩ := hT l r l' ((h.follows _ id hget).1 hv) hlt horigin hne
  exact ⟨r', hlt', horigin', hne', (h.selects_iff (hbinds l' r' hlt hlt' hT')).2 hT'⟩

end CircuitEquiv.Draft
