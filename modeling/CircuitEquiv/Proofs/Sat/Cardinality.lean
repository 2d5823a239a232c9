-- SUMMARY: At-most-one clauses hold exactly when at most one literal does, up to the choice of their counter variables.
import CircuitEquiv.Proofs.Sat.Clause
import CircuitEquiv.Sat.Cardinality

/-!
# Cardinality constraints

Both encodings say the same about the given literals: a model of the clauses makes at most one of
them true, and an assignment that does so becomes a model when the counter variables are chosen
well. A counter variable is true when an earlier literal is.
-/

namespace CircuitEquiv

/-- No two of the literals hold. -/
def AtMostOneHolds (v : Nat → Bool) (lits : List Literal) : Prop :=
  lits.Pairwise fun l m => l.holds v = true → m.holds v = false

/-- None of the literals holds. -/
def NoneHolds (v : Nat → Bool) (lits : List Literal) : Prop := ∀ l ∈ lits, l.holds v = false

variable {v w : Nat → Bool} {next : Nat} {lits : List Literal}

theorem atMostOneHolds_cons {l : Literal} {rest : List Literal} :
    AtMostOneHolds v (l :: rest) ↔
      (l.holds v = true → NoneHolds v rest) ∧ AtMostOneHolds v rest := by
  unfold AtMostOneHolds NoneHolds
  rw [List.pairwise_cons]
  exact and_congr_left fun _ => ⟨fun h hl m hm => h m hm hl, fun h m hm hl => h hl m hm⟩

theorem noneHolds_of_agreesBelow (h : AgreesBelow next v w) (hlits : ∀ l ∈ lits, l.var < next) :
    NoneHolds w lits ↔ NoneHolds v lits :=
  forall₂_congr fun l hl => by rw [Literal.holds_of_agreesBelow h (hlits l hl)]

theorem atMostOneHolds_of_agreesBelow (h : AgreesBelow next v w) (hlits : ∀ l ∈ lits, l.var < next) :
    AtMostOneHolds w lits ↔ AtMostOneHolds v lits := by
  refine List.Pairwise.iff_of_mem fun {l m} hl hm => ?_
  rw [Literal.holds_of_agreesBelow h (hlits l hl), Literal.holds_of_agreesBelow h (hlits m hm)]

namespace AtMostOne

/-! ## Pairs -/

theorem allHold_pairClauses : Clause.allHold (pairClauses lits) v = true ↔ AtMostOneHolds v lits := by
  induction lits with
  | nil => simp [pairClauses, AtMostOneHolds]
  | cons l rest ih =>
    rw [pairClauses, Clause.allHold_append, ih, atMostOneHolds_cons, Clause.allHold_iff]
    refine and_congr_left fun _ => ?_
    simp only [List.forall_mem_map, Clause.holds_negate_cons]
    constructor
    · intro h hl m hm
      simpa using h m hm hl
    · intro h m hm hl
      simp [h hl m hm]

theorem allBelow_pairClauses (h : ∀ l ∈ lits, l.var < next) :
    Clause.AllBelow next (pairClauses lits) := by
  induction lits with
  | nil => intro c hc; cases hc
  | cons l rest ih =>
    have hl := h l List.mem_cons_self
    have hrest : ∀ m ∈ rest, m.var < next := fun m hm => h m (List.mem_cons_of_mem _ hm)
    refine Clause.AllBelow.append (fun c hc => ?_) (ih hrest)
    obtain ⟨m, hm, rfl⟩ := List.mem_map.1 hc
    simp [hl, hrest m hm]

/-! ## Counters -/

/-- The clauses behind the first counter variable. Once that variable is true, no literal holds. -/
theorem noneHolds_of_counterClauses {previous : Nat}
    (h : Clause.allHold (counterClauses previous next lits) v = true) :
    (v previous = true → NoneHolds v lits) ∧ AtMostOneHolds v lits := by
  induction lits generalizing previous next with
  | nil => exact ⟨fun _ l hl => absurd hl List.not_mem_nil, List.Pairwise.nil⟩
  | cons l rest ih =>
    cases rest with
    | nil =>
      simp only [counterClauses, Clause.allHold_cons, Clause.holds_negate_cons] at h
      refine ⟨fun hprevious m hm => ?_, List.pairwise_singleton _ _⟩
      rw [List.mem_singleton.1 hm]
      cases hl : l.holds v with
      | false => rfl
      | true => simpa [hprevious] using h.1 hl
    | cons m rest =>
      simp only [counterClauses, Clause.allHold_cons, Clause.holds_negate_cons] at h
      obtain ⟨hl, hcarry, hexclude, hrest⟩ := h
      obtain ⟨hnone, hone⟩ := ih hrest
      refine ⟨fun hprevious => ?_, atMostOneHolds_cons.2 ⟨fun h => ?_, hone⟩⟩
      · have hnext : v next = true := by simpa [hprevious] using hcarry
        intro k hk
        rcases List.mem_cons.1 hk with rfl | hk
        · cases hk : k.holds v with
          | false => rfl
          | true => simpa [hprevious] using hexclude hk
        · exact hnone hnext k hk
      · exact hnone (by simpa using hl h)

theorem allBelow_counterClauses {previous : Nat} (hprevious : previous < next)
    (h : ∀ l ∈ lits, l.var < next) :
    Clause.AllBelow (next + (lits.length - 1)) (counterClauses previous next lits) := by
  induction lits generalizing previous next with
  | nil => intro c hc; cases hc
  | cons l rest ih =>
    have hl := h l List.mem_cons_self
    cases rest with
    | nil =>
      intro c hc
      obtain rfl := List.mem_singleton.1 hc
      simp [hl, hprevious]
    | cons m rest =>
      have hrest : ∀ k ∈ m :: rest, k.var < next + 1 := fun k hk =>
        Nat.lt_succ_of_lt (h k (List.mem_cons_of_mem _ hk))
      have hbelow := ih (Nat.lt_succ_self next) hrest
      intro c hc
      simp only [counterClauses, List.mem_cons] at hc
      rcases hc with rfl | rfl | rfl | hc
      · simp only [List.forall_mem_cons, Literal.var_negate, Literal.var_positive, List.length_cons]
        exact ⟨by omega, by omega, by simp⟩
      · simp only [List.forall_mem_cons, Literal.var_negative, Literal.var_positive, List.length_cons]
        exact ⟨by omega, by omega, by simp⟩
      · simp only [List.forall_mem_cons, Literal.var_negate, Literal.var_negative, List.length_cons]
        exact ⟨by omega, by omega, by simp⟩
      · refine hbelow.mono ?_ c hc
        simp only [List.length_cons]
        omega

/-- The counter variables can be chosen so that the clauses hold: each says whether a literal up to
its own, or an earlier one, is true. -/
theorem exists_counterClauses {previous : Nat} (hprevious : previous < next)
    (h : ∀ l ∈ lits, l.var < next) (hone : AtMostOneHolds v lits)
    (hnone : v previous = true → NoneHolds v lits) :
    ∃ w, AgreesBelow next v w ∧
      Clause.allHold (counterClauses previous next lits) w = true := by
  induction lits generalizing v previous next with
  | nil => exact ⟨v, AgreesBelow.refl _ _, rfl⟩
  | cons l rest ih =>
    have hl := h l List.mem_cons_self
    cases rest with
    | nil =>
      refine ⟨v, AgreesBelow.refl _ _, ?_⟩
      simp only [counterClauses, Clause.allHold_cons, Clause.holds_negate_cons]
      refine ⟨fun hlit => ?_, Clause.allHold_nil⟩
      cases hp : v previous with
      | false => simp [hp]
      | true => simp [hnone hp l List.mem_cons_self] at hlit
    | cons m rest =>
      obtain ⟨hexclusive, hrest⟩ := atMostOneHolds_cons.1 hone
      let u := Function.update v next (l.holds v || v previous)
      have hu : AgreesBelow next v u := AgreesBelow.update v next _
      have hunext : u next = (l.holds v || v previous) := Function.update_self ..
      have hvars : ∀ k ∈ m :: rest, k.var < next := fun k hk => h k (List.mem_cons_of_mem _ hk)
      have hurest : AtMostOneHolds u (m :: rest) := (atMostOneHolds_of_agreesBelow hu hvars).2 hrest
      have hunone : u next = true → NoneHolds u (m :: rest) := by
        intro htrue
        rw [hunext, Bool.or_eq_true] at htrue
        refine (noneHolds_of_agreesBelow hu hvars).2 ?_
        rcases htrue with htrue | htrue
        · exact hexclusive htrue
        · exact fun k hk => hnone htrue k (List.mem_cons_of_mem _ hk)
      obtain ⟨w, hw, hclauses⟩ := ih (Nat.lt_succ_self next)
        (fun k hk => Nat.lt_succ_of_lt (hvars k hk)) hurest hunone
      have hvw : AgreesBelow next v w := hu.trans hw (Nat.le_succ next)
      have hwl : l.holds w = l.holds v := Literal.holds_of_agreesBelow hvw hl
      have hwprevious : w previous = v previous := hvw previous hprevious
      have hwnext : w next = (l.holds v || v previous) := (hw next (Nat.lt_succ_self next)).trans hunext
      refine ⟨w, hvw, ?_⟩
      simp only [counterClauses, Clause.allHold_cons, Clause.holds_cons, Literal.holds_negate,
        Literal.holds_positive, Literal.holds_negative, hwl, hwprevious, hwnext, Clause.holds_nil]
      refine ⟨?_, ?_, ?_, hclauses⟩
      · cases l.holds v <;> simp
      · cases v previous <;> simp
      · cases hp : v previous with
        | false => simp
        | true => simp [hnone hp l List.mem_cons_self]

/-! ## Both encodings -/

/-- A model makes at most one of the literals true. -/
theorem atMostOneHolds_of_clauses {encoding : AtMostOne}
    (h : Clause.allHold (encoding.clauses lits next).1 v = true) : AtMostOneHolds v lits := by
  match lits, encoding with
  | [], _ => exact List.Pairwise.nil
  | [_], _ => exact List.pairwise_singleton _ _
  | l :: m :: rest, .pairwise => exact allHold_pairClauses.1 h
  | l :: m :: rest, .sequential =>
    obtain ⟨hl, hcounter⟩ := Clause.allHold_cons.1 h
    obtain ⟨hnone, hone⟩ := noneHolds_of_counterClauses hcounter
    refine atMostOneHolds_cons.2 ⟨fun hlit => hnone ?_, hone⟩
    simpa using Clause.holds_negate_cons.1 hl hlit

theorem allBelow_clauses (encoding : AtMostOne) (h : ∀ l ∈ lits, l.var < next) :
    Clause.AllBelow (encoding.clauses lits next).2 (encoding.clauses lits next).1 := by
  match lits, encoding with
  | [], _ => intro c hc; cases hc
  | [_], _ => intro c hc; cases hc
  | _ :: _ :: _, .pairwise => exact allBelow_pairClauses h
  | l :: m :: rest, .sequential =>
    have hrest : ∀ k ∈ m :: rest, k.var < next + 1 := fun k hk =>
      Nat.lt_succ_of_lt (h k (List.mem_cons_of_mem _ hk))
    have hcounter := allBelow_counterClauses (Nat.lt_succ_self next) hrest
    intro c hc
    rcases List.mem_cons.1 hc with rfl | hc
    · have hl := h l List.mem_cons_self
      simp only [clauses, List.forall_mem_cons, Literal.var_negate, Literal.var_positive,
        List.length_cons]
      exact ⟨by omega, by omega, by simp⟩
    · refine hcounter.mono ?_ c hc
      simp only [clauses, List.length_cons]
      omega

/-- An assignment that makes at most one of the literals true can be changed on new variables so
that the clauses hold. -/
theorem exists_clauses (encoding : AtMostOne) (h : ∀ l ∈ lits, l.var < next)
    (hone : AtMostOneHolds v lits) :
    ∃ w, AgreesBelow next v w ∧ Clause.allHold (encoding.clauses lits next).1 w = true := by
  match lits, encoding with
  | [], _ => exact ⟨v, AgreesBelow.refl _ _, rfl⟩
  | [_], _ => exact ⟨v, AgreesBelow.refl _ _, rfl⟩
  | l :: m :: rest, .pairwise => exact ⟨v, AgreesBelow.refl _ _, allHold_pairClauses.2 hone⟩
  | l :: m :: rest, .sequential =>
    obtain ⟨hexclusive, hrest⟩ := atMostOneHolds_cons.1 hone
    let u := Function.update v next (l.holds v)
    have hu : AgreesBelow next v u := AgreesBelow.update v next _
    have hunext : u next = l.holds v := Function.update_self ..
    have hvars : ∀ k ∈ m :: rest, k.var < next := fun k hk => h k (List.mem_cons_of_mem _ hk)
    obtain ⟨w, hw, hclauses⟩ := exists_counterClauses (Nat.lt_succ_self next)
      (fun k hk => Nat.lt_succ_of_lt (hvars k hk)) ((atMostOneHolds_of_agreesBelow hu hvars).2 hrest)
      (fun htrue => (noneHolds_of_agreesBelow hu hvars).2 (hexclusive (hunext ▸ htrue)))
    have hvw : AgreesBelow next v w := hu.trans hw (Nat.le_succ next)
    have hwl : l.holds w = l.holds v := Literal.holds_of_agreesBelow hvw (h l List.mem_cons_self)
    refine ⟨w, hvw, Clause.allHold_cons.2 ⟨Clause.holds_negate_cons.2 fun hlit => ?_, hclauses⟩⟩
    have hwnext : w next = true := (hw next (Nat.lt_succ_self next)).trans (hunext.trans (hwl ▸ hlit))
    simp [hwnext]

end AtMostOne

end CircuitEquiv
