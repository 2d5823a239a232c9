-- SUMMARY: Both at-most-one encodings admit the assignments with at most one true position, whoever issues their variables.
import CircuitEquiv.Data.Numbering
import CircuitEquiv.Proofs.Sat.Cardinality
import CircuitEquiv.Sat.Renumbering
import Mathlib.Order.Interval.Set.Defs
import Mathlib.Data.Set.Function

/-!
# Counter variables from any issuer

An encoding takes its counter variables from an issuer. A counter issues consecutive ids, and so do
numberings and those linked to them, but all that matters is that the ids are new: no literal
mentions them, and none comes twice. Clauses over other ids are those over consecutive ids with the
counter variables renamed, so they admit the same assignments of the literals.
-/

namespace CircuitEquiv

/-! ## Issuers -/

/-- Something that issues ids, one after the other. -/
class IdIssuer (σ : Type) where
  fresh : σ → Nat × σ

namespace IdIssuer

/-- A counter issues its value and goes on to the next one. -/
instance counter : IdIssuer Nat := ⟨fun next => (next, next + 1)⟩

instance numbering {α : Type} : IdIssuer (Numbering α) := ⟨Numbering.fresh⟩

instance linkedNumbering {α β : Type} : IdIssuer (LinkedNumbering α β) := ⟨LinkedNumbering.fresh⟩

variable {σ : Type} [IdIssuer σ]

/-- The ids that are issued from a state on, in order. -/
def nth (s : σ) : Nat → Nat
  | 0 => (fresh s).1
  | i + 1 => nth (fresh s).2 i

@[simp]
theorem nth_counter (next i : Nat) : nth next i = next + i := by
  induction i generalizing next with
  | zero => rfl
  | succ i ih => exact (ih (next + 1)).trans (Nat.succ_add_eq_add_succ next i)

/-- The ids for all literals but the last are new: above every variable of the literals, and none
comes twice. -/
structure IsFreshFor (lits : List Literal) (s : σ) : Prop where
  above : ∀ i, i + 1 < lits.length → ∀ l ∈ lits, l.var < nth s i
  distinct : ∀ i j, i + 1 < lits.length → j + 1 < lits.length → nth s i = nth s j → i = j

instance (lits : List Literal) (s : σ) : Decidable (IsFreshFor lits s) :=
  decidable_of_iff ((∀ i < lits.length - 1, ∀ l ∈ lits, l.var < nth s i) ∧
      ∀ i < lits.length - 1, ∀ j < lits.length - 1, nth s i = nth s j → i = j)
    ⟨fun h => ⟨fun i hi => h.1 i (Nat.lt_sub_of_add_lt hi),
        fun i j hi hj => h.2 i (Nat.lt_sub_of_add_lt hi) j (Nat.lt_sub_of_add_lt hj)⟩,
      fun h => ⟨fun i hi => h.above i (Nat.add_lt_of_lt_sub hi),
        fun i hi j hj => h.distinct i j (Nat.add_lt_of_lt_sub hi) (Nat.add_lt_of_lt_sub hj)⟩⟩

theorem isFreshFor_counter {lits : List Literal} {next : Nat} (h : ∀ l ∈ lits, l.var < next) :
    IsFreshFor lits next where
  above i _ l hl := by
    rw [nth_counter]
    exact Nat.lt_add_right i (h l hl)
  distinct i j _ _ heq := by
    rw [nth_counter, nth_counter] at heq
    exact Nat.add_left_cancel heq

end IdIssuer

open IdIssuer (fresh nth IsFreshFor)

variable {σ : Type} [IdIssuer σ] {v w : Nat → Bool} {lits : List Literal} {cs : List Clause}
  {ρ : Nat → Nat}

namespace AtMostOne

/-- The clauses of the counter behind its first variable, with ids from an issuer. -/
def issuedCounter (previous : Nat) : List Literal → σ → List Clause × σ
  | [], s => ([], s)
  | [last], s => ([[last.negate, .negative previous]], s)
  | l :: rest, s =>
    let (next, s) := fresh s
    let (cs, s) := issuedCounter next rest s
    ([l.negate, .positive next] :: [.negative previous, .positive next] ::
      [l.negate, .negative previous] :: cs, s)

/-- The clauses of an at-most-one constraint, with ids from an issuer. -/
def issuedClauses (encoding : AtMostOne) (lits : List Literal) (s : σ) : List Clause × σ :=
  match lits, encoding with
  | [], _ => ([], s)
  | [_], _ => ([], s)
  | lits, pairwise => (pairClauses lits, s)
  | l :: rest, sequential =>
    let (first, s) := fresh s
    let (cs, s) := issuedCounter first rest s
    ([l.negate, .positive first] :: cs, s)

/-- The clauses that let exactly one of the literals hold, with ids from an issuer. -/
def issuedExactlyOne (encoding : AtMostOne) (lits : List Literal) (s : σ) : List Clause × σ :=
  let (amo, s) := encoding.issuedClauses lits s
  (lits :: amo, s)

end AtMostOne

/-! ## Renamed variables -/

namespace Literal

theorem rename_eq_self {l : Literal} (h : ρ l.var = l.var) : l.rename ρ = l := by
  unfold rename
  rw [h]

theorem rename_negate (l : Literal) : l.negate.rename ρ = (l.rename ρ).negate := rfl

theorem rename_positive (n : Nat) : (positive n).rename ρ = positive (ρ n) := rfl

theorem rename_negative (n : Nat) : (negative n).rename ρ = negative (ρ n) := rfl

theorem holds_rename (l : Literal) : (l.rename ρ).holds v = l.holds fun x => v (ρ x) := rfl

end Literal

/-! ## Assignments of the literals -/

/-- Clauses admit an assignment of the variables of the literals when it extends to a model. -/
def Admits (lits : List Literal) (cs : List Clause) (v : Nat → Bool) : Prop :=
  ∃ w, (∀ l ∈ lits, w l.var = v l.var) ∧ Clause.allHold cs w = true

namespace Admits

theorem holds_eq {l : Literal} (hagree : ∀ l ∈ lits, w l.var = v l.var) (hl : l ∈ lits) :
    l.holds w = l.holds v := Literal.holds_congr (hagree l hl)

/-- A clause of the literals themselves is decided by the assignment. -/
theorem cons_self_iff : Admits lits (lits :: cs) v ↔ Clause.holds lits v = true ∧ Admits lits cs v := by
  have hclause : ∀ w, (∀ l ∈ lits, w l.var = v l.var) → Clause.holds lits w = Clause.holds lits v :=
    fun w hagree => by
      rw [Bool.eq_iff_iff, Clause.holds_iff, Clause.holds_iff]
      exact exists_congr fun l => and_congr_right fun hl => by rw [holds_eq hagree hl]
  constructor
  · rintro ⟨w, hagree, hmodel⟩
    obtain ⟨hlits, hcs⟩ := Clause.allHold_cons.1 hmodel
    exact ⟨hclause w hagree ▸ hlits, w, hagree, hcs⟩
  · rintro ⟨hlits, w, hagree, hcs⟩
    exact ⟨w, hagree, Clause.allHold_cons.2 ⟨(hclause w hagree).trans hlits, hcs⟩⟩

/-- Renaming the variables that the literals do not mention changes nothing. -/
theorem renameAll_iff {bound : Nat} (hbound : Clause.AllBelow bound cs)
    (hlits : ∀ l ∈ lits, l.var < bound ∧ ρ l.var = l.var) (hρ : Set.InjOn ρ (Set.Iio bound)) :
    Admits lits (Clause.renameAll ρ cs) v ↔ Admits lits cs v := by
  constructor
  · rintro ⟨w, hagree, hmodel⟩
    refine ⟨w ∘ ρ, fun l hl => ?_, (Clause.allHold_renameAll ρ cs w).symm.trans hmodel⟩
    rw [Function.comp_apply, (hlits l hl).2, hagree l hl]
  · rintro ⟨w, hagree, hmodel⟩
    -- a new variable gets the value of the one that it replaces
    let u := w ∘ Function.invFunOn ρ (Set.Iio bound)
    have hu : ∀ i < bound, u (ρ i) = w i := fun i hi => congrArg w (hρ.leftInvOn_invFunOn hi)
    refine ⟨u, fun l hl => ?_, ?_⟩
    · have hvar := hu l.var (hlits l hl).1
      rwa [(hlits l hl).2, hagree l hl] at hvar
    · exact (Clause.allHold_renameAll ρ cs u).trans
        ((Clause.allHold_of_agreesBelow hu hbound).trans hmodel)

end Admits

/-! ## Issued ids for consecutive ones -/

/-- There is a least bound on the variables of a list of literals. -/
theorem exists_varBound (lits : List Literal) :
    ∃ bound, (∀ l ∈ lits, l.var < bound) ∧ ∀ n, (∀ l ∈ lits, l.var < n) → bound ≤ n := by
  induction lits with
  | nil => exact ⟨0, fun l hl => absurd hl List.not_mem_nil, fun n _ => Nat.zero_le n⟩
  | cons l rest ih =>
    obtain ⟨bound, habove, hleast⟩ := ih
    refine ⟨max (l.var + 1) bound, List.forall_mem_cons.2 ⟨by omega, fun m hm => ?_⟩, fun n hn => ?_⟩
    · have := habove m hm
      omega
    · obtain ⟨hl, hrest⟩ := List.forall_mem_cons.1 hn
      have := hleast n hrest
      omega

/-- Issued ids take the places of consecutive ones above the variables of the literals. As far as they
are new, no two variables fall together. -/
theorem IdIssuer.exists_renaming (lits : List Literal) (s : σ) :
    ∃ (next : Nat) (ρ : Nat → Nat), (∀ l ∈ lits, l.var < next) ∧ (∀ l ∈ lits, ρ l.var = l.var) ∧
      (∀ i, ρ (next + i) = nth s i) ∧
      ∀ m, (∀ i < m, ∀ l ∈ lits, l.var < nth s i) →
        (∀ i < m, ∀ j < m, nth s i = nth s j → i = j) → Set.InjOn ρ (Set.Iio (next + m)) := by
  obtain ⟨next, hlits, hleast⟩ := exists_varBound lits
  let ρ := fun i => if i < next then i else nth s (i - next)
  have hold : ∀ i < next, ρ i = i := fun i hi => if_pos hi
  have hissued : ∀ i, ρ (next + i) = nth s i := fun i => by
    simp [ρ]
  refine ⟨next, ρ, hlits, fun l hl => hold _ (hlits l hl), hissued, fun m habove hdistinct => ?_⟩
  have hnew : ∀ i < m, next ≤ nth s i := fun i hi => hleast _ (habove i hi)
  intro i hi j hj heq
  rw [Set.mem_Iio] at hi hj
  rcases Nat.lt_or_ge i next with hin | hin <;> rcases Nat.lt_or_ge j next with hjn | hjn
  · rwa [hold i hin, hold j hjn] at heq
  · obtain ⟨k, rfl⟩ := Nat.exists_eq_add_of_le hjn
    rw [hold i hin, hissued] at heq
    have := hnew k (by omega)
    omega
  · obtain ⟨k, rfl⟩ := Nat.exists_eq_add_of_le hin
    rw [hold j hjn, hissued] at heq
    have := hnew k (by omega)
    omega
  · obtain ⟨k, rfl⟩ := Nat.exists_eq_add_of_le hin
    obtain ⟨k', rfl⟩ := Nat.exists_eq_add_of_le hjn
    rw [hissued, hissued] at heq
    rw [hdistinct k (by omega) k' (by omega) heq]

/-! ## Counting -/

theorem noneHolds_iff_countP : NoneHolds v lits ↔ lits.countP (·.holds v) = 0 := by
  simp [NoneHolds, List.countP_eq_zero]

theorem atMostOneHolds_iff_countP : AtMostOneHolds v lits ↔ lits.countP (·.holds v) ≤ 1 := by
  induction lits with
  | nil => exact iff_of_true List.Pairwise.nil (Nat.zero_le 1)
  | cons l rest ih =>
    rw [atMostOneHolds_cons, ih, noneHolds_iff_countP, List.countP_cons]
    cases l.holds v with
    | false => simp
    | true => simp only [if_true, forall_const]; omega

namespace AtMostOne

/-! ## Clauses over consecutive ids -/

theorem issuedCounter_counter (previous next : Nat) (lits : List Literal) :
    issuedCounter previous lits next =
      (counterClauses previous next lits, next + (lits.length - 1)) := by
  induction lits generalizing previous next with
  | nil => rfl
  | cons l rest ih =>
    cases rest with
    | nil => rfl
    | cons m rest =>
      have hrest := ih next (next + 1)
      simp only [issuedCounter, fresh, counterClauses] at hrest ⊢
      rw [hrest]
      refine Prod.ext rfl ?_
      simp only [List.length_cons]
      omega

/-- On a counter, the encodings with an issuer are those with consecutive ids. -/
theorem issuedClauses_counter (encoding : AtMostOne) (lits : List Literal) (next : Nat) :
    encoding.issuedClauses lits next = encoding.clauses lits next := by
  match lits, encoding with
  | [], _ => rfl
  | [_], _ => rfl
  | _ :: _ :: _, .pairwise => rfl
  | l :: m :: rest, .sequential =>
    simp only [issuedClauses, fresh, clauses, issuedCounter_counter]
    refine Prod.ext rfl ?_
    simp only [List.length_cons]
    omega

theorem issuedExactlyOne_counter (encoding : AtMostOne) (lits : List Literal) (next : Nat) :
    encoding.issuedExactlyOne lits next = encoding.exactlyOne lits next := by
  rw [issuedExactlyOne, issuedClauses_counter, exactlyOne]

/-! ## Clauses over other ids -/

/-- A counter over issued ids is the one over consecutive ids with its variables renamed. -/
theorem issuedCounter_eq (previous next : Nat) (s : σ) (hlits : ∀ l ∈ lits, ρ l.var = l.var)
    (hids : ∀ i, i + 1 < lits.length → ρ (next + i) = nth s i) :
    (issuedCounter (ρ previous) lits s).1 =
      Clause.renameAll ρ (counterClauses previous next lits) := by
  induction lits generalizing previous next s with
  | nil => rfl
  | cons l rest ih =>
    have hl : l.rename ρ = l := Literal.rename_eq_self (hlits l List.mem_cons_self)
    cases rest with
    | nil =>
      simp only [issuedCounter, counterClauses, Clause.renameAll, List.map_cons, List.map_nil,
        Literal.rename_negate, Literal.rename_negative, hl]
    | cons m rest =>
      have hnext : ρ next = (fresh s).1 := hids 0 (by simp)
      have hrest := ih next (next + 1) (fresh s).2
        (fun k hk => hlits k (List.mem_cons_of_mem _ hk)) fun i hi => by
          rw [Nat.succ_add_eq_add_succ]
          exact hids (i + 1) (by simpa using hi)
      rw [hnext] at hrest
      simp only [issuedCounter, counterClauses, Clause.renameAll, List.map_cons, List.map_nil,
        Literal.rename_negate, Literal.rename_negative, Literal.rename_positive, hl, hnext]
      exact congrArg _ (congrArg _ (congrArg _ hrest))

theorem renameAll_pairClauses (hlits : ∀ l ∈ lits, ρ l.var = l.var) :
    Clause.renameAll ρ (pairClauses lits) = pairClauses lits := by
  induction lits with
  | nil => rfl
  | cons l rest ih =>
    have hself : ∀ m ∈ l :: rest, m.rename ρ = m := fun m hm => Literal.rename_eq_self (hlits m hm)
    have hrest := ih fun m hm => hlits m (List.mem_cons_of_mem _ hm)
    rw [Clause.renameAll] at hrest ⊢
    rw [pairClauses, List.map_append, hrest, List.map_map]
    refine congrArg (· ++ pairClauses rest) (List.map_congr_left fun m hm => ?_)
    simp only [Function.comp_apply, List.map_cons, List.map_nil, Literal.rename_negate,
      hself l List.mem_cons_self, hself m (List.mem_cons_of_mem _ hm)]

/-- Clauses over issued ids are those over consecutive ids with their new variables renamed. -/
theorem issuedClauses_eq (encoding : AtMostOne) {next : Nat} (s : σ)
    (hlits : ∀ l ∈ lits, ρ l.var = l.var) (hids : ∀ i, i + 1 < lits.length → ρ (next + i) = nth s i) :
    (encoding.issuedClauses lits s).1 = Clause.renameAll ρ (encoding.clauses lits next).1 := by
  match lits, encoding with
  | [], _ => rfl
  | [_], _ => rfl
  | _ :: _ :: _, .pairwise => exact (renameAll_pairClauses hlits).symm
  | l :: m :: rest, .sequential =>
    have hl : l.rename ρ = l := Literal.rename_eq_self (hlits l List.mem_cons_self)
    have hfirst : ρ next = (fresh s).1 := hids 0 (by simp)
    have hrest := issuedCounter_eq next (next + 1) (fresh s).2
      (fun k hk => hlits k (List.mem_cons_of_mem _ hk)) fun i hi => by
        rw [Nat.succ_add_eq_add_succ]
        exact hids (i + 1) (by simpa using hi)
    rw [hfirst] at hrest
    simp only [issuedClauses, clauses, Clause.renameAll, List.map_cons, List.map_nil,
      Literal.rename_negate, Literal.rename_positive, hl, hfirst]
    exact congrArg _ hrest

/-! ## The meaning of the encodings -/

theorem clauses_snd_le (encoding : AtMostOne) (lits : List Literal) (next : Nat) :
    (encoding.clauses lits next).2 ≤ next + (lits.length - 1) := by
  match lits, encoding with
  | [], _ => exact Nat.le_add_right _ _
  | [_], _ => exact Nat.le_add_right _ _
  | _ :: _ :: _, .pairwise => exact Nat.le_add_right _ _
  | _ :: _ :: _, .sequential => exact Nat.le_refl _

/-- With a counter above the variables of the literals, the assignments admitted are those with at
most one true position. -/
theorem admits_clauses (encoding : AtMostOne) {next : Nat} (h : ∀ l ∈ lits, l.var < next) :
    Admits lits (encoding.clauses lits next).1 v ↔ lits.countP (·.holds v) ≤ 1 := by
  rw [← atMostOneHolds_iff_countP]
  constructor
  · rintro ⟨w, hagree, hmodel⟩
    refine (List.Pairwise.iff_of_mem fun {l m} hl hm => ?_).1 (atMostOneHolds_of_clauses hmodel)
    rw [Admits.holds_eq hagree hl, Admits.holds_eq hagree hm]
  · intro hone
    obtain ⟨w, hagree, hmodel⟩ := exists_clauses encoding h hone
    exact ⟨w, fun l hl => hagree l.var (h l hl), hmodel⟩

theorem admits_issuedClauses (encoding : AtMostOne) {s : σ} (h : IsFreshFor lits s) :
    Admits lits (encoding.issuedClauses lits s).1 v ↔ lits.countP (·.holds v) ≤ 1 := by
  obtain ⟨next, ρ, hnext, hlits, hids, hρ⟩ := IdIssuer.exists_renaming lits s
  have hinjective := hρ (lits.length - 1) (fun i hi => h.above i (by omega))
    fun i hi j hj => h.distinct i j (by omega) (by omega)
  have hbelow := (allBelow_clauses encoding hnext).mono (clauses_snd_le encoding lits next)
  rw [issuedClauses_eq encoding s hlits fun i _ => hids i, Admits.renameAll_iff hbelow
    (fun l hl => ⟨Nat.lt_add_right _ (hnext l hl), hlits l hl⟩) hinjective,
    admits_clauses encoding hnext]

/-- With at most one true position, some literal holds if the true positions are one. -/
theorem holds_and_countP_le_one_iff :
    Clause.holds lits v = true ∧ lits.countP (·.holds v) ≤ 1 ↔ lits.countP (·.holds v) = 1 := by
  rw [Clause.holds_iff, ← List.countP_pos_iff, Nat.le_antisymm_iff, and_comm]
  rfl

/-- The cardinality encodings mean what they say. Whatever issues their variables, as long as the ids
are new, an assignment of the variables of the literals extends to a model of the clauses of either
encoding exactly if it makes at most one position of the list true, for an at-most-one constraint, or
exactly one, for an exactly-one constraint. So both encodings admit the same assignments. -/
theorem encodings_exact (lits : List Literal) (v : Nat → Bool) :
    (∀ next, (∀ l ∈ lits, l.var < next) → ∀ encoding : AtMostOne,
      (Admits lits (encoding.clauses lits next).1 v ↔ lits.countP (·.holds v) ≤ 1) ∧
      (Admits lits (encoding.exactlyOne lits next).1 v ↔ lits.countP (·.holds v) = 1)) ∧
    ∀ {σ : Type} [IdIssuer σ] (s : σ), IsFreshFor lits s →
      (∀ encoding : AtMostOne,
        (Admits lits (encoding.issuedClauses lits s).1 v ↔ lits.countP (·.holds v) ≤ 1) ∧
        (Admits lits (encoding.issuedExactlyOne lits s).1 v ↔ lits.countP (·.holds v) = 1)) ∧
      (Admits lits (pairwise.issuedClauses lits s).1 v ↔
        Admits lits (sequential.issuedClauses lits s).1 v) ∧
      (Admits lits (pairwise.issuedExactlyOne lits s).1 v ↔
        Admits lits (sequential.issuedExactlyOne lits s).1 v) := by
  have hone : ∀ {σ : Type} [IdIssuer σ] (s : σ), IsFreshFor lits s → ∀ encoding : AtMostOne,
      (Admits lits (encoding.issuedClauses lits s).1 v ↔ lits.countP (·.holds v) ≤ 1) ∧
      (Admits lits (encoding.issuedExactlyOne lits s).1 v ↔ lits.countP (·.holds v) = 1) := by
    intro σ _ s h encoding
    have hatMost := admits_issuedClauses encoding h (v := v)
    exact ⟨hatMost, Admits.cons_self_iff.trans
      ((and_congr_right fun _ => hatMost).trans holds_and_countP_le_one_iff)⟩
  refine ⟨fun next h encoding => ?_, fun s h => ⟨hone s h, ?_, ?_⟩⟩
  · rw [← issuedClauses_counter, ← issuedExactlyOne_counter]
    exact hone next (IdIssuer.isFreshFor_counter h) encoding
  · exact (hone s h _).1.trans (hone s h _).1.symm
  · exact (hone s h _).2.trans (hone s h _).2.symm

namespace Sample

/-- A literal that stands at two positions, and one of the other sign. -/
def repeated : List Literal := [.positive 1, .negative 2, .positive 1]

/-- An issuer of the ids from 3 on. -/
def linked : LinkedNumbering Nat Nat := (Numbering.startingAt 3).link Nat

end Sample

open Sample in
/-- The repeated literal must not hold; with it false, the other one alone can. -/
theorem encodings_exact_repeated :
    IsFreshFor repeated linked ∧ (∀ l ∈ repeated, l.var < 3) ∧
      ¬ Admits repeated (sequential.issuedClauses repeated linked).1 (fun _ => true) ∧
      Admits repeated (pairwise.issuedExactlyOne repeated linked).1 (fun _ => false) ∧
      ¬ Admits repeated (sequential.clauses repeated 3).1 (fun _ => true) ∧
      Admits repeated (sequential.exactlyOne repeated 3).1 (fun _ => false) := by
  have hfresh : IsFreshFor repeated linked := by decide
  have hvars : ∀ l ∈ repeated, l.var < 3 := by decide
  have htwice : ¬ repeated.countP (·.holds fun _ => true) ≤ 1 := by decide
  have honce : repeated.countP (·.holds fun _ => false) = 1 := by decide
  obtain ⟨hcounted, hissued⟩ := encodings_exact repeated fun _ => true
  obtain ⟨hcounted', hissued'⟩ := encodings_exact repeated fun _ => false
  exact ⟨hfresh, hvars, fun h => htwice (((hissued linked hfresh).1 sequential).1.1 h),
    ((hissued' linked hfresh).1 pairwise).2.2 honce,
    fun h => htwice ((hcounted 3 hvars sequential).1.1 h), (hcounted' 3 hvars sequential).2.2 honce⟩

end AtMostOne

end CircuitEquiv
