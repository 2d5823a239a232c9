-- SUMMARY: The outputs of a totalizer count its inputs exactly, whoever issues its variables.
import CircuitEquiv.Proofs.Data.Numbering
import CircuitEquiv.Proofs.Sat.IssuedVariables
import CircuitEquiv.Proofs.Sat.Totalizer

/-!
# Totalizers with variables from any issuer

A totalizer draws its outputs from an issuer. Over other ids its clauses and outputs are those over
consecutive ids with the new variables renamed, so they count the same inputs, and as long as the ids
are new they admit every assignment of the inputs.
-/

namespace CircuitEquiv

/-! ## Issuing several ids -/

namespace IdIssuer

variable {σ : Type} [IdIssuer σ]

/-- Issues as many ids as are asked for. -/
def issue : Nat → σ → List Nat × σ
  | 0, s => ([], s)
  | n + 1, s =>
    let (id, s) := fresh s
    let (ids, s) := issue n s
    (id :: ids, s)

theorem issue_fst (n : Nat) (s : σ) : (issue n s).1 = (List.range n).map (nth s) := by
  induction n generalizing s with
  | zero => rfl
  | succ n ih =>
    simp only [issue, ih, List.range_succ_eq_map, List.map_cons, List.map_map]
    rfl

theorem nth_issue (n : Nat) (s : σ) (i : Nat) : nth (issue n s).2 i = nth s (n + i) := by
  induction n generalizing s with
  | zero => simp [issue]
  | succ n ih =>
    simp only [issue, ih, Nat.succ_add]
    rfl

theorem issue_counter (n next : Nat) :
    issue n next = ((List.range n).map (next + ·), next + n) := by
  have hstate : (issue n next).2 = next + n := by
    induction n generalizing next with
    | zero => rfl
    | succ n ih => simp only [issue, fresh, ih, Nat.succ_add_eq_add_succ]
  refine Prod.ext ?_ hstate
  simp [issue_fst]

/-- All ids are new: above every variable of the literals, and none comes twice. -/
structure IssuesNew (lits : List Literal) (s : σ) : Prop where
  above : ∀ i, ∀ l ∈ lits, l.var < nth s i
  distinct : Function.Injective (nth s)

theorem issuesNew_of_nth {lits : List Literal} {s : σ} {next : Nat} (hs : ∀ i, nth s i = next + i)
    (h : ∀ l ∈ lits, l.var < next) : IssuesNew lits s where
  above i l hl := by
    simpa [hs] using Nat.lt_add_right i (h l hl)
  distinct i j heq := by
    simpa [hs] using heq

theorem nth_numbering {α : Type} (n : Numbering α) (i : Nat) : nth n i = n.nextId + i := by
  induction i generalizing n with
  | zero => rfl
  | succ i ih =>
    refine (ih n.fresh.2).trans ?_
    simp [Nat.add_assoc, Nat.add_comm 1]

/-- A linked numbering issues the ids of its parent. -/
theorem nth_linkedNumbering {α β : Type} (n : LinkedNumbering α β) (i : Nat) :
    nth n i = n.parent.nextId + i := by
  induction i generalizing n with
  | zero => rfl
  | succ i ih =>
    refine (ih n.fresh.2).trans ?_
    simp [LinkedNumbering.fresh, Nat.add_assoc, Nat.add_comm 1]

end IdIssuer

open IdIssuer (nth issue IssuesNew)

namespace Totalizer

variable {σ : Type} [IdIssuer σ]

/-- The counter of two counters, with outputs from an issuer. -/
def issuedMerge (a b : List Literal) (s : σ) : List Literal × List Clause × σ :=
  let (ids, s) := issue (a.length + b.length) s
  let out := ids.map Literal.positive
  (out, ((List.range (a.length + 1)).flatMap fun i =>
    (List.range (b.length + 1)).flatMap fun j => sumClauses a b out i j), s)

/-- Merges the counters of a queue until one is left, with outputs from an issuer. -/
def issuedMergeAll (queue : List (List Literal)) (clauses : List Clause) (s : σ) :
    List Literal × List Clause × σ :=
  match queue with
  | [] => ([], clauses, s)
  | [outputs] => (outputs, clauses, s)
  | a :: b :: rest =>
    let (out, added, s) := issuedMerge a b s
    issuedMergeAll (rest ++ [out]) (clauses ++ added) s
termination_by queue.length
decreasing_by simp

/-- The counter of a list of literals, with outputs from an issuer. -/
def issued (lits : List Literal) (s : σ) : List Literal × List Clause × σ :=
  issuedMergeAll (lits.map ([·])) [] s

variable {a b outputs lits : List Literal} {clauses : List Clause} {ρ : Nat → Nat} {next k : Nat}

theorem issuedMergeAll_cons_cons (a b : List Literal) (rest : List (List Literal))
    (clauses : List Clause) (s : σ) : issuedMergeAll (a :: b :: rest) clauses s =
      issuedMergeAll (rest ++ [(issuedMerge a b s).1]) (clauses ++ (issuedMerge a b s).2.1)
        (issuedMerge a b s).2.2 := by
  rw [issuedMergeAll]

/-! ## Outputs over consecutive ids -/

theorem issuedMerge_counter (a b : List Literal) (next : Nat) : issuedMerge a b next =
    ((merge a b next).1, (merge a b next).2, next + (merge a b next).1.length) := by
  simp [issuedMerge, IdIssuer.issue_counter, merge, Function.comp_def]

/-- On a counter, merging with an issuer is merging with consecutive ids. -/
theorem issuedMergeAll_counter (queue : List (List Literal)) (clauses : List Clause) (next : Nat) :
    issuedMergeAll queue clauses next = mergeAll queue clauses next := by
  induction queue, clauses, next using mergeAll.induct with
  | case1 clauses next => simp [issuedMergeAll, mergeAll]
  | case2 clauses next outputs => simp [issuedMergeAll, mergeAll]
  | case3 clauses next a b rest out added hmerge ih =>
    obtain ⟨rfl, rfl⟩ := Prod.ext_iff.1 hmerge
    simpa only [issuedMergeAll_cons_cons, mergeAll_cons_cons, issuedMerge_counter] using ih

theorem issued_counter (lits : List Literal) (next : Nat) :
    issued lits next = ofLiterals lits next := issuedMergeAll_counter _ _ _

/-! ## Outputs over other ids -/

theorem atLeast?_map (f : Literal → Literal) (outputs : List Literal) (k : Nat) :
    atLeast? (outputs.map f) k = (atLeast? outputs k).map f := by
  cases k <;> simp [atLeast?]

theorem sumClauses_rename (ρ : Nat → Nat) (a b outputs : List Literal) (i j : Nat) :
    sumClauses (a.map (·.rename ρ)) (b.map (·.rename ρ)) (outputs.map (·.rename ρ)) i j =
      Clause.renameAll ρ (sumClauses a b outputs i j) := by
  have hnegate : ∀ o : Option Literal, (o.map (·.rename ρ)).toList.map Literal.negate =
      (o.toList.map Literal.negate).map (·.rename ρ) := by
    intro o
    cases o <;> rfl
  simp only [sumClauses, atLeast?_map, hnegate, List.length_map, Clause.renameAll]
  split <;> split <;> simp [Option.toList_map]

/-- Issued ids take the places of consecutive ones, from `next` on. -/
def Issues (ρ : Nat → Nat) (next : Nat) (s : σ) : Prop := ∀ i, ρ (next + i) = nth s i

theorem issuedMerge_eq {s : σ} (hids : Issues ρ next s) (a b : List Literal) :
    (issuedMerge (a.map (·.rename ρ)) (b.map (·.rename ρ)) s).1 =
        (merge a b next).1.map (·.rename ρ) ∧
      (issuedMerge (a.map (·.rename ρ)) (b.map (·.rename ρ)) s).2.1 =
        Clause.renameAll ρ (merge a b next).2 ∧
      Issues ρ (next + (merge a b next).1.length)
        (issuedMerge (a.map (·.rename ρ)) (b.map (·.rename ρ)) s).2.2 := by
  have hout : ((issue (a.length + b.length) s).1.map Literal.positive) =
      (merge a b next).1.map (·.rename ρ) := by
    simp [IdIssuer.issue_fst, merge, Literal.rename_positive, hids _]
  refine ⟨?_, ?_, ?_⟩
  · simpa only [issuedMerge, List.length_map] using hout
  · simp only [issuedMerge, List.length_map, hout, sumClauses_rename]
    simp only [merge, Clause.renameAll, List.map_flatMap]
  · intro i
    simpa only [issuedMerge, List.length_map, IdIssuer.nth_issue, length_merge, Nat.add_assoc]
      using hids (a.length + b.length + i)

/-- A totalizer over issued ids is the one over consecutive ids with its variables renamed. -/
theorem issuedMergeAll_eq (queue : List (List Literal)) (clauses : List Clause) {next : Nat} {s : σ}
    (hids : Issues ρ next s) :
    (issuedMergeAll (queue.map (List.map (·.rename ρ))) (Clause.renameAll ρ clauses) s).1 =
        (mergeAll queue clauses next).1.map (·.rename ρ) ∧
      (issuedMergeAll (queue.map (List.map (·.rename ρ))) (Clause.renameAll ρ clauses) s).2.1 =
        Clause.renameAll ρ (mergeAll queue clauses next).2.1 := by
  induction queue, clauses, next using mergeAll.induct generalizing s with
  | case1 clauses next => simp [issuedMergeAll, mergeAll]
  | case2 clauses next outputs => simp [issuedMergeAll, mergeAll]
  | case3 clauses next a b rest out added hmerge ih =>
    obtain ⟨rfl, rfl⟩ := Prod.ext_iff.1 hmerge
    obtain ⟨houtputs, hadded, hnext⟩ := issuedMerge_eq hids a b
    have hrest := ih hnext
    simp only [List.map_append, List.map_cons, List.map_nil, Clause.renameAll] at hrest hadded ⊢
    simpa only [issuedMergeAll_cons_cons, mergeAll_cons_cons, houtputs, hadded, Clause.renameAll]
      using hrest

theorem issued_eq {s : σ} (hids : Issues ρ next s) (hlits : ∀ l ∈ lits, ρ l.var = l.var) :
    (issued lits s).1 = (ofLiterals lits next).1.map (·.rename ρ) ∧
      (issued lits s).2.1 = Clause.renameAll ρ (ofLiterals lits next).2.1 := by
  have hself : (lits.map ([·])).map (List.map (·.rename ρ)) = lits.map ([·]) := by
    simp only [List.map_map]
    exact List.map_congr_left fun l hl => by simp [Literal.rename_eq_self (hlits l hl)]
  have hrename := issuedMergeAll_eq (lits.map ([·])) [] hids
  rwa [hself] at hrename

/-! ## What a totalizer counts -/

/-- The outputs count the literals wherever the clauses hold, there is one for each number of literals,
and every assignment of the variables of the literals extends to one under which the clauses hold. -/
structure IsExact (lits outputs : List Literal) (clauses : List Clause) : Prop where
  admits : ∀ v, Admits lits clauses v
  length_eq : outputs.length = lits.length
  isSome_iff : ∀ k, (atLeast? outputs k).isSome = true ↔ 1 ≤ k ∧ k ≤ lits.length
  holds_iff : ∀ v, Clause.allHold clauses v = true → ∀ k l, atLeast? outputs k = some l →
    (l.holds v = true ↔ k ≤ trueCount v lits)

theorem isSome_atLeast?_iff :
    (atLeast? outputs k).isSome = true ↔ 1 ≤ k ∧ k ≤ outputs.length := by
  constructor
  · intro h
    obtain ⟨l, hl⟩ := Option.isSome_iff_exists.1 h
    exact ⟨(atLeast?_eq_some_iff.1 hl).1, le_length_of_atLeast? hl⟩
  · intro h
    obtain ⟨l, hl⟩ := exists_atLeast? h.1 h.2
    simp [hl]

theorem isExact_ofLiterals (h : ∀ l ∈ lits, l.var < next) :
    IsExact lits (ofLiterals lits next).1 (ofLiterals lits next).2.1 where
  admits v := by
    obtain ⟨w, hagree, -, hmodel⟩ := exists_ofLiterals v h
    exact ⟨w, fun l hl => hagree l.var (h l hl), hmodel⟩
  length_eq := length_ofLiterals lits next
  isSome_iff k := by
    rw [isSome_atLeast?_iff, length_ofLiterals]
  holds_iff v hmodel := (counts_ofLiterals hmodel).holds_iff

/-- Renaming the outputs and no variable of the literals keeps what is counted. -/
theorem IsExact.rename {bound : Nat} (h : IsExact lits outputs clauses)
    (hbelow : Clause.AllBelow bound clauses) (hlits : ∀ l ∈ lits, l.var < bound ∧ ρ l.var = l.var)
    (hρ : Set.InjOn ρ (Set.Iio bound)) :
    IsExact lits (outputs.map (·.rename ρ)) (Clause.renameAll ρ clauses) where
  admits v := (Admits.renameAll_iff hbelow hlits hρ).2 (h.admits v)
  length_eq := by simpa using h.length_eq
  isSome_iff k := by simpa [atLeast?_map] using h.isSome_iff k
  holds_iff v hmodel k l hl := by
    have hcount : trueCount (fun x => v (ρ x)) lits = trueCount v lits :=
      List.countP_congr fun l hl => by simp [Literal.holds, (hlits l hl).2]
    simp only [atLeast?_map, Option.map_eq_some_iff] at hl
    obtain ⟨l, hl, rfl⟩ := hl
    simp only [Clause.allHold_renameAll] at hmodel
    simpa only [hcount, Literal.holds_rename] using h.holds_iff _ hmodel k l hl

theorem isExact_issued {s : σ} (h : IssuesNew lits s) :
    IsExact lits (issued lits s).1 (issued lits s).2.1 := by
  obtain ⟨next, ρ, hnext, hlits, hids, hρ⟩ := IdIssuer.exists_renaming lits s
  have hids : Issues ρ next s := hids
  obtain ⟨houtputs, hclauses⟩ := issued_eq hids hlits
  have hbelow := allBelow_ofLiterals hnext
  -- the clauses mention ids up to some bound only, and as many issued ids are new
  have hinjective := hρ (ofLiterals lits next).2.2 (fun i _ => h.above i)
    fun i _ j _ heq => h.distinct heq
  have hle : (ofLiterals lits next).2.2 ≤ next + (ofLiterals lits next).2.2 := Nat.le_add_left _ _
  rw [houtputs, hclauses]
  exact (isExact_ofLiterals hnext).rename (Clause.AllBelow.mono hbelow hle)
    (fun l hl => ⟨Nat.lt_add_right _ (hnext l hl), hlits l hl⟩) hinjective

/-- A totalizer counts its inputs exactly, whoever issues its variables, as long as the ids are new: it
has one output for each number of inputs and no other, every assignment of the inputs extends to a model
of its clauses, and in every model the output for `k` holds exactly if at least `k` positions of the
list of inputs do. The ids of a counter, of a numbering and of a linked one are new as soon as they are
above the variables of the inputs. -/
theorem counts_exactly (lits : List Literal) :
    (∀ next, issued lits next = ofLiterals lits next) ∧
    (∀ next, (∀ l ∈ lits, l.var < next) →
      IsExact lits (ofLiterals lits next).1 (ofLiterals lits next).2.1) ∧
    (∀ {α : Type} (n : Numbering α), (∀ l ∈ lits, l.var < n.nextId) →
      IsExact lits (issued lits n).1 (issued lits n).2.1) ∧
    (∀ {α β : Type} (n : LinkedNumbering α β), (∀ l ∈ lits, l.var < n.parent.nextId) →
      IsExact lits (issued lits n).1 (issued lits n).2.1) ∧
    ∀ {σ : Type} [IdIssuer σ] (s : σ), IssuesNew lits s →
      IsExact lits (issued lits s).1 (issued lits s).2.1 := by
  refine ⟨issued_counter lits, fun next h => isExact_ofLiterals h, ?_, ?_, fun s h => isExact_issued h⟩
  · intro α n h
    exact isExact_issued (IdIssuer.issuesNew_of_nth (IdIssuer.nth_numbering n) h)
  · intro α β n h
    exact isExact_issued (IdIssuer.issuesNew_of_nth (IdIssuer.nth_linkedNumbering n) h)

open AtMostOne.Sample in
/-- In a list of three inputs, one of them at two positions and one negative, a linked numbering issues the
outputs. -/
theorem counts_exactly_repeated : IssuesNew repeated linked ∧ (∀ l ∈ repeated, l.var < 3) ∧
    (∀ l ∈ repeated, l.var < linked.parent.nextId) ∧
    IsExact repeated (issued repeated linked).1 (issued repeated linked).2.1 ∧
    IsExact repeated (ofLiterals repeated 3).1 (ofLiterals repeated 3).2.1 := by
  have hvars : ∀ l ∈ repeated, l.var < 3 := by decide
  have hnew : IssuesNew repeated linked :=
    IdIssuer.issuesNew_of_nth (IdIssuer.nth_linkedNumbering linked) hvars
  obtain ⟨-, hcounted, -, -, hissued⟩ := counts_exactly repeated
  exact ⟨hnew, hvars, hvars, hissued linked hnew, hcounted 3 hvars⟩

end Totalizer

end CircuitEquiv
