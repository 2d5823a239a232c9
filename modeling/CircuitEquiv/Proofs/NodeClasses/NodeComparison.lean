-- SUMMARY: Comparing two nodes: what the answer says about their sub-circuits, and when there is none.
import CircuitEquiv.NodeClasses
import CircuitEquiv.Proofs.Circuit.Composition
import CircuitEquiv.Proofs.Dag.SubCircuit
import CircuitEquiv.Proofs.Equivalence.Verdict

/-!
# Comparing nodes

Equivalence of sub-circuits is an equivalence relation on the live nodes of a well-formed graph. A
comparison of two nodes returns a mapping only if they are equivalent, and none only if they are not or
the time ran out, which is noted. It fails only where a formula is to be written.
-/

namespace CircuitEquiv

open Interaction (Ends)

/-! ## Attempts that note late comparisons -/

namespace NotingAttempt

variable {α β : Type} {timeout : Option Nat} {mayFail : Prop}

/-- Whatever the clock shows, the attempt ends with a result that is promised in view of the comparisons
that it notes, and it notes some only if the clock overruns the budget; or it fails, if it may. -/
def Answers (timeout : Option Nat) (mayFail : Prop) (x : NotingAttempt α)
    (promise : List LateComparison → α → Prop) : Prop :=
  ∀ noted ts r, Ends (x.run noted).run ts r →
    (∃ a late, r = .ok (a, noted ++ late) ∧ (late ≠ [] → Deadline.Overruns timeout ts) ∧
      promise late a) ∨ (∃ e, r = .error e) ∧ mayFail

namespace Answers

variable {promise : List LateComparison → α → Prop} {promise' : List LateComparison → β → Prop}

theorem pure {a : α} (h : promise [] a) : Answers timeout mayFail (pure a) promise := by
  intro noted ts r hends
  obtain ⟨-, rfl⟩ := Attempt.ends_pure_iff.1 hends
  exact Or.inl ⟨a, [], by rw [List.append_nil], fun h => absurd rfl h, h⟩

theorem bind {x : NotingAttempt α} {f : α → NotingAttempt β}
    (hx : Answers timeout mayFail x promise)
    (hf : ∀ late a, promise late a →
      Answers timeout mayFail (f a) fun late' b => promise' (late ++ late') b) :
    Answers timeout mayFail (x >>= f) promise' := by
  intro noted ts r hends
  rw [StateT.run_bind] at hends
  rcases Attempt.ends_bind_iff.1 hends with ⟨e, he, rfl⟩ | ⟨ts₁, ts₂, ⟨a, noted'⟩, rfl, ha, hr⟩
  · rcases hx noted ts _ he with ⟨a, late, heq, -⟩ | ⟨-, hfail⟩
    · cases heq
    · exact Or.inr ⟨⟨e, rfl⟩, hfail⟩
  · rcases hx noted ts₁ _ ha with ⟨a', late, heq, hlate, hpromise⟩ | ⟨⟨e, heq⟩, -⟩
    · cases heq
      rcases hf late a hpromise _ ts₂ r hr with ⟨b, late', rfl, hlate', hpromise'⟩ | hfail
      · refine Or.inl ⟨b, late ++ late', by rw [List.append_assoc], fun hne => ?_, hpromise'⟩
        by_cases hnil : late = []
        · refine (hlate' fun h => hne ?_).mono (List.sublist_append_right _ _)
          rw [hnil, h, List.append_nil]
        · exact (hlate hnil).mono (List.sublist_append_left _ _)
      · exact Or.inr hfail
    · cases heq

theorem mono {x : NotingAttempt α} {promise' : List LateComparison → α → Prop}
    (hx : Answers timeout mayFail x promise) (h : ∀ late a, promise late a → promise' late a) :
    Answers timeout mayFail x promise' := by
  intro noted ts r hends
  rcases hx noted ts r hends with ⟨a, late, heq, hlate, hpromise⟩ | hfail
  · exact Or.inl ⟨a, late, heq, hlate, h late a hpromise⟩
  · exact Or.inr hfail

theorem imp {mayFail' : Prop} {x : NotingAttempt α} (hx : Answers timeout mayFail x promise)
    (h : mayFail → mayFail') : Answers timeout mayFail' x promise :=
  fun noted ts r hends => (hx noted ts r hends).imp_right fun hfail => ⟨hfail.1, h hfail.2⟩

/-- An attempt that compares no nodes notes nothing. -/
theorem lift {x : DagAttempt α} {promise : α → Prop}
    (h : ∀ ts r, Ends x.run ts r → (∃ a, r = .ok a ∧ promise a) ∨ (∃ e, r = .error e) ∧ mayFail) :
    Answers timeout mayFail (liftM x) fun late a => late = [] ∧ promise a := by
  intro noted ts r hends
  have hends : Ends (x >>= fun a => Pure.pure (a, noted)).run ts r := hends
  rcases Attempt.ends_bind_iff.1 hends with ⟨e, he, rfl⟩ | ⟨ts₁, ts₂, a, rfl, ha, hends⟩
  · rcases h ts _ he with ⟨_, heq, -⟩ | hfail
    · cases heq
    · exact Or.inr ⟨⟨e, rfl⟩, hfail.2⟩
  · rcases h ts₁ _ ha with ⟨_, heq, hpromise⟩ | ⟨⟨_, heq⟩, -⟩
    · cases heq
      exact Or.inl ⟨a, [], by rw [(Attempt.ends_pure_iff.1 hends).2, List.append_nil],
        fun hne => absurd rfl hne, rfl, hpromise⟩
    · cases heq

/-- What every step keeps holds after the last one. -/
theorem foldlM {l : List α} {step : β → α → NotingAttempt β} {I : β → Prop} {b : β}
    (hstep : ∀ b, ∀ a ∈ l, I b → Answers timeout mayFail (step b a) fun _ b' => I b') (hb : I b) :
    Answers timeout mayFail (l.foldlM step b) fun _ b' => I b' := by
  induction l generalizing b with
  | nil => exact .pure hb
  | cons a rest ih =>
    rw [List.foldlM_cons]
    exact .bind (hstep b a List.mem_cons_self hb) fun _ b' hb' =>
      ih (fun b a ha => hstep b a (List.mem_cons_of_mem _ ha)) hb'

/-- Each result is promised in view of notes that are none if there are none at all. -/
theorem mapM {l : List α} {f : α → NotingAttempt β} {promise : α → List LateComparison → β → Prop}
    (h : ∀ a ∈ l, Answers timeout mayFail (f a) (promise a)) :
    Answers timeout mayFail (l.mapM f) fun late bs =>
      l.Forall₂ (fun a b => ∃ late', promise a late' b ∧ (late = [] → late' = [])) bs := by
  induction l with
  | nil => exact .pure .nil
  | cons a rest ih =>
    rw [List.mapM_cons]
    refine .bind (h a List.mem_cons_self) fun late b hb =>
      .bind (ih fun a ha => h a (List.mem_cons_of_mem _ ha)) fun late' bs hbs => .pure ?_
    rw [List.append_nil]
    refine .cons ⟨late, hb, fun hnil => (List.append_eq_nil_iff.1 hnil).1⟩ (hbs.imp ?_)
    rintro a b ⟨late'', hpromise, hlate⟩
    exact ⟨late'', hpromise, fun hnil => hlate (List.append_eq_nil_iff.1 hnil).2⟩

end Answers

end NotingAttempt

/-! ## Equivalent nodes -/

namespace Dag

variable {d : Dag} {a b c : NodeId}

/-- The sub-circuits of two nodes are equivalent. -/
def AreEquivalent (d : Dag) (a b : NodeId) : Prop :=
  ∃ l r, d.subCircuit a = .ok l ∧ d.subCircuit b = .ok r ∧ l.circuit.Equivalent r.circuit

/-- The sub-circuit of a node is proper and has the field, the dialect and the size that the node has in
the graph. -/
structure IsProperPart (d : Dag) (id : NodeId) (sub : SubCircuit) : Prop where
  subCircuit : d.subCircuit id = .ok sub
  proper : sub.circuit.IsProper
  field : sub.circuit.field = d.circuit.field
  dialect : sub.circuit.dialect = d.circuit.dialect
  nConstraints : sub.circuit.nConstraints = (d.node id).constraints.length

/-- Every live node can be cut out as a proper circuit. -/
def HasProperParts (d : Dag) : Prop := ∀ id ∈ d.live, ∃ sub, d.IsProperPart id sub

theorem IsWellFormed.hasProperParts (h : d.IsWellFormed) (hproper : d.circuit.IsProper) :
    d.HasProperParts := by
  intro id hid
  obtain ⟨sub, hsub, hcut⟩ := h.exists_subCircuit hproper.reduced.hasProperKeys hid
  exact ⟨sub, hsub, hcut.isProper hproper fun k hk => h.lt_nConstraints hid hk, hcut.field,
    hcut.dialect, hcut.nConstraints_eq.trans (congrArg List.length hcut.constraints)⟩

/-- Equivalence of two nodes is that of the circuits that they are cut out as. -/
theorem IsProperPart.areEquivalent_iff {l r : SubCircuit} (hl : d.IsProperPart a l)
    (hr : d.IsProperPart b r) : d.AreEquivalent a b ↔ l.circuit.Equivalent r.circuit := by
  constructor
  · rintro ⟨l', r', hl', hr', h⟩
    obtain rfl : l = l' := Except.ok.inj (hl.subCircuit.symm.trans hl')
    obtain rfl : r = r' := Except.ok.inj (hr.subCircuit.symm.trans hr')
    exact h
  · exact fun h => ⟨l, r, hl.subCircuit, hr.subCircuit, h⟩

namespace HasProperParts

variable (h : d.HasProperParts)
include h

theorem areEquivalent_refl (ha : a ∈ d.live) : d.AreEquivalent a a := by
  obtain ⟨sub, hsub⟩ := h a ha
  exact (hsub.areEquivalent_iff hsub).2 (.refl hsub.proper)

theorem areEquivalent_symm (ha : a ∈ d.live) (hb : b ∈ d.live) (hab : d.AreEquivalent a b) :
    d.AreEquivalent b a := by
  obtain ⟨l, hl⟩ := h a ha
  obtain ⟨r, hr⟩ := h b hb
  have hequivalent := (hl.areEquivalent_iff hr).1 hab
  exact (hr.areEquivalent_iff hl).2 (hequivalent.symm hl.proper hr.proper.reduced)

theorem areEquivalent_trans (ha : a ∈ d.live) (hb : b ∈ d.live) (hc : c ∈ d.live)
    (hab : d.AreEquivalent a b) (hbc : d.AreEquivalent b c) : d.AreEquivalent a c := by
  obtain ⟨l, hl⟩ := h a ha
  obtain ⟨m, hm⟩ := h b hb
  obtain ⟨r, hr⟩ := h c hc
  have hequivalent := (hl.areEquivalent_iff hm).1 hab
  have hequivalent' := (hm.areEquivalent_iff hr).1 hbc
  exact (hl.areEquivalent_iff hr).2
    (hequivalent.trans hequivalent' hl.proper hm.proper.reduced hr.proper.reduced)

end HasProperParts

end Dag

/-! ## Comparing -/

namespace NodeClasses

variable {solve : Solver} {d : Dag} {options : ClassOptions} {a b : NodeId} {l r : SubCircuit}

/-- Comparing two nodes is comparing their sub-circuits. -/
theorem ends_compareSubCircuits (hl : d.subCircuit a = .ok l) (hr : d.subCircuit b = .ok r)
    {ts : List Nat} {result : Except StructureError (SubCircuit × SubCircuit × Outcome)}
    (hends : Ends (compareSubCircuits solve d options a b).run ts result) :
    (∃ e, Ends (Comparison.ofCircuits solve l.circuit r.circuit options.equivalence).run ts
      (.error e) ∧ result = .error (.equivalence e)) ∨
    ∃ comparison, Ends (Comparison.ofCircuits solve l.circuit r.circuit options.equivalence).run ts
      (.ok comparison) ∧ result = .ok (l, r, comparison.outcome) := by
  have hcut : compareSubCircuits solve d options a b =
      (Comparison.ofCircuits solve l.circuit r.circuit options.equivalence).adapt .equivalence >>=
        fun comparison => pure (l, r, comparison.outcome) := by
    simp only [compareSubCircuits, subCircuit, hl, hr]
    rfl
  rw [hcut] at hends
  rcases Attempt.ends_bind_iff.1 hends with ⟨e, he, rfl⟩ | ⟨ts₁, ts₂, comparison, rfl, hc, hends⟩
  · obtain ⟨compared, hcompared, heq⟩ := Attempt.ends_adapt_iff.1 he
    cases compared with
    | ok comparison => cases heq
    | error e' =>
      cases heq
      exact Or.inl ⟨e', hcompared, rfl⟩
  · obtain ⟨compared, hcompared, heq⟩ := Attempt.ends_adapt_iff.1 hc
    obtain ⟨rfl, rfl⟩ := Attempt.ends_pure_iff.1 hends
    rw [List.append_nil]
    cases compared with
    | error e => cases heq
    | ok comparison' =>
      cases heq
      exact Or.inr ⟨comparison, hcompared, rfl⟩

/-- What is made of the outcome of a comparison of two nodes. -/
def concludes (options : ClassOptions) (a b : NodeId) (l r : SubCircuit) :
    Outcome → Option Mapping × List LateComparison
  | .equivalent m => (some (if options.undoMapping then l.undoMapping r m else m), [])
  | .notEquivalent _ => (none, [])
  | .timeout phase _ => (none, [⟨a, b, phase⟩])

theorem run_compareNodes (noted : List LateComparison) :
    (compareNodes solve d options a b).run noted = compareSubCircuits solve d options a b >>=
      fun x => pure ((concludes options a b x.1 x.2.1 x.2.2).1,
        noted ++ (concludes options a b x.1 x.2.1 x.2.2).2) := by
  unfold compareNodes
  rw [StateT.run_bind]
  show (compareSubCircuits solve d options a b >>= fun x => pure (x, noted)) >>= _ = _
  rw [bind_assoc]
  refine congrArg _ (funext fun x => ?_)
  obtain ⟨l, r, outcome⟩ := x
  rw [pure_bind]
  cases outcome with
  | equivalent m => simp [concludes]
  | notEquivalent difference => simp [concludes]
  | timeout phase best => simp [concludes]

/-- The counters of all comparisons of live nodes fit into memory. -/
def FitMemory (d : Dag) (options : EquivalenceOptions) : Prop :=
  ∀ a ∈ d.live, ∀ b ∈ d.live, ∀ l r, d.subCircuit a = .ok l → d.subCircuit b = .ok r →
    Comparison.FitsMemory l.circuit r.circuit options

/-- What the conclusion from the outcome of a comparison says about the circuits. -/
theorem concludes_promise (hsolve : solve.Correct) (hl : l.circuit.IsProper) (hr : r.circuit.IsProper)
    (hfits : Comparison.FitsMemory l.circuit r.circuit options.equivalence) {ts : List Nat}
    {comparison : Comparison}
    (hcompared : Ends (Comparison.ofCircuits solve l.circuit r.circuit options.equivalence).run ts
      (.ok comparison)) :
    ((concludes options a b l r comparison.outcome).2 ≠ [] →
      Deadline.Overruns options.equivalence.timeout ts) ∧
    ((concludes options a b l r comparison.outcome).1.isSome = true → l.circuit.Equivalent r.circuit) ∧
    ((concludes options a b l r comparison.outcome).2 = [] →
      (concludes options a b l r comparison.outcome).1 = none → ¬ l.circuit.Equivalent r.circuit) := by
  rcases Comparison.outcome_cases hsolve hl hr hfits hcompared with
    ⟨m, houtcome, hm⟩ | ⟨difference, houtcome, hdifferent⟩ | ⟨phase, best, houtcome, hlate⟩
  all_goals
    rw [houtcome]
    dsimp only [concludes]
  · exact ⟨fun h => absurd rfl h, fun _ => ⟨_, _, hm.acts⟩, fun _ h => nomatch h⟩
  · exact ⟨fun h => absurd rfl h, fun h => absurd h Bool.false_ne_true, fun _ _ => hdifferent⟩
  · exact ⟨fun _ => hlate, fun h => absurd h Bool.false_ne_true,
      fun h => absurd h (List.cons_ne_nil _ _)⟩

/-- Comparing two nodes promises what the conclusions from all outcomes promise. It fails only where a
formula is to be written. -/
theorem answers_compareNodes_of (hsolve : solve.Correct) (hl : d.IsProperPart a l)
    (hr : d.IsProperPart b r)
    (hfits : Comparison.FitsMemory l.circuit r.circuit options.equivalence)
    {promise : List LateComparison → Option Mapping → Prop}
    (h : ∀ ts comparison, Ends (Comparison.ofCircuits solve l.circuit r.circuit
        options.equivalence).run ts (.ok comparison) →
      promise (concludes options a b l r comparison.outcome).2
        (concludes options a b l r comparison.outcome).1) :
    NotingAttempt.Answers options.equivalence.timeout (options.equivalence.dumpPath ≠ none)
      (compareNodes solve d options a b) promise := by
  intro noted ts result hends
  rw [run_compareNodes] at hends
  rcases Attempt.ends_bind_iff.1 hends with ⟨e, he, rfl⟩ | ⟨ts₁, ts₂, x, rfl, hx, hends⟩
  · rcases ends_compareSubCircuits hl.subCircuit hr.subCircuit he with
      ⟨e', hcompared, -⟩ | ⟨comparison, -, heq⟩
    · refine Or.inr ⟨⟨e, rfl⟩, fun hdump => ?_⟩
      obtain ⟨comparison, heq⟩ :=
        Comparison.exists_outcome hsolve.isSound hl.proper hr.proper hfits hdump hcompared
      cases heq
    · cases heq
  · obtain ⟨rfl, rfl⟩ := Attempt.ends_pure_iff.1 hends
    rw [List.append_nil]
    rcases ends_compareSubCircuits hl.subCircuit hr.subCircuit hx with
      ⟨e, -, heq⟩ | ⟨comparison, hcompared, heq⟩
    · cases heq
    obtain rfl := Except.ok.inj heq
    exact Or.inl ⟨_, _, rfl, (concludes_promise hsolve hl.proper hr.proper hfits hcompared).1,
      h _ _ hcompared⟩

/-- A comparison of two live nodes returns a mapping only if they are equivalent, and without one it shows
that they are not, unless it notes that the time ran out. -/
theorem answers_compareNodes (hsolve : solve.Correct) (hparts : d.HasProperParts)
    (hfit : FitMemory d options.equivalence) (ha : a ∈ d.live) (hb : b ∈ d.live) :
    NotingAttempt.Answers options.equivalence.timeout (options.equivalence.dumpPath ≠ none)
      (compareNodes solve d options a b) fun late found =>
        (found.isSome = true → d.AreEquivalent a b) ∧
          (late = [] → found = none → ¬ d.AreEquivalent a b) := by
  obtain ⟨l, hl⟩ := hparts a ha
  obtain ⟨r, hr⟩ := hparts b hb
  have hfits := hfit a ha b hb l r hl.subCircuit hr.subCircuit
  rw [hl.areEquivalent_iff hr]
  exact answers_compareNodes_of hsolve hl hr hfits fun ts comparison hcompared =>
    (concludes_promise hsolve hl.proper hr.proper hfits hcompared).2

end NodeClasses

end CircuitEquiv
