-- SUMMARY: The steps of a comparison, with what holds of their results and the reasons for which they refuse.
import CircuitEquiv.Equivalence
import CircuitEquiv.Proofs.Circuit.FullEquivalence
import CircuitEquiv.Proofs.Interaction.Endings
import CircuitEquiv.Proofs.Sat.Clause

/-!
# Steps of a comparison

A step answers when it ends with a result that it promises, or with an error that it may end with: the
circuits are not equivalent, the time is up, or the formula cannot be written. Steps that answer can be
composed, so a comparison is followed step by step.
-/

namespace CircuitEquiv.Comparison

variable {α β : Type}

/-! ## Endings -/

/-- A step can end with a result after the given readings of the clock, whatever times it records. -/
def Steps.Ends (x : Steps α) (ts : List Nat) (r : Except EquivalenceError α) : Prop :=
  ∃ timings timings', Interaction.Ends (x.run timings) ts (r, timings')

namespace Steps

variable {x : Steps α} {f : α → Steps β} {a : α} {ts : List Nat} {r : Except EquivalenceError α}

theorem eq_of_ends_pure (h : Ends (pure a) ts r) : ts = [] ∧ r = .ok a := by
  obtain ⟨timings, timings', h⟩ := h
  obtain ⟨rfl, heq⟩ := Interaction.ends_done_iff.1 h
  exact ⟨rfl, congrArg Prod.fst heq⟩

theorem eq_of_ends_throw {e : EquivalenceError} (h : Ends (throw e : Steps α) ts r) :
    ts = [] ∧ r = .error e := by
  obtain ⟨timings, timings', h⟩ := h
  obtain ⟨rfl, heq⟩ := Interaction.ends_done_iff.1 h
  exact ⟨rfl, congrArg Prod.fst heq⟩

theorem exists_of_ends_bind {r : Except EquivalenceError β} (h : Ends (x >>= f) ts r) :
    (∃ e, Ends x ts (.error e) ∧ r = .error e) ∨
      ∃ ts₁ ts₂ a, ts = ts₁ ++ ts₂ ∧ Ends x ts₁ (.ok a) ∧ Ends (f a) ts₂ r := by
  obtain ⟨timings, timings', h⟩ := h
  obtain ⟨ts₁, ts₂, ⟨y, timings''⟩, rfl, hx, hf⟩ := Interaction.ends_bind_iff.1 h
  cases y with
  | ok a => exact Or.inr ⟨ts₁, ts₂, a, rfl, ⟨_, _, hx⟩, _, _, hf⟩
  | error e =>
    obtain ⟨rfl, heq⟩ := Interaction.ends_done_iff.1 hf
    refine Or.inl ⟨e, ⟨timings, timings'', ?_⟩, congrArg Prod.fst heq⟩
    rw [List.append_nil]
    exact hx

theorem ends_of_ends_untimed {x : Attempt EquivalenceError α} (h : Ends (untimed x) ts r) :
    x.run.Ends ts r := by
  obtain ⟨timings, timings', h⟩ := h
  obtain ⟨ts₁, ts₂, y, rfl, hx, hf⟩ := Interaction.ends_bind_iff.1 h
  obtain ⟨rfl, heq⟩ := Interaction.ends_done_iff.1 hf
  obtain rfl : r = y := congrArg Prod.fst heq
  rwa [List.append_nil]

/-- A timed step reads the clock before and after. -/
theorem exists_of_ends_inPhase {phase : Phase} {x : Unit → Attempt EquivalenceError α}
    (h : Ends (inPhase phase x) ts r) : ∃ ts', ts'.Sublist ts ∧ (x ()).run.Ends ts' r := by
  obtain ⟨timings, timings', h⟩ := h
  obtain ⟨ts₀, _, start, rfl, -, h⟩ := Interaction.ends_bind_iff.1 h
  obtain ⟨ts₁, ts₂, y, rfl, hx, h⟩ := Interaction.ends_bind_iff.1 h
  obtain ⟨ts₃, ts₄, finish, rfl, -, h⟩ := Interaction.ends_bind_iff.1 h
  obtain ⟨rfl, heq⟩ := Interaction.ends_done_iff.1 h
  obtain rfl : r = y := congrArg Prod.fst heq
  exact ⟨ts₁, (List.sublist_append_left _ _).trans (List.sublist_append_right _ _), hx⟩

end Steps

/-! ## Answers -/

/-- The errors that a comparison may end with after the given readings of the clock. -/
inductive Refusal (solve : Solver) (left right : Circuit) (options : EquivalenceOptions)
    (ts : List Nat) : EquivalenceError → Prop
  | notEquivalent {difference : Difference} (h : solve.Correct → ¬ left.Equivalent right) :
      Refusal solve left right options ts (.notEquivalent difference)
  | timeout {phase : Phase} {best : Option Mapping} (h : Deadline.Overruns options.timeout ts) :
      Refusal solve left right options ts (.timeout phase best)
  | undumped {path : String} (h : options.dumpPath = some path) :
      Refusal solve left right options ts (.dump path)

/-- After some readings of the clock, every ending is a promised result or a refusal. -/
def Answers (solve : Solver) (left right : Circuit) (options : EquivalenceOptions) (before : List Nat)
    (ends : List Nat → Except EquivalenceError α → Prop) (promise : α → Prop) : Prop :=
  ∀ ts r, ends ts r → (∃ a, r = .ok a ∧ promise a) ∨
    ∃ e, r = .error e ∧ Refusal solve left right options (before ++ ts) e

variable {solve : Solver} {left right : Circuit} {options : EquivalenceOptions}

theorem Refusal.mono {ts ts' : List Nat} {e : EquivalenceError}
    (h : Refusal solve left right options ts e) (hts : ts.Sublist ts') :
    Refusal solve left right options ts' e := by
  cases h with
  | notEquivalent h => exact .notEquivalent h
  | timeout h => exact .timeout (h.mono hts)
  | undumped h => exact .undumped h

namespace Answers

variable {before : List Nat} {promise : α → Prop} {promise' : β → Prop}

theorem pure {a : α} (h : promise a) :
    Answers solve left right options before (Steps.Ends (pure a)) promise := by
  intro ts r hends
  obtain ⟨-, rfl⟩ := Steps.eq_of_ends_pure hends
  exact Or.inl ⟨a, rfl, h⟩

/-- A difference is a refusal where equivalent circuits do not show it. -/
theorem throw {difference : Difference} (h : solve.Correct → ¬ left.Equivalent right) :
    Answers solve left right options before
      (Steps.Ends (MonadExcept.throw (EquivalenceError.notEquivalent difference))) promise := by
  intro ts r hends
  obtain ⟨-, rfl⟩ := Steps.eq_of_ends_throw hends
  exact Or.inr ⟨_, rfl, .notEquivalent h⟩

theorem bind {x : Steps α} {f : α → Steps β}
    (hx : Answers solve left right options before x.Ends promise)
    (hf : ∀ a, promise a → Answers solve left right options before (f a).Ends promise') :
    Answers solve left right options before (x >>= f).Ends promise' := by
  intro ts r hends
  rcases Steps.exists_of_ends_bind hends with ⟨e, he, rfl⟩ | ⟨ts₁, ts₂, a, rfl, ha, hr⟩
  · rcases hx ts _ he with ⟨a, heq, -⟩ | ⟨e', heq, hrefusal⟩
    · cases heq
    · cases heq
      exact Or.inr ⟨e, rfl, hrefusal⟩
  · rcases hx ts₁ _ ha with ⟨a', heq, hpromise⟩ | ⟨e, heq, -⟩
    · cases heq
      rcases hf a hpromise ts₂ r hr with hok | ⟨e, rfl, hrefusal⟩
      · exact Or.inl hok
      · exact Or.inr ⟨e, rfl, hrefusal.mono ((List.sublist_append_right _ _).append_left _)⟩
    · cases heq

variable {x : Attempt EquivalenceError α}

theorem untimed (hx : Answers solve left right options before x.run.Ends promise) :
    Answers solve left right options before (untimed x).Ends promise :=
  fun ts r hends => hx ts r (Steps.ends_of_ends_untimed hends)

theorem inPhase {phase : Phase} {x : Unit → Attempt EquivalenceError α}
    (hx : Answers solve left right options before (x ()).run.Ends promise) :
    Answers solve left right options before (inPhase phase x).Ends promise := by
  intro ts r hends
  obtain ⟨ts', hsublist, hends⟩ := Steps.exists_of_ends_inPhase hends
  rcases hx ts' r hends with hok | ⟨e, rfl, hrefusal⟩
  · exact Or.inl hok
  · exact Or.inr ⟨e, rfl, hrefusal.mono (hsublist.append_left _)⟩

theorem inPhase_pure (phase : Phase) (a : α) :
    Answers solve left right options before
      (Comparison.inPhase phase fun _ => Pure.pure a).Ends fun b => a = b :=
  .inPhase fun _ _ hends => Or.inl ⟨a, (Attempt.ends_pure_iff.1 hends).2, rfl⟩

theorem orDiffer {y : Except Difference α}
    (h : ∀ difference, y = .error difference → ¬ left.Equivalent right) :
    Answers solve left right options before (orDiffer y).run.Ends fun a => y = .ok a := by
  intro ts r hends
  cases y with
  | ok a => exact Or.inl ⟨a, (Attempt.ends_pure_iff.1 hends).2, rfl⟩
  | error difference =>
    exact Or.inr ⟨_, (Attempt.ends_throw_iff.1 hends).2, .notEquivalent fun _ => h difference rfl⟩

/-! ### Computing against the deadline -/

variable {deadline : Deadline}
  (hbefore : Interaction.Ends (Deadline.after options.timeout) before deadline)

include hbefore

/-- What a computation against the deadline ends with. -/
theorem of_computes {phase : Phase} {y : Except Difference α} (hx : deadline.Computes phase x y)
    (h : ∀ difference, y = .error difference → ¬ left.Equivalent right) :
    Answers solve left right options before x.run.Ends fun a => y = .ok a := by
  intro ts r hends
  rcases hx ts r hends with ⟨-, rfl⟩ | ⟨hout, rfl⟩
  · cases y with
    | ok a => exact Or.inl ⟨a, rfl, rfl⟩
    | error difference =>
      exact Or.inr ⟨_, rfl, .notEquivalent fun _ => h difference rfl⟩
  · exact Or.inr ⟨_, rfl, .timeout (Deadline.overruns_of_ends_after hbefore hout)⟩

theorem check (phase : Phase) :
    Answers solve left right options before (Comparison.untimed (deadline.check phase)).Ends
      fun _ => True := by
  intro ts r hends
  rcases of_computes hbefore .check (fun _ h => nomatch h) ts r (Steps.ends_of_ends_untimed hends)
    with ⟨a, heq, -⟩ | hrefusal
  · exact Or.inl ⟨a, heq, trivial⟩
  · exact Or.inr hrefusal

end Answers

end CircuitEquiv.Comparison
