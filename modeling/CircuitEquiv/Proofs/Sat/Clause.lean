-- SUMMARY: When clauses hold, assignments that are changed on new variables only, and solvers that are sound or correct.
import CircuitEquiv.Sat.Solver
import Mathlib.Data.List.Sublists

/-!
# Clauses and solvers

Variables are issued in order, so an assignment is extended by changing it from some variable on.
Clauses that mention earlier variables only are not affected.

The models of a sound solver are models. Clauses and assumptions mention finitely many variables, so one
of finitely many assignments is a model if there is any; trying them all is correct.
-/

namespace CircuitEquiv

/-- Two assignments agree on the variables below `next`. -/
def AgreesBelow (next : Nat) (v w : Nat → Bool) : Prop := ∀ i < next, w i = v i

namespace AgreesBelow

variable {next next' : Nat} {v w u : Nat → Bool}

theorem refl (next : Nat) (v : Nat → Bool) : AgreesBelow next v v := fun _ _ => rfl

theorem trans (h : AgreesBelow next v w) (h' : AgreesBelow next' w u) (hle : next ≤ next') :
    AgreesBelow next v u := fun i hi => (h' i (Nat.lt_of_lt_of_le hi hle)).trans (h i hi)

/-- A new variable can be given any value. -/
theorem update (v : Nat → Bool) (next : Nat) (b : Bool) :
    AgreesBelow next v (Function.update v next b) := fun _ hi =>
  Function.update_of_ne (Nat.ne_of_lt hi) b v

end AgreesBelow

namespace Literal

variable {l : Literal} {v w : Nat → Bool} {next : Nat}

theorem holds_congr (h : w l.var = v l.var) : l.holds w = l.holds v := by
  unfold holds
  rw [h]

theorem holds_of_agreesBelow (h : AgreesBelow next v w) (hl : l.var < next) :
    l.holds w = l.holds v := holds_congr (h _ hl)

@[simp]
theorem holds_positive (n : Nat) (v : Nat → Bool) : (positive n).holds v = v n := by
  simp [holds, positive]

@[simp]
theorem holds_negative (n : Nat) (v : Nat → Bool) : (negative n).holds v = !v n := by
  simp [holds, negative]

@[simp] theorem var_positive (n : Nat) : (positive n).var = n := rfl

@[simp] theorem var_negative (n : Nat) : (negative n).var = n := rfl

@[simp] theorem var_negate (l : Literal) : l.negate.var = l.var := rfl

end Literal

namespace Clause

variable {c : Clause} {cs ds : List Clause} {v w : Nat → Bool} {next next' : Nat}

theorem holds_iff : c.holds v = true ↔ ∃ l ∈ c, l.holds v = true := by simp [holds]

theorem allHold_iff : allHold cs v = true ↔ ∀ c ∈ cs, c.holds v = true := by simp [allHold]

@[simp] theorem allHold_nil : allHold [] v = true := rfl

@[simp]
theorem allHold_cons : allHold (c :: cs) v = true ↔ c.holds v = true ∧ allHold cs v = true := by
  simp [allHold]

@[simp]
theorem allHold_append :
    allHold (cs ++ ds) v = true ↔ allHold cs v = true ∧ allHold ds v = true := by
  simp [allHold]

@[simp]
theorem holds_cons {l : Literal} :
    Clause.holds (l :: c) v = true ↔ l.holds v = true ∨ c.holds v = true := by
  simp [holds]

@[simp] theorem holds_nil : Clause.holds [] v = false := rfl

/-- A clause with a guard holds when the guard fails or the rest holds. -/
theorem holds_negate_cons {l : Literal} :
    Clause.holds (l.negate :: c) v = true ↔ (l.holds v = true → c.holds v = true) := by
  rw [holds_cons, Literal.holds_negate]
  cases l.holds v <;> simp

/-! ## Variables -/

/-- Every variable of the clauses is below `next`. -/
def AllBelow (next : Nat) (cs : List Clause) : Prop := ∀ c ∈ cs, ∀ l ∈ c, l.var < next

theorem AllBelow.mono (h : AllBelow next cs) (hle : next ≤ next') : AllBelow next' cs :=
  fun c hc l hl => Nat.lt_of_lt_of_le (h c hc l hl) hle

theorem AllBelow.append (h : AllBelow next cs) (h' : AllBelow next ds) :
    AllBelow next (cs ++ ds) := by
  intro c hc
  rcases List.mem_append.1 hc with hc | hc
  · exact h c hc
  · exact h' c hc

theorem holds_of_agreesBelow (h : AgreesBelow next v w) (hc : ∀ l ∈ c, l.var < next) :
    c.holds w = c.holds v := by
  rw [Bool.eq_iff_iff, holds_iff, holds_iff]
  refine exists_congr fun l => and_congr_right fun hl => ?_
  rw [Literal.holds_of_agreesBelow h (hc l hl)]

theorem allHold_of_agreesBelow (h : AgreesBelow next v w) (hcs : AllBelow next cs) :
    allHold cs w = allHold cs v := by
  rw [Bool.eq_iff_iff, allHold_iff, allHold_iff]
  refine forall₂_congr fun c hc => ?_
  rw [holds_of_agreesBelow h (hcs c hc)]

end Clause

namespace Solver

/-! ## Solvers -/

/-- A solver is sound when its models are models. -/
def Sound (solve : Solver) : Prop :=
  ∀ clauses assumptions model, solve clauses assumptions = some model →
    Clause.allHold clauses model.isTrue ∧ ∀ l ∈ assumptions, l.holds model.isTrue

theorem Correct.isSound {solve : Solver} (h : solve.Correct) : solve.Sound := h.sound

/-! ## Exhaustive search -/

/-- The variables that occur in clauses and assumptions. -/
def occurring (clauses : List Clause) (assumptions : List Literal) : List Nat :=
  (assumptions ++ clauses.flatten).map Literal.var

/-- The first model among all sets of variables. -/
def exhaustive : Solver := fun clauses assumptions =>
  ((occurring clauses assumptions).sublists.map Model.ofTrueVars).find? fun m =>
    Clause.allHold clauses m.isTrue && assumptions.all (·.holds m.isTrue)

theorem exhaustive_correct : exhaustive.Correct where
  sound clauses assumptions model h := by
    have hmodel := List.find?_some h
    rwa [Bool.and_eq_true, List.all_eq_true] at hmodel
  complete clauses assumptions h v hv := by
    let model := Model.ofTrueVars ((occurring clauses assumptions).filter v)
    have hagrees : ∀ l ∈ assumptions ++ clauses.flatten, l.holds model.isTrue = l.holds v :=
      fun l hl => Literal.holds_congr <| by
        have hvar : l.var ∈ occurring clauses assumptions := List.mem_map_of_mem hl
        simp [model, hvar]
    have hmem : model ∈ (occurring clauses assumptions).sublists.map Model.ofTrueVars :=
      List.mem_map_of_mem (List.mem_sublists.2 List.filter_sublist)
    refine List.find?_eq_none.1 h model hmem ?_
    rw [Bool.and_eq_true, List.all_eq_true, Clause.allHold_iff]
    refine ⟨fun c hc => ?_, fun l hl => ?_⟩
    · obtain ⟨l, hl, hholds⟩ := Clause.holds_iff.1 (Clause.allHold_iff.1 hv.1 c hc)
      refine Clause.holds_iff.2 ⟨l, hl, ?_⟩
      rwa [hagrees l (List.mem_append_right _ (List.mem_flatten_of_mem hc hl))]
    · rw [hagrees l (List.mem_append_left _ hl)]
      exact hv.2 l hl

end Solver

end CircuitEquiv
