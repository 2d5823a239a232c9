-- SUMMARY: The search for the largest common part ends with a mapping of as many constraints as any partial equivalence maps.
import CircuitEquiv.Proofs.Equivalence.Decoding
import CircuitEquiv.Proofs.Equivalence.MaximalFormula
import CircuitEquiv.Proofs.Interaction.Endings
import CircuitEquiv.Proofs.Sat.Clause

/-!
# The search for the largest common part

Models of the formula decode to partial equivalences, and the counter demands a size that only larger
ones reach. Every call of the solver but the last one so improves on the one before. The last one finds
that nothing is larger, or that every constraint is matched.
-/

namespace CircuitEquiv

variable {left right : Circuit}

/-- The models of a formula decode to partial equivalences, of at least the size that the counter
shows. Some model belongs to every partial equivalence, and its counter shows at least the size. -/
structure MaximalFormula.Captures (f : MaximalFormula) (left right : Circuit)
    (decode : Model → Mapping) : Prop where
  length_counter : f.counter.length = left.nConstraints
  sound : ∀ model : Model, Clause.allHold (f.hard ++ f.bounds) model.isTrue = true →
    (decode model).IsPartialEquivalence left right ∧
      ∀ n bound, Totalizer.atLeast? f.counter n = some bound → bound.holds model.isTrue = true →
        n ≤ (decode model).constraints.size
  complete : ∀ m : Mapping, m.IsPartialEquivalence left right →
    ∃ v, Clause.allHold (f.hard ++ f.bounds) v = true ∧
      ∀ n bound, Totalizer.atLeast? f.counter n = some bound → n ≤ m.constraints.size →
        bound.holds v = true

/-! ## Decoding -/

namespace MaximalFormula

variable {f : MaximalFormula} {model : Model} {S : PairVariable → Prop} {threshold : Nat}

theorem get?_constraints_decode {leftNorms rightNorms : Array Norm} {k j : Nat} :
    (f.decode model left leftNorms rightNorms).constraints.get? k = some j ↔
      (Mapping.decode f.vars model leftNorms rightNorms).constraints.get? k = some j ∧
        k ∈ covered f.matched model.isTrue := by
  have hcovered : (f.matched[k]?.map model.value).getD false = true ↔
      k ∈ covered f.matched model.isTrue := by
    cases h : f.matched[k]? <;> simp [covered, h, Model.value]
  rw [← hcovered]
  show ((Mapping.decode f.vars model leftNorms rightNorms).constraints.filter _).get? k = some j ↔ _
  rw [SortedMap.get?_filter, Option.filter_eq_some_iff]

section Decode

variable (hl : left.IsProper) (hr : right.IsProper) (hfield : left.field = right.field)

include hl hr hfield

/-- A common part decodes to a partial equivalence of the constraints whose literals hold. -/
theorem isPartialEquivalence_decode (hvars : f.vars.IsFunctional)
    (hS : ∀ p, S p ↔ ∃ id, f.vars.get? p = some id ∧ model.isTrue id = true)
    (h : CommonPart left right S (covered f.matched model.isTrue)) :
    (f.decode model left left.normalize right.normalize).IsPartialEquivalence left right ∧
      (f.decode model left left.normalize right.normalize).constraints.size =
        trueCount model.isTrue f.matched := by
  obtain ⟨g, hmatching, hfollows, -⟩ := h.exists_normMatching hl hr hfield
  obtain ⟨κ, hκ⟩ := hmatching.exists_constraintMap
  have hconstraints : ∀ k j,
      (f.decode model left left.normalize right.normalize).constraints.get? k = some j ↔
        k ∈ covered f.matched model.isTrue ∧ κ k = j := fun k j => by
    rw [get?_constraints_decode, Mapping.get?_constraints_decode hS hvars hκ, and_comm]
    refine and_congr_right fun hk => ⟨?_, ?_⟩
    · rintro ⟨l, r, hSlr, rfl, rfl⟩
      exact hκ l r hSlr
    · rintro rfl
      obtain ⟨l, r, hSlr, rfl⟩ := h.subset_matchedConstraints hl hk
      exact ⟨l, r, hSlr, rfl, (hκ l r hSlr).symm⟩
  constructor
  · refine h.isPartialEquivalence hl hr hfield hκ hconstraints fun s t => ?_
    exact Mapping.get?_signals_decode hS hvars hmatching.isRenaming.constant hfollows
  · rw [trueCount_eq_length (SortedMap.nodup_keys _) fun k => ?_, SortedMap.keys, List.length_map]
    · rfl
    · rw [SortedMap.mem_keys_iff]
      simp only [hconstraints, exists_and_left, exists_eq', and_true]

/-- A formula that describes the common parts captures the partial equivalences. -/
theorem Describes.captures {d : Draft} (h : f.Describes left right d) :
    f.Captures left right (f.decode · left left.normalize right.normalize) where
  length_counter := h.length_counter
  sound model hmodel := by
    obtain ⟨hhard, hbounds⟩ := Clause.allHold_append.1 hmodel
    rw [h.hard] at hhard
    obtain ⟨hpartial, hsize⟩ := isPartialEquivalence_decode hl hr hfield
      (h.vars ▸ h.functional) (fun p => h.vars ▸ Iff.rfl) (h.commonPart _ hhard)
    refine ⟨hpartial, fun n bound hbound hholds => ?_⟩
    rw [hsize]
    exact h.le_trueCount _ hbounds n bound hbound hholds
  complete m hm := by
    obtain ⟨g, hg, hfollows, hback⟩ := hm.signalMatching.exists_isRenaming
    obtain ⟨v, hhard, hbounds, hcounts, hcovered⟩ :=
      h.exists_model _ _ (hm.commonPart hg hfollows hl hr hfield hback)
    refine ⟨v, Clause.allHold_append.2 ⟨by rwa [h.hard], hbounds⟩, fun n bound hbound hn => ?_⟩
    rw [hcounts.holds_iff n bound hbound, trueCount_eq_length m.constraints.nodup_keys fun k => by
      rw [hcovered]
      rfl]
    rwa [SortedMap.keys, List.length_map]

end Decode

end MaximalFormula

/-! ## Searching -/

/-- The calls of the solver in a search, from the best mapping so far and the assumptions on; the
search ends with the last mapping. -/
inductive MaximalFormula.Searches (solve : Solver) (f : MaximalFormula) (decode : Model → Mapping) :
    Option Mapping → List Literal → Nat → Option Mapping → Prop
  /-- No model is left. -/
  | exhausted {best : Option Mapping} {assumptions : List Literal}
      (hsolve : solve (f.hard ++ f.bounds) assumptions = none) :
      Searches solve f decode best assumptions 1 best
  /-- Nothing larger can be demanded. -/
  | complete {best : Option Mapping} {assumptions : List Literal} {model : Model}
      (hsolve : solve (f.hard ++ f.bounds) assumptions = some model)
      (hbound : Totalizer.atLeast? f.counter ((decode model).constraints.size + 1) = none) :
      Searches solve f decode best assumptions 1 (some (decode model))
  /-- A larger mapping is demanded. -/
  | improved {best result : Option Mapping} {assumptions : List Literal} {model : Model}
      {bound : Literal} {calls : Nat} (hsolve : solve (f.hard ++ f.bounds) assumptions = some model)
      (hbound : Totalizer.atLeast? f.counter ((decode model).constraints.size + 1) = some bound)
      (hrest : Searches solve f decode (some (decode model)) [bound] calls result) :
      Searches solve f decode best assumptions (calls + 1) result

namespace MaximalFormula

open Interaction (Ends)

variable {solve : Solver} {f : MaximalFormula} {decode : Model → Mapping} {best result : Option Mapping}
  {assumptions : List Literal} {calls fuel : Nat}

/-- The assumptions demand mappings of at least `n` constraints. -/
structure Demands (f : MaximalFormula) (left right : Circuit) (decode : Model → Mapping)
    (assumptions : List Literal) (n : Nat) : Prop where
  le_size : ∀ model : Model, Clause.allHold (f.hard ++ f.bounds) model.isTrue = true →
    (∀ a ∈ assumptions, a.holds model.isTrue = true) → n ≤ (decode model).constraints.size
  satisfiable : ∀ m : Mapping, m.IsPartialEquivalence left right → n ≤ m.constraints.size →
    ∃ v, Clause.allHold (f.hard ++ f.bounds) v = true ∧ ∀ a ∈ assumptions, a.holds v = true

/-! ### Searching against a deadline -/

section Deadline

variable {deadline : Deadline} {ts : List Nat} {r : Except EquivalenceError (Option Mapping)}

/-- What a search does after it has looked at the clock. -/
def continueSearch (solve : Solver) (f : MaximalFormula) (decode : Model → Mapping)
    (deadline : Deadline) (fuel : Nat) (best : Option Mapping) (assumptions : List Literal) :
    Attempt EquivalenceError (Option Mapping) :=
  match solve (f.hard ++ f.bounds) assumptions with
  | none => pure best
  | some model =>
    match Totalizer.atLeast? f.counter ((decode model).constraints.size + 1) with
    | none => pure (some (decode model))
    | some bound => improve solve f decode deadline fuel (some (decode model)) [bound]

theorem improve_succ : improve solve f decode deadline (fuel + 1) best assumptions = (do
    if ← deadline.isExpired then throw (.timeout .maximalEquivalence best)
    continueSearch solve f decode deadline fuel best assumptions) := rfl

theorem ends_improve_succ
    (h : Ends (improve solve f decode deadline (fuel + 1) best assumptions).run ts r) :
    ¬ deadline.Outlasts ts ∧ r = .error (.timeout .maximalEquivalence best) ∨
      ∃ ts₁ ts₂, ts = ts₁ ++ ts₂ ∧ deadline.Outlasts ts₁ ∧
        Ends (continueSearch solve f decode deadline fuel best assumptions).run ts₂ r := by
  rw [improve_succ] at h
  exact Deadline.ends_unless_isExpired h

/-- A search can only fail for want of time. -/
theorem eq_timeout_of_ends_improve {e : EquivalenceError}
    (h : Ends (improve solve f decode deadline fuel best assumptions).run ts (.error e)) :
    ∃ phase last, e = .timeout phase last := by
  induction fuel generalizing best assumptions ts with
  | zero => cases (Attempt.ends_pure_iff.1 h).2
  | succ fuel ih =>
    rcases ends_improve_succ h with ⟨-, heq⟩ | ⟨ts₁, ts₂, rfl, -, hrest⟩
    · exact ⟨_, _, Except.error.inj heq⟩
    · unfold continueSearch at hrest
      split at hrest
      · cases (Attempt.ends_pure_iff.1 hrest).2
      · split at hrest
        · cases (Attempt.ends_pure_iff.1 hrest).2
        · exact ih hrest

end Deadline

namespace Captures

variable {deadline : Deadline} {ts : List Nat} {r : Except EquivalenceError (Option Mapping)}
  (h : f.Captures left right decode)

include h

theorem demands_nil : f.Demands left right decode [] 0 where
  le_size _ _ _ := Nat.zero_le _
  satisfiable m hm _ := by
    obtain ⟨v, hv, -⟩ := h.complete m hm
    exact ⟨v, hv, fun a ha => absurd ha List.not_mem_nil⟩

theorem demands_bound {n : Nat} {bound : Literal}
    (hbound : Totalizer.atLeast? f.counter n = some bound) : f.Demands left right decode [bound] n where
  le_size model hmodel hassumptions :=
    (h.sound model hmodel).2 n bound hbound (hassumptions bound List.mem_cons_self)
  satisfiable m hm hn := by
    obtain ⟨v, hv, hcounter⟩ := h.complete m hm
    exact ⟨v, hv, fun a ha => List.mem_singleton.1 ha ▸ hcounter n bound hbound hn⟩

/-- A search with a sound solver ends. Each call but the last one demands a larger mapping, so there are
few. -/
theorem exists_searches (hsolve : solve.Sound) {n : Nat} (hn : n ≤ left.nConstraints)
    (hdemands : f.Demands left right decode assumptions n) (best : Option Mapping) :
    ∃ calls result, calls ≤ left.nConstraints + 1 - n ∧
      f.Searches solve decode best assumptions calls result := by
  induction hd : left.nConstraints - n using Nat.strong_induction_on generalizing n assumptions best with
  | _ d ih =>
  cases hresult : solve (f.hard ++ f.bounds) assumptions with
  | none => exact ⟨1, best, by omega, .exhausted hresult⟩
  | some model =>
    obtain ⟨hmodel, hassumptions⟩ := hsolve _ _ _ hresult
    have hsize := hdemands.le_size model hmodel hassumptions
    cases hbound : Totalizer.atLeast? f.counter ((decode model).constraints.size + 1) with
    | none => exact ⟨1, _, by omega, .complete hresult hbound⟩
    | some bound =>
      have hle := Totalizer.le_length_of_atLeast? hbound
      rw [h.length_counter] at hle
      obtain ⟨calls, result, hcalls, hsearches⟩ := ih _ (by omega) hle
        (h.demands_bound hbound) (some (decode model)) rfl
      exact ⟨calls + 1, result, by omega, .improved hresult hbound hsearches⟩

/-- Every mapping that a search with a sound solver meets is a partial equivalence. -/
theorem isPartialEquivalence (hsolve : solve.Sound)
    (hsearches : f.Searches solve decode best assumptions calls result)
    (hbest : ∀ m ∈ best, m.IsPartialEquivalence left right) :
    ∀ m ∈ result, m.IsPartialEquivalence left right := by
  have hdecoded : ∀ {assumptions model}, solve (f.hard ++ f.bounds) assumptions = some model →
      ∀ m ∈ some (decode model), m.IsPartialEquivalence left right := fun hresult m hm => by
    obtain rfl := Option.some.inj hm
    exact (h.sound _ (hsolve _ _ _ hresult).1).1
  induction hsearches with
  | exhausted => exact hbest
  | complete hresult => exact hdecoded hresult
  | improved hresult _ _ ih => exact ih (hdecoded hresult)

/-- A search with a correct solver ends with the best mapping if none has the demanded size, and else
with a largest one. -/
theorem isGreatest (hsolve : solve.Correct)
    (hsearches : f.Searches solve decode best assumptions calls result) {n : Nat}
    (hdemands : f.Demands left right decode assumptions n) :
    (result = best ∧ ∀ k ∈ Circuit.partialSizes left right, k < n) ∨
      ∃ m, result = some m ∧ IsGreatest (Circuit.partialSizes left right) m.constraints.size := by
  have hmem : ∀ {assumptions model}, solve (f.hard ++ f.bounds) assumptions = some model →
      (decode model).constraints.size ∈ Circuit.partialSizes left right := fun hresult =>
    ⟨_, (h.sound _ (hsolve.sound _ _ _ hresult).1).1, rfl⟩
  induction hsearches generalizing n with
  | exhausted hresult =>
    refine Or.inl ⟨rfl, ?_⟩
    rintro k ⟨m, hm, rfl⟩
    by_contra hlt
    obtain ⟨v, hv⟩ := hdemands.satisfiable m hm (Nat.le_of_not_lt hlt)
    exact hsolve.complete _ _ hresult v hv
  | @complete _ _ model hresult hbound =>
    have hall : left.nConstraints ≤ (decode model).constraints.size := by
      by_contra hlt
      obtain ⟨bound, hbound'⟩ := Totalizer.exists_atLeast? (Nat.succ_pos _)
        (h.length_counter ▸ Nat.lt_of_not_le hlt)
      rw [hbound] at hbound'
      cases hbound'
    refine Or.inr ⟨_, rfl, hmem hresult, ?_⟩
    rintro k ⟨m, hm, rfl⟩
    exact hm.size_le.trans hall
  | improved hresult hbound _ ih =>
    rcases ih (h.demands_bound hbound) with ⟨rfl, hlarger⟩ | hgreatest
    · exact Or.inr ⟨_, rfl, hmem hresult, fun k hk => Nat.le_of_lt_succ (hlarger k hk)⟩
    · exact Or.inr hgreatest

/-- A search against a deadline ends in time with what the search without one ends with, or with a
timeout that carries a partial equivalence. -/
theorem ends_improve (hsolve : solve.Sound)
    (hsearches : f.Searches solve decode best assumptions calls result) (hfuel : calls ≤ fuel)
    (hbest : ∀ m ∈ best, m.IsPartialEquivalence left right)
    (hends : Ends (improve solve f decode deadline fuel best assumptions).run ts r) :
    deadline.Outlasts ts ∧ r = .ok result ∨ ¬ deadline.Outlasts ts ∧
      ∃ last, r = .error (.timeout .maximalEquivalence last) ∧
        ∀ m ∈ last, m.IsPartialEquivalence left right := by
  induction hsearches generalizing fuel ts with
  | exhausted hnone =>
    obtain ⟨fuel, rfl⟩ := Nat.exists_eq_add_of_le' hfuel
    rcases ends_improve_succ hends with ⟨hout, rfl⟩ | ⟨ts₁, ts₂, rfl, hout, hrest⟩
    · exact Or.inr ⟨hout, _, rfl, hbest⟩
    · rw [continueSearch, hnone] at hrest
      obtain ⟨rfl, rfl⟩ := Attempt.ends_pure_iff.1 hrest
      exact Or.inl ⟨Deadline.outlasts_append.2 ⟨hout, Deadline.outlasts_nil⟩, rfl⟩
  | complete hsome hbound =>
    obtain ⟨fuel, rfl⟩ := Nat.exists_eq_add_of_le' hfuel
    rcases ends_improve_succ hends with ⟨hout, rfl⟩ | ⟨ts₁, ts₂, rfl, hout, hrest⟩
    · exact Or.inr ⟨hout, _, rfl, hbest⟩
    · simp only [continueSearch, hsome, hbound] at hrest
      obtain ⟨rfl, rfl⟩ := Attempt.ends_pure_iff.1 hrest
      exact Or.inl ⟨Deadline.outlasts_append.2 ⟨hout, Deadline.outlasts_nil⟩, rfl⟩
  | improved hsome hbound _ ih =>
    obtain ⟨fuel, rfl⟩ := Nat.exists_eq_add_of_le' (Nat.one_le_of_lt hfuel)
    rcases ends_improve_succ hends with ⟨hout, rfl⟩ | ⟨ts₁, ts₂, rfl, hout, hrest⟩
    · exact Or.inr ⟨hout, _, rfl, hbest⟩
    · simp only [continueSearch, hsome, hbound] at hrest
      rw [Deadline.outlasts_append, and_iff_right hout]
      refine ih (Nat.le_of_succ_le_succ hfuel) (fun m hm => ?_) hrest
      obtain rfl := Option.some.inj hm
      exact (h.sound _ (hsolve _ _ _ hsome).1).1

end Captures

end MaximalFormula

/-! ## The largest common part -/

/-- The match that a mapping stands for. -/
def MaximalMatch.ofMapping (left right : Circuit) (m : Mapping) : MaximalMatch :=
  ⟨m, m.constraints.size, max left.nConstraints right.nConstraints⟩

/-- A match that reaches a tolerance, or the difference that it does not. -/
def MaximalMatch.tolerated (x : MaximalMatch) (tolerance : Float) :
    Except EquivalenceError MaximalMatch :=
  if x.ratio < tolerance then .error (.notEquivalent (.belowTolerance x.matched x.total tolerance))
  else .ok x

theorem MaximalMatch.tolerated_ofMapping (m : Mapping) (tolerance : Float) :
    (ofMapping left right m).tolerated tolerance =
      if matchRatio m.constraints.size (max left.nConstraints right.nConstraints) < tolerance then
        .error (.notEquivalent (.belowTolerance m.constraints.size
          (max left.nConstraints right.nConstraints) tolerance))
      else .ok (ofMapping left right m) := rfl

section Endings

open Interaction (Ends)

variable {ts : List Nat} {solve : Solver} {options : MaximalOptions}
  {r : Except EquivalenceError MaximalMatch}

theorem ends_dumpFormula {path : Option String} {text : String} {r : Except EquivalenceError Unit}
    (h : Ends (dumpFormula path text).run ts r) :
    r = .ok () ∨ ∃ p, path = some p ∧ r = .error (.dump p) := by
  cases path with
  | none => exact Or.inl (Attempt.ends_pure_iff.1 h).2
  | some p =>
    rcases Attempt.ends_bind_iff.1 h with ⟨e, hx, -⟩ | ⟨ts₁, ts₂, b, rfl, -, hf⟩
    · obtain ⟨a, -, ha⟩ := Attempt.ends_lift_iff.1 hx
      cases ha
    · cases b with
      | true => exact Or.inl (Attempt.ends_pure_iff.1 hf).2
      | false => exact Or.inr ⟨p, rfl, (Attempt.ends_throw_iff.1 hf).2⟩

theorem checkComparable_eq_ok (hdialect : left.dialect = right.dialect)
    (hfield : left.field = right.field) : checkComparable left right = .ok () := by
  rw [checkComparable, if_neg (not_not.2 hdialect), if_neg (not_not.2 hfield)]

/-- The ways in which a search for the largest common part ends, by the way its loop ends. -/
theorem ends_maximalEquivalence (hdialect : left.dialect = right.dialect)
    (hfield : left.field = right.field) (h : Ends (maximalEquivalence solve left right options).run ts r) :
    (∃ path, options.dumpPath = some path ∧ r = .error (.dump path)) ∨
    ∃ deadline ts' result, (¬ deadline.Outlasts ts' → Deadline.Overruns options.timeout ts) ∧
      Ends (improve solve
        (MaximalFormula.ofCircuits left right left.normalize right.normalize options.pairwiseThreshold)
        ((MaximalFormula.ofCircuits left right left.normalize right.normalize
          options.pairwiseThreshold).decode · left left.normalize right.normalize)
        deadline (left.nConstraints + 1) none []).run ts' result ∧
      r = result.bind fun best =>
        (MaximalMatch.ofMapping left right (best.getD .empty)).tolerated options.tolerance := by
  rw [maximalEquivalence, checkComparable_eq_ok hdialect hfield] at h
  rcases Attempt.ends_bind_iff.1 h with ⟨e, he, -⟩ | ⟨ts₀, _, _, rfl, -, h⟩
  · cases (Attempt.ends_pure_iff.1 he).2
  rcases Attempt.ends_bind_iff.1 h with ⟨e, he, -⟩ | ⟨ts₁, _, deadline, rfl, hdeadline, h⟩
  · obtain ⟨a, -, ha⟩ := Attempt.ends_lift_iff.1 he
    cases ha
  obtain ⟨a, hdeadline, ha⟩ := Attempt.ends_lift_iff.1 hdeadline
  cases ha
  rcases Attempt.ends_bind_iff.1 h with ⟨e, he, rfl⟩ | ⟨ts₂, ts₃, _, rfl, -, h⟩
  · rcases ends_dumpFormula he with heq | ⟨path, hpath, heq⟩
    · cases heq
    · cases heq
      exact Or.inl ⟨path, hpath, rfl⟩
  have hoverruns : ∀ ts', ts'.Sublist ts₃ → ¬ deadline.Outlasts ts' →
      Deadline.Overruns options.timeout (ts₀ ++ (ts₁ ++ (ts₂ ++ ts₃))) := fun ts' hsublist hout =>
    (Deadline.overruns_of_ends_after hdeadline hout).mono
      (((hsublist.trans (List.sublist_append_right _ _)).append_left ts₁).trans
        (List.sublist_append_right _ _))
  refine Or.inr ?_
  rcases Attempt.ends_bind_iff.1 h with ⟨e, he, rfl⟩ | ⟨ts', _, best, rfl, hbest, h⟩
  · exact ⟨deadline, ts₃, .error e, hoverruns _ (.refl _), he, rfl⟩
  refine ⟨deadline, ts', .ok best, hoverruns _ (List.sublist_append_left _ _), hbest, ?_⟩
  dsimp only at h
  show r = MaximalMatch.tolerated _ _
  by_cases hlt : matchRatio (best.getD .empty).constraints.size
      (max left.nConstraints right.nConstraints) < options.tolerance
  · rw [if_pos hlt] at h
    rw [MaximalMatch.tolerated_ofMapping, if_pos hlt]
    exact (Attempt.ends_throw_iff.1 h).2
  · rw [if_neg hlt] at h
    rw [MaximalMatch.tolerated_ofMapping, if_neg hlt]
    exact (Attempt.ends_pure_iff.1 h).2

/-- The ways in which the search for the largest common part fails. -/
theorem error_cases_of_ends_maximalEquivalence (hdialect : left.dialect = right.dialect)
    (hfield : left.field = right.field) {e : EquivalenceError}
    (h : Ends (maximalEquivalence solve left right options).run ts (.error e)) :
    (∃ difference, e = .notEquivalent difference) ∨ (∃ phase best, e = .timeout phase best) ∨
      ∃ path, options.dumpPath = some path := by
  rcases ends_maximalEquivalence hdialect hfield h with
    ⟨path, hpath, -⟩ | ⟨deadline, ts', result, -, hends, hresult⟩
  · exact Or.inr (Or.inr ⟨path, hpath⟩)
  · cases result with
    | error e' =>
      cases hresult
      exact Or.inr (Or.inl (MaximalFormula.eq_timeout_of_ends_improve hends))
    | ok best =>
      have hresult : Except.error e = MaximalMatch.tolerated _ _ := hresult
      rw [MaximalMatch.tolerated_ofMapping] at hresult
      split at hresult
      · exact Or.inl ⟨_, Except.error.inj hresult⟩
      · cases hresult

end Endings

/-- The search for the largest common part with a correct solver. Without a deadline it calls the solver
at most once more than there are left constraints, and ends with a partial equivalence of as many
constraints as there can be. What is reported is this mapping, or that its size misses the tolerance,
unless the formula cannot be written or the time is up; a mapping that comes with a timeout is a
partial equivalence, too. -/
theorem MaximalFormula.search_optimal {solve : Solver} (hsolve : solve.Correct) (hl : left.IsProper)
    (hr : right.IsProper) (hfield : left.field = right.field) (hdialect : left.dialect = right.dialect)
    (options : MaximalOptions) {ts : List Nat} {r : Except EquivalenceError MaximalMatch}
    (hends : (maximalEquivalence solve left right options).run.Ends ts r) :
    ∃ calls m, calls ≤ left.nConstraints + 1 ∧
      (ofCircuits left right left.normalize right.normalize options.pairwiseThreshold).Searches solve
        ((ofCircuits left right left.normalize right.normalize options.pairwiseThreshold).decode · left
          left.normalize right.normalize) none [] calls (some m) ∧
      m.IsPartialEquivalence left right ∧ m.checkMatched left right = .ok () ∧
      IsGreatest (Circuit.partialSizes left right) m.constraints.size ∧
      (r = (MaximalMatch.ofMapping left right m).tolerated options.tolerance ∨
        (∃ path, options.dumpPath = some path ∧ r = .error (.dump path)) ∨
        options.timeout ≠ none ∧ ∃ last, r = .error (.timeout .maximalEquivalence last) ∧
          ∀ m ∈ last, m.IsPartialEquivalence left right ∧ m.checkMatched left right = .ok ()) := by
  have hcaptures := (describes_ofCircuits left right options.pairwiseThreshold).captures hl hr hfield
  obtain ⟨calls, result, hcalls, hsearches⟩ :=
    hcaptures.exists_searches hsolve.isSound (Nat.zero_le _) hcaptures.demands_nil none
  obtain ⟨m, rfl, hgreatest⟩ := (hcaptures.isGreatest hsolve hsearches
    hcaptures.demands_nil).resolve_left fun hnone =>
      Nat.not_lt_zero _ (hnone.2 0 Circuit.zero_mem_partialSizes)
  have hm := hcaptures.isPartialEquivalence hsolve.isSound hsearches (fun _ h => nomatch h) m rfl
  refine ⟨calls, m, hcalls, hsearches, hm, hm.checkMatched, hgreatest, ?_⟩
  rcases ends_maximalEquivalence hdialect hfield hends with hdump | ⟨deadline, ts', result, hoverruns, hends', rfl⟩
  · exact Or.inr (Or.inl hdump)
  rcases hcaptures.ends_improve hsolve.isSound hsearches hcalls (fun _ h => nomatch h)
    hends' with ⟨-, rfl⟩ | ⟨hout, last, rfl, hlast⟩
  · exact Or.inl rfl
  · refine Or.inr (Or.inr ⟨fun hnone => ?_, last, rfl, fun m hm => ⟨hlast m hm, (hlast m hm).checkMatched⟩⟩)
    exact Deadline.not_overruns_none (hnone ▸ hoverruns hout)

theorem MaximalFormula.search_optimal_sample :
    Solver.exhaustive.Correct ∧ Circuit.Sample.left.IsProper ∧ Circuit.Sample.right.IsProper ∧
    ∃ ts m, (maximalEquivalence Solver.exhaustive Circuit.Sample.left Circuit.Sample.right {}).run.Ends
        ts ((MaximalMatch.ofMapping Circuit.Sample.left Circuit.Sample.right m).tolerated 0.8) ∧
      m.checkMatched Circuit.Sample.left Circuit.Sample.right = .ok () ∧ m.constraints.size = 1 := by
  refine ⟨Solver.exhaustive_correct, Circuit.Sample.isProper_left, Circuit.Sample.isProper_right, ?_⟩
  obtain ⟨ts, hends⟩ := Interaction.ends_run
    (maximalEquivalence Solver.exhaustive Circuit.Sample.left Circuit.Sample.right {}).run (.ofFiles [])
  obtain ⟨calls, m, -, -, hm, hmatched, hgreatest, hreport⟩ := MaximalFormula.search_optimal
    Solver.exhaustive_correct Circuit.Sample.isProper_left Circuit.Sample.isProper_right rfl rfl {} hends
  have hfull := Mapping.isFullEquivalence_ofFunctions Circuit.Sample.fullEquivalence
  refine ⟨ts, m, ?_, hmatched, le_antisymm hm.size_le ?_⟩
  · rcases hreport with hreport | ⟨path, hpath, -⟩ | ⟨htimeout, -⟩
    · rw [hreport] at hends
      exact hends
    · cases hpath
    · exact absurd rfl htimeout
  · have hle := hgreatest.2 ⟨_, hfull.isPartialEquivalence, rfl⟩
    rwa [hfull.size_constraints] at hle

end CircuitEquiv
