-- SUMMARY: A comparison decides equivalence: what it maps is a full equivalence, and what it refuses has none.
import CircuitEquiv.Equivalence
import CircuitEquiv.Proofs.Circuit.Satisfaction
import CircuitEquiv.Proofs.Data.Binary64
import CircuitEquiv.Proofs.Equivalence.Completion
import CircuitEquiv.Proofs.Equivalence.Exactness
import CircuitEquiv.Proofs.Equivalence.MaximalSearch
import CircuitEquiv.Proofs.Equivalence.Steps

/-!
# Verdicts

A comparison ends in one of several ways: sizes differ, refinement finds a difference or settles all
classes, encoding finds a difference, the formula has a model or none, or the largest common part is
everything or not. Each of them is right about equivalence, so the verdict does not depend on the policy.

Where all classes of a refinement are settled they pair every signal with one signal. The mapping that
they stand for maps left signals only, so the check tells whether it is a full equivalence.
-/

namespace CircuitEquiv

/-! ## Settled refinements -/

namespace Mapping

variable {m m' : Mapping} {classes : SortedMap ClassLabel (List (List Nat))} {pairs : List (Nat × Nat)}

theorem mem_of_settledPairs? (h : settledPairs? classes = some pairs) {l r : Nat}
    (hlr : (l, r) ∈ pairs) : [[l], [r]] ∈ classes.values := by
  obtain ⟨c, hc, hpair⟩ := exists_of_mem_mapM h hlr
  split at hpair
  · cases hpair
    exact hc
  · cases hpair

theorem signals_ofNormPairs? (h : ofNormPairs? m pairs = some m') : m'.signals = m.signals := by
  induction pairs generalizing m with
  | nil =>
    cases h
    rfl
  | cons e rest ih =>
    rw [ofNormPairs?] at h
    split at h
    · have hrest := ih h
      exact hrest
    · cases h

/-- The signals that a settled refinement maps are those of the pairs that are classes. -/
theorem exists_class_of_ofRefinement? {r : Refinement} {leftNorms rightNorms : Array Norm}
    (h : ofRefinement? r leftNorms rightNorms = some m) {s : Signal} (hs : s ∈ m.signals.keys) :
    ∃ t, [[s], [t]] ∈ r.signalClasses.values := by
  obtain ⟨signals, hsignals, h⟩ := Option.bind_eq_some_iff.1 h
  obtain ⟨norms, -, h⟩ := Option.bind_eq_some_iff.1 h
  rw [signals_ofNormPairs? h, SortedMap.mem_keys_ofList] at hs
  obtain ⟨⟨s, t⟩, hpair, rfl⟩ := List.mem_map.1 hs
  exact ⟨t, mem_of_settledPairs? hsignals hpair⟩

end Mapping

theorem Mapping.isEquivalence_iff {left right : Circuit} {m : Mapping} :
    m.isEquivalence left right = true ↔ m.sanityCheck left right = .ok () := by
  unfold isEquivalence
  cases m.sanityCheck left right <;> simp

/-- A mapping that a discrete refinement settles is a full equivalence. -/
theorem Residual.Compares.isFullEquivalence_settled {left right : Circuit} {res : Residual}
    (h : Residual.Compares left right res) (hsignals : left.nSignals = right.nSignals)
    (hconstraints : left.nConstraints = right.nConstraints) {m : Mapping}
    (hm : Comparison.settledMapping? left right res = some m) : m.IsFullEquivalence left right := by
  unfold Comparison.settledMapping? at hm
  split at hm
  · obtain ⟨hm, hcheck⟩ := Option.filter_eq_some_iff.1 hm
    refine Mapping.isFullEquivalence_of_sanityCheck h.field h.dialect hsignals hconstraints
      (fun s hs => ?_) (Mapping.isEquivalence_iff.1 hcheck)
    obtain ⟨t, hclass⟩ := Mapping.exists_class_of_ofRefinement? hm hs
    obtain ⟨i, -, heq⟩ := (Labelling.mem_values_classes h.isBalanced.size_signals).1 hclass
    have hmem : s ∈ res.refinement.signalLabels.sideMembers
        (res.refinement.signalLabels.label i) 0 := by
      rw [← (List.cons.inj heq).1]
      exact List.mem_singleton_self s
    exact (Residual.valid_signal_left h.isBalanced).1 (Labelling.mem_sideMembers.1 hmem).1
  · cases hm

/-! ## Ends of a comparison -/

/-- The ratio is below one exactly when something is not matched, as long as the total is exact. -/
theorem matchRatio_lt_one_iff {matched total : Nat} (hle : matched ≤ total) (htotal : total < 2 ^ 53) :
    matchRatio matched total < 1.0 ↔ matched < total := by
  unfold matchRatio
  by_cases h0 : total = 0
  · rw [if_pos h0, Binary64.reads_one.lt_one_iff]
    omega
  · rw [if_neg h0]
    exact Binary64.toFloat_div_lt_one_iff hle (Nat.pos_of_ne_zero h0) htotal

namespace Comparison

variable {left right : Circuit} {res : Residual} {solve : Solver} {options : EquivalenceOptions}
  {before : List Nat} {deadline : Deadline} {m : Mapping}

theorem answers_dump (text : String) :
    Answers solve left right options before (untimed (dumpFormula options.dumpPath text)).Ends
      fun _ => True := by
  refine .untimed fun ts r hends => ?_
  rcases ends_dumpFormula hends with rfl | ⟨path, hpath, rfl⟩
  · exact Or.inl ⟨(), rfl, trivial⟩
  · exact Or.inr ⟨_, rfl, .undumped hpath⟩

/-- A full equivalence passes the check, if there is one. -/
theorem checkSanity_eq_ok (hm : m.IsFullEquivalence left right) :
    checkSanity options left right m = .ok () := by
  unfold checkSanity
  split
  · rw [Mapping.sanityCheck_of_isFullEquivalence hm]
    rfl
  · rfl

theorem answers_checkSanity (hm : m.IsFullEquivalence left right) :
    Answers solve left right options before (untimed (checkSanity options left right m)).Ends
      fun _ => True := by
  rw [checkSanity_eq_ok hm]
  exact .untimed fun ts r hends => Or.inl ⟨(), (Attempt.ends_pure_iff.1 hends).2, trivial⟩

/-! ## Refinement and search for a model -/

section Refined

variable (hsolve : solve.Sound)
  (hbefore : Interaction.Ends (Deadline.after options.timeout) before deadline)

include hsolve hbefore

theorem answers_searchResidual (h : Residual.Compares left right res) :
    Answers solve left right options before
      (searchResidual solve left right options deadline res).Ends (·.IsFullEquivalence left right) := by
  unfold searchResidual
  refine .bind (.inPhase (.of_computes hbefore (computes_encode deadline) fun _ herror =>
    h.not_equivalent_of_encoding herror)) fun encoding hencoding => ?_
  have hdecodings := h.decodings_encoding hencoding
  refine .bind (answers_dump _) fun _ _ => .bind (.check hbefore _) fun _ _ => ?_
  refine .bind (.inPhase_pure _ _) fun _ hresult => ?_
  cases hresult
  cases hresult : solve encoding.clauses encoding.assumptions with
  | none =>
    refine .throw fun hcorrect hequivalent => ?_
    obtain ⟨m, hm⟩ := Mapping.equivalent_iff_exists.1 hequivalent
    obtain ⟨model, hmodel, -⟩ : m ∈ encoding.decodings res := hdecodings ▸ hm
    exact hcorrect.complete _ _ hresult model.isTrue ⟨hmodel.clauses, hmodel.assumptions⟩
  | some model =>
    obtain ⟨hclauses, hassumptions⟩ := hsolve _ _ _ hresult
    have hm : Mapping.decode encoding.vars model res.leftNorms res.rightNorms ∈
        {m | m.IsFullEquivalence left right} :=
      hdecodings ▸ ⟨model, ⟨hclauses, hassumptions⟩, rfl⟩
    exact .bind (answers_checkSanity hm) fun _ _ => .pure hm

theorem answers_searchRefined (hl : left.IsProper) (hr : right.IsProper)
    (hfield : left.field = right.field) (hdialect : left.dialect = right.dialect)
    (hsignals : left.nSignals = right.nSignals) (hconstraints : left.nConstraints = right.nConstraints) :
    Answers solve left right options before
      (searchRefined solve left right options deadline).Ends (·.IsFullEquivalence left right) := by
  unfold searchRefined
  refine .bind (.inPhase_pure _ _) fun _ hnorms => ?_
  cases hnorms
  dsimp only
  by_cases hsize : left.normalize.size = right.normalize.size
  · rw [if_neg (not_not.2 hsize)]
    refine .bind (.check hbefore _) fun _ _ => .bind (.inPhase (.orDiffer
      fun _ herror hequivalent => ?_)) fun refinement hpair => .bind (.check hbefore _) fun _ _ => ?_
    · obtain ⟨σ, κ, hacts⟩ := hequivalent
      obtain ⟨r, hr⟩ := hacts.exists_pair_eq_ok hl hr.reduced
      rw [hr] at herror
      cases herror
    · have hcompares : Residual.Compares left right ⟨left.normalize, right.normalize, refinement⟩ := by
        refine ⟨?_, hl, hr, hfield, hdialect⟩
        rw [Residual.ofCircuits, hpair]
        rfl
      cases hsettled : settledMapping? left right ⟨left.normalize, right.normalize, refinement⟩ with
      | some m => exact .pure (hcompares.isFullEquivalence_settled hsignals hconstraints hsettled)
      | none => exact answers_searchResidual hsolve hbefore hcompares
  · rw [if_pos hsize]
    have : Fact left.field.modulus.Prime := ⟨hl.prime⟩
    have hdiffer : ¬ left.Equivalent right := fun ⟨σ, κ, hacts⟩ => by
      obtain ⟨ν, hν, -⟩ := hacts.exists_normBijection hl.reduced hr.reduced
      exact hsize (eq_of_bijOn_Iio hν)
    exact .bind (.throw fun _ => hdiffer) fun _ h => nomatch (h : False)

end Refined

/-! ## Search for the largest common part -/

/-- The counter of the search for the largest common part is no longer than lists of clauses can be, if
this search is the policy. -/
def FitsMemory (left right : Circuit) (options : EquivalenceOptions) : Prop :=
  options.policy = .maxSat →
    (MaximalFormula.ofCircuits left right left.normalize right.normalize
      options.pairwiseThreshold).bounds.length < UInt64.size

theorem nConstraints_lt_of_fitsMemory (hfits : FitsMemory left right options)
    (hpolicy : options.policy = .maxSat) : left.nConstraints < 2 ^ 53 := by
  have hsquare := MaximalFormula.sq_nConstraints_le left right options.pairwiseThreshold
  have hbounds := hfits hpolicy
  have hsize : UInt64.size = 2 ^ 64 := rfl
  by_contra hlarge
  nlinarith

section Maximal

variable (hsolve : solve.Sound) (hl : left.IsProper) (hr : right.IsProper)
  (hfield : left.field = right.field) (hdialect : left.dialect = right.dialect)
  (hconstraints : left.nConstraints = right.nConstraints) (hlt : left.nConstraints < 2 ^ 53)

include hsolve hl hr hfield hdialect hconstraints hlt

/-- A largest common part that is not refused maps all constraints. -/
theorem answers_maximalEquivalence :
    Answers solve left right options before
      (maximalEquivalence solve left right options.forMaximal).run.Ends fun best =>
        best.mapping.Respects left right ∧ left.nConstraints ≤ best.mapping.constraints.size := by
  intro ts r hends
  have hcaptures := (MaximalFormula.describes_ofCircuits left right
    options.pairwiseThreshold).captures hl hr hfield
  obtain ⟨calls, result, hcalls, hsearches⟩ :=
    hcaptures.exists_searches hsolve (Nat.zero_le _) hcaptures.demands_nil none
  have hpartial := hcaptures.isPartialEquivalence hsolve hsearches fun _ h => nomatch h
  have hrespects : (result.getD .empty).Respects left right := by
    cases result with
    | none => exact Mapping.respects_empty
    | some m => exact (hpartial m rfl).toRespects
  have htotal : max left.nConstraints right.nConstraints = left.nConstraints := by
    rw [← hconstraints, max_self]
  rcases ends_maximalEquivalence hdialect hfield hends with
    ⟨path, hpath, rfl⟩ | ⟨deadline, ts', result', hoverruns, hends', rfl⟩
  · exact Or.inr ⟨_, rfl, .undumped hpath⟩
  rcases hcaptures.ends_improve hsolve hsearches hcalls (fun _ h => nomatch h) hends' with
    ⟨-, rfl⟩ | ⟨hout, last, rfl, -⟩
  · show (∃ a, MaximalMatch.tolerated _ 1.0 = .ok a ∧ _) ∨ ∃ e, MaximalMatch.tolerated _ 1.0 = .error e ∧ _
    rw [MaximalMatch.tolerated_ofMapping, htotal]
    by_cases hmissing : matchRatio (result.getD .empty).constraints.size left.nConstraints < 1.0
    · rw [if_pos hmissing]
      refine Or.inr ⟨_, rfl, .notEquivalent fun hcorrect hequivalent => ?_⟩
      rw [matchRatio_lt_one_iff hrespects.size_le hlt] at hmissing
      obtain ⟨m, hm⟩ := Mapping.equivalent_iff_exists.1 hequivalent
      have hsize : left.nConstraints ∈ left.partialSizes right :=
        ⟨m, hm.isPartialEquivalence, hm.size_constraints⟩
      rcases hcaptures.isGreatest hcorrect hsearches hcaptures.demands_nil with
        ⟨-, hnone⟩ | ⟨m, rfl, hgreatest⟩
      · exact Nat.not_lt_zero _ (hnone _ hsize)
      · exact absurd (hgreatest.2 hsize) (Nat.not_le.2 hmissing)
    · rw [if_neg hmissing]
      rw [matchRatio_lt_one_iff hrespects.size_le hlt, Nat.not_lt] at hmissing
      exact Or.inl ⟨_, rfl, hrespects, hmissing⟩
  · exact Or.inr ⟨_, rfl, .timeout ((hoverruns hout).mono (List.sublist_append_right _ _))⟩

theorem answers_searchMaximal (hsignals : left.nSignals = right.nSignals)
    (hinputs : left.inputs.size = right.inputs.size) (houtputs : left.outputs.size = right.outputs.size) :
    Answers solve left right options before (searchMaximal solve left right options).Ends
      (·.IsFullEquivalence left right) := by
  unfold searchMaximal
  refine .bind (.inPhase (answers_maximalEquivalence hsolve hl hr hfield hdialect hconstraints hlt))
    fun best hbest => ?_
  have hm : (pairUnused left right best.mapping).IsFullEquivalence left right :=
    isFullEquivalence_pairUnused hbest.1 hfield hdialect hsignals hconstraints hinputs houtputs hbest.2
  exact .bind (answers_checkSanity hm) fun _ _ => .pure hm

end Maximal

/-! ## The whole search -/

/-- A search ends with a full equivalence, or refuses. -/
theorem answers_search (hsolve : solve.Sound) (hl : left.IsProper) (hr : right.IsProper)
    (hfits : FitsMemory left right options) :
    Answers solve left right options [] (search solve left right options).Ends
      (·.IsFullEquivalence left right) := by
  intro ts r hends
  unfold search at hends
  rcases Steps.exists_of_ends_bind hends with ⟨e, he, -⟩ | ⟨before, ts', deadline, rfl, hdeadline, hends⟩
  · obtain ⟨a, -, ha⟩ := Attempt.ends_lift_iff.1 (Steps.ends_of_ends_untimed he)
    cases ha
  obtain ⟨a, hbefore, ha⟩ := Attempt.ends_lift_iff.1 (Steps.ends_of_ends_untimed hdeadline)
  cases ha
  refine Answers.bind (.untimed (.orDiffer fun _ => not_equivalent_of_checkSizes)) (fun _ hsizes => ?_)
    ts' r hends
  obtain ⟨hdialect, hfield, hconstraints, hsignals, hinputs, houtputs⟩ := checkSizes_eq_ok_iff.1 hsizes
  split
  · rename_i hpolicy
    exact answers_searchMaximal hsolve hl hr hfield hdialect hconstraints
      (nConstraints_lt_of_fitsMemory hfits hpolicy) hsignals hinputs houtputs
  · exact answers_searchRefined hsolve hbefore hl hr hfield hdialect hsignals hconstraints

theorem ends_ofCircuits {ts : List Nat} {r : Except EquivalenceError Comparison}
    (hends : (ofCircuits solve left right options).run.Ends ts r) :
    ∃ result timings, (search solve left right options).Ends ts result ∧
      r = (Outcome.ofResult result).map (⟨·, timings⟩) := by
  unfold ofCircuits at hends
  rcases Attempt.ends_bind_iff.1 hends with ⟨e, he, -⟩ | ⟨ts₁, ts₂, ⟨result, timings⟩, rfl, hresult, hends⟩
  · obtain ⟨a, -, ha⟩ := Attempt.ends_lift_iff.1 he
    cases ha
  obtain ⟨a, hsearch, ha⟩ := Attempt.ends_lift_iff.1 hresult
  cases ha
  dsimp only at hends
  cases houtcome : Outcome.ofResult result with
  | ok outcome =>
    rw [houtcome] at hends
    obtain ⟨rfl, rfl⟩ := Attempt.ends_pure_iff.1 hends
    rw [List.append_nil]
    exact ⟨result, timings, ⟨_, _, hsearch⟩, by rw [houtcome]; rfl⟩
  | error e =>
    rw [houtcome] at hends
    obtain ⟨rfl, rfl⟩ := Attempt.ends_throw_iff.1 hends
    rw [List.append_nil]
    exact ⟨result, timings, ⟨_, _, hsearch⟩, by rw [houtcome]; rfl⟩

/-- Where no formula is to be written, there is an outcome. -/
theorem exists_outcome (hsolve : solve.Sound) (hl : left.IsProper) (hr : right.IsProper)
    (hfits : FitsMemory left right options) (hdump : options.dumpPath = none) {ts : List Nat}
    {r : Except EquivalenceError Comparison}
    (hends : (ofCircuits solve left right options).run.Ends ts r) :
    ∃ comparison, r = .ok comparison := by
  obtain ⟨result, timings, hsearch, rfl⟩ := ends_ofCircuits hends
  rcases answers_search hsolve hl hr hfits ts result hsearch with ⟨m, rfl, -⟩ | ⟨e, rfl, hrefusal⟩
  · exact ⟨_, rfl⟩
  · cases hrefusal with
    | notEquivalent => exact ⟨_, rfl⟩
    | timeout => exact ⟨_, rfl⟩
    | undumped hpath =>
      rw [hdump] at hpath
      cases hpath

/-- A mapping that comes with the verdict is a full equivalence. -/
theorem isFullEquivalence_of_ends (hsolve : solve.Sound) (hl : left.IsProper) (hr : right.IsProper)
    (hfits : FitsMemory left right options) {ts : List Nat} {timings : Timings Phase}
    (hends : (ofCircuits solve left right options).run.Ends ts (.ok ⟨.equivalent m, timings⟩)) :
    m.IsFullEquivalence left right := by
  obtain ⟨result, timings', hsearch, heq⟩ := ends_ofCircuits hends
  rcases answers_search hsolve hl hr hfits ts result hsearch with ⟨m', rfl, hm⟩ | ⟨e, rfl, hrefusal⟩
  · cases heq
    exact hm
  · cases hrefusal <;> cases heq

/-- What an outcome says. -/
theorem outcome_cases (hsolve : solve.Correct) (hl : left.IsProper) (hr : right.IsProper)
    (hfits : FitsMemory left right options) {ts : List Nat} {comparison : Comparison}
    (hends : (ofCircuits solve left right options).run.Ends ts (.ok comparison)) :
    (∃ m, comparison.outcome = .equivalent m ∧ m.IsFullEquivalence left right) ∨
      (∃ difference, comparison.outcome = .notEquivalent difference ∧ ¬ left.Equivalent right) ∨
      ∃ phase best, comparison.outcome = .timeout phase best ∧
        Deadline.Overruns options.timeout ts := by
  obtain ⟨result, timings, hsearch, heq⟩ := ends_ofCircuits hends
  rcases answers_search hsolve.isSound hl hr hfits ts result hsearch with ⟨m, rfl, hm⟩ | ⟨e, rfl, hrefusal⟩
  · cases heq
    exact Or.inl ⟨m, rfl, hm⟩
  · cases hrefusal with
    | notEquivalent h =>
      cases heq
      exact Or.inr (Or.inl ⟨_, rfl, h hsolve⟩)
    | timeout h =>
      cases heq
      exact Or.inr (Or.inr ⟨_, _, rfl, h⟩)
    | undumped => cases heq

end Comparison

/-- Whether the time ran out. -/
def Outcome.isTimeout : Outcome → Bool
  | .timeout _ _ => true
  | _ => false

namespace Comparison

variable {left right : Circuit} {solve : Solver} {options : EquivalenceOptions} {ts : List Nat}

/-- A verdict in time depends on the circuits only. -/
theorem name_outcome (hsolve : solve.Correct) (hl : left.IsProper) (hr : right.IsProper)
    (hfits : FitsMemory left right options) {comparison : Comparison}
    (hends : (ofCircuits solve left right options).run.Ends ts (.ok comparison))
    (htime : comparison.outcome.isTimeout = false) :
    comparison.outcome.name = "equivalent" ∧ left.Equivalent right ∨
      comparison.outcome.name = "not_equivalent" ∧ ¬ left.Equivalent right := by
  rcases outcome_cases hsolve hl hr hfits hends with
    ⟨m, houtcome, hm⟩ | ⟨difference, houtcome, hdifferent⟩ | ⟨phase, best, houtcome, -⟩
  · rw [houtcome]
    exact Or.inl ⟨rfl, _, _, hm.acts⟩
  · rw [houtcome]
    exact Or.inr ⟨rfl, hdifferent⟩
  · rw [houtcome] at htime
    cases htime

/-- Comparing circuits with a correct solver decides whether they are equivalent, whatever the policy and
whatever the clock shows. There is always an outcome, where no formula is to be written: a full
equivalence, a difference between circuits that are not equivalent, or a timeout, and this only if the
clock overran the budget. Two comparisons that end in time agree. -/
theorem decides_equivalence (hsolve : solve.Correct) (hl : left.IsProper) (hr : right.IsProper)
    (hfits : FitsMemory left right options) (hdump : options.dumpPath = none)
    {r : Except EquivalenceError Comparison}
    (hends : (ofCircuits solve left right options).run.Ends ts r) :
    ∃ comparison, r = .ok comparison ∧
      (∀ m, comparison.outcome = .equivalent m → m.IsFullEquivalence left right) ∧
      (∀ difference, comparison.outcome = .notEquivalent difference → ¬ left.Equivalent right) ∧
      (comparison.outcome.isTimeout = true → Deadline.Overruns options.timeout ts) ∧
      ∀ (solve' : Solver) (options' : EquivalenceOptions) (ts' : List Nat) (comparison' : Comparison),
        solve'.Correct → FitsMemory left right options' →
        (ofCircuits solve' left right options').run.Ends ts' (.ok comparison') →
        comparison.outcome.isTimeout = false → comparison'.outcome.isTimeout = false →
          comparison.outcome.name = comparison'.outcome.name := by
  obtain ⟨comparison, rfl⟩ := exists_outcome hsolve.isSound hl hr hfits hdump hends
  have hcases := outcome_cases hsolve hl hr hfits hends
  refine ⟨comparison, rfl, fun m hm => ?equivalent, fun difference hdifference => ?different,
    fun htime => ?late, fun solve' options' ts' comparison' hsolve' hfits' hends' htime htime' => ?agree⟩
  case equivalent =>
    rcases hcases with ⟨m', houtcome, hm'⟩ | ⟨_, houtcome, -⟩ | ⟨_, _, houtcome, -⟩ <;>
      rw [hm] at houtcome <;> cases houtcome
    exact hm'
  case different =>
    rcases hcases with ⟨_, houtcome, -⟩ | ⟨_, -, hdifferent⟩ | ⟨_, _, houtcome, -⟩
    · rw [hdifference] at houtcome
      cases houtcome
    · exact hdifferent
    · rw [hdifference] at houtcome
      cases houtcome
  case late =>
    rcases hcases with ⟨_, houtcome, -⟩ | ⟨_, houtcome, -⟩ | ⟨_, _, -, hlate⟩
    · rw [houtcome] at htime
      cases htime
    · rw [houtcome] at htime
      cases htime
    · exact hlate
  case agree =>
    rcases name_outcome hsolve hl hr hfits hends htime with ⟨hname, h⟩ | ⟨hname, h⟩ <;>
      rcases name_outcome hsolve' hl hr hfits' hends' htime' with ⟨hname', h'⟩ | ⟨hname', h'⟩
    · rw [hname, hname']
    · exact absurd h h'
    · exact absurd h' h
    · rw [hname, hname']

theorem fitsMemory_sample (policy : Policy) :
    FitsMemory Circuit.Sample.left Circuit.Sample.right { policy } := by
  have hbounds : (MaximalFormula.ofCircuits Circuit.Sample.left Circuit.Sample.right
      Circuit.Sample.left.normalize Circuit.Sample.right.normalize 6).bounds.length < UInt64.size := by
    decide +kernel
  exact fun _ => hbounds

/-- The sample circuits are found equivalent. -/
theorem ends_equivalent_sample (policy : Policy) : ∃ ts m timings,
    (ofCircuits Solver.exhaustive Circuit.Sample.left Circuit.Sample.right { policy }).run.Ends ts
      (.ok ⟨.equivalent m, timings⟩) := by
  obtain ⟨ts, hends⟩ := Interaction.ends_run
    (ofCircuits Solver.exhaustive Circuit.Sample.left Circuit.Sample.right { policy }).run (.ofFiles [])
  obtain ⟨⟨outcome, timings⟩, hr⟩ := exists_outcome Solver.exhaustive_correct.isSound
    Circuit.Sample.isProper_left Circuit.Sample.isProper_right (fitsMemory_sample policy) rfl hends
  rw [hr] at hends
  rcases outcome_cases Solver.exhaustive_correct Circuit.Sample.isProper_left
    Circuit.Sample.isProper_right (fitsMemory_sample policy) hends with
    ⟨m, rfl, -⟩ | ⟨difference, -, hdifferent⟩ | ⟨phase, best, -, hlate⟩
  · exact ⟨ts, m, timings, hends⟩
  · exact absurd ⟨_, _, Circuit.Sample.fullEquivalence⟩ hdifferent
  · exact absurd hlate Deadline.not_overruns_none

theorem decides_equivalence_sample :
    Solver.exhaustive.Correct ∧ Circuit.Sample.left.IsProper ∧ Circuit.Sample.right.IsProper ∧
    ∀ policy : Policy, FitsMemory Circuit.Sample.left Circuit.Sample.right { policy } ∧
      ∃ ts comparison m,
        (ofCircuits Solver.exhaustive Circuit.Sample.left Circuit.Sample.right
          { policy }).run.Ends ts (.ok comparison) ∧
        comparison.outcome = .equivalent m ∧
        m.IsFullEquivalence Circuit.Sample.left Circuit.Sample.right := by
  refine ⟨Solver.exhaustive_correct, Circuit.Sample.isProper_left, Circuit.Sample.isProper_right,
    fun policy => ⟨fitsMemory_sample policy, ?_⟩⟩
  obtain ⟨ts, hends⟩ := Interaction.ends_run
    (ofCircuits Solver.exhaustive Circuit.Sample.left Circuit.Sample.right { policy }).run (.ofFiles [])
  obtain ⟨⟨outcome, timings⟩, hr, hequivalent, hdifferent, hlate, -⟩ := decides_equivalence
    Solver.exhaustive_correct Circuit.Sample.isProper_left Circuit.Sample.isProper_right
    (fitsMemory_sample policy) rfl hends
  rw [hr] at hends
  cases outcome with
  | equivalent m => exact ⟨ts, _, m, hends, rfl, hequivalent m rfl⟩
  | notEquivalent difference =>
    exact absurd ⟨_, _, Circuit.Sample.fullEquivalence⟩ (hdifferent difference rfl)
  | timeout => exact absurd (hlate rfl) Deadline.not_overruns_none

/-- A mapping that comes with the verdict carries solutions over: values satisfy the right circuit
exactly when the values that the mapping reads off them satisfy the left one. A sound solver is enough. -/
theorem preserves_solutions (hsolve : solve.Sound) (hl : left.IsProper) (hr : right.IsProper)
    (hfits : FitsMemory left right options) {m : Mapping} {timings : Timings Phase}
    (hends : (ofCircuits solve left right options).run.Ends ts (.ok ⟨.equivalent m, timings⟩))
    {values : List Nat} (hvalues : values.length = right.nSignals) :
    (∀ s < left.nSignals, ∃ t < right.nSignals, m.signals.get? s = some t ∧
      (m.readValues left values)[s]? = values[t]?) ∧
    (m.readValues left values).length = left.nSignals ∧
    (right.isSatisfied values = true ↔ left.isSatisfied (m.readValues left values) = true) := by
  have hm := isFullEquivalence_of_ends hsolve hl hr hfits hends
  refine ⟨fun s hs => ?_, by simp [Mapping.readValues], ?_⟩
  · have hkey : s ∈ m.signals.keys := hm.signals_keys ▸ List.mem_range.2 hs
    obtain ⟨t, ht⟩ := SortedMap.mem_keys_iff.1 hkey
    have hgetD : m.signals.getD s constantSignal = t :=
      SortedMap.getD_of_mem (SortedMap.get?_eq_some_iff.1 ht)
    have himage : t < right.nSignals := by
      have hmaps := hm.acts.signals.mapsTo hs
      rwa [hgetD] at hmaps
    refine ⟨t, himage, ht, ?_⟩
    simp [Mapping.readValues, hs, hgetD, hvalues, himage]
  · rw [hm.isSatisfied_eq hl hr hvalues]

theorem preserves_solutions_sample :
    Solver.exhaustive.Sound ∧ Circuit.Sample.left.IsProper ∧ Circuit.Sample.right.IsProper ∧
    ∀ policy : Policy, FitsMemory Circuit.Sample.left Circuit.Sample.right { policy } ∧
      ∃ ts m timings,
        (ofCircuits Solver.exhaustive Circuit.Sample.left Circuit.Sample.right
          { policy }).run.Ends ts (.ok ⟨.equivalent m, timings⟩) ∧
        Circuit.Sample.right.isSatisfied [1, 3, 6, 2] = true ∧
        Circuit.Sample.left.isSatisfied (m.readValues Circuit.Sample.left [1, 3, 6, 2]) = true := by
  refine ⟨Solver.exhaustive_correct.isSound, Circuit.Sample.isProper_left,
    Circuit.Sample.isProper_right, fun policy => ⟨fitsMemory_sample policy, ?_⟩⟩
  obtain ⟨ts, m, timings, hends⟩ := ends_equivalent_sample policy
  have hsatisfied : Circuit.Sample.right.isSatisfied [1, 3, 6, 2] = true := by
    decide +kernel
  obtain ⟨-, -, hiff⟩ := preserves_solutions Solver.exhaustive_correct.isSound
    Circuit.Sample.isProper_left Circuit.Sample.isProper_right (fitsMemory_sample policy) hends
    (show [1, 3, 6, 2].length = Circuit.Sample.right.nSignals from rfl)
  exact ⟨ts, m, timings, hends, hsatisfied, hiff.1 hsatisfied⟩

end Comparison

end CircuitEquiv
