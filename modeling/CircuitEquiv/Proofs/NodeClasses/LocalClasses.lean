-- SUMMARY: The local classes of nodes are the equivalence classes of the sub-circuits that are large enough.
import CircuitEquiv.Proofs.Dag.Validity
import CircuitEquiv.Proofs.NodeClasses.LookAlikes
import CircuitEquiv.Proofs.NodeClasses.Splitting
import CircuitEquiv.Proofs.Sat.Clause

/-!
# Local classes

Every live node is grouped with the nodes that look like it, and groups are split by comparison. As
equivalent nodes look alike, the classes of all groups are the equivalence classes of the large nodes,
whatever other nodes look alike. Near matches and surroundings do not change the local classes.
-/

namespace CircuitEquiv.NodeClasses

open Interaction (Ends)
open NotingAttempt (Answers)

variable {solve : Solver} {d : Dag} {options : ClassOptions} {maximal : MaximalOptions} {a b : NodeId}
  {classes : List NodeClass} {ts : List Nat}

/-- The formulas of a classification are not to be written. -/
def WritesNothing (options : ClassOptions) : Prop :=
  options.equivalence.dumpPath = none ∧ ∀ maximal ∈ options.maximal, maximal.dumpPath = none

/-! ## Near matches -/

/-- A search for a near match of two live nodes fails only where a formula is to be written. -/
theorem exists_of_ends_nearMatch? (hparts : d.HasProperParts) (ha : a ∈ d.live) (hb : b ∈ d.live)
    {r : Except StructureError (Option NearMatch)}
    (hends : Ends (nearMatch? solve d options maximal a b).run ts r) :
    (∃ found, r = .ok found) ∨ maximal.dumpPath ≠ none := by
  obtain ⟨left, hl⟩ := hparts a ha
  obtain ⟨right, hr⟩ := hparts b hb
  have hdialect := hl.dialect.trans hr.dialect.symm
  have hfield := hl.field.trans hr.field.symm
  unfold nearMatch? at hends
  split at hends
  · exact Or.inl ⟨_, (Attempt.ends_pure_iff.1 hends).2⟩
  rw [subCircuit, subCircuit, hl.subCircuit, hr.subCircuit] at hends
  change Ends ((liftM (maximalEquivalence solve left.circuit right.circuit maximal).run :
    DagAttempt _) >>= _).run ts r at hends
  rcases Attempt.ends_bind_iff.1 hends with ⟨e, he, -⟩ | ⟨ts₁, ts₂, result, rfl, hresult, hends⟩
  · obtain ⟨_, -, heq⟩ := Attempt.ends_lift_iff.1 he
    cases heq
  obtain ⟨_, hresult, heq⟩ := Attempt.ends_lift_iff.1 hresult
  cases heq
  cases result with
  | ok found => exact Or.inl ⟨_, (Attempt.ends_pure_iff.1 hends).2⟩
  | error e =>
    rcases error_cases_of_ends_maximalEquivalence hdialect hfield hresult with
      ⟨difference, rfl⟩ | ⟨phase, best, rfl⟩ | ⟨path, hpath⟩
    · exact Or.inl ⟨_, (Attempt.ends_pure_iff.1 hends).2⟩
    · exact Or.inl ⟨_, (Attempt.ends_pure_iff.1 hends).2⟩
    · exact Or.inr (hpath ▸ Option.some_ne_none path)

/-- Unless near matches are merged, the search for them keeps the classes. -/
theorem ends_withNearMatches (hparts : d.HasProperParts) (hmerge : options.maximalMerge = false)
    (hclasses : ∀ c ∈ classes, c.representative ∈ d.live)
    {r : Except StructureError (List NodeClass × List NearMatch)}
    (hends : Ends (withNearMatches solve d options classes).run ts r) :
    (∃ found, r = .ok found ∧ found.1 = classes) ∨ (∃ e, r = .error e) ∧ ¬ WritesNothing options := by
  unfold withNearMatches at hends
  split at hends
  · exact Or.inl ⟨_, (Attempt.ends_pure_iff.1 hends).2, rfl⟩
  · rename_i maximal hmaximal
    have hfind : ∀ ts r, Ends (findNearMatches solve d options maximal classes).run ts r →
        (∃ near, r = .ok near) ∨ maximal.dumpPath ≠ none := by
      intro ts r hends
      rcases Attempt.ends_bind_iff.1 hends with ⟨e, he, -⟩ | ⟨ts₁, ts₂, found, rfl, -, hends⟩
      · refine (Attempt.exists_of_ends_mapM (fun pair hpair ts r hends => ?_) he).elim
          (fun ⟨_, heq⟩ => nomatch heq) Or.inr
        obtain ⟨hleft, hright, -⟩ := mem_pairsOf_of_pairwise
          (List.pairwise_of_forall (R := fun _ _ => True) fun _ _ => trivial) hpair
        obtain ⟨c, hc, hleft⟩ := List.mem_map.1 hleft
        obtain ⟨c', hc', hright⟩ := List.mem_map.1 hright
        exact exists_of_ends_nearMatch? hparts (hleft ▸ hclasses c hc) (hright ▸ hclasses c' hc') hends
      · exact Or.inl ⟨_, (Attempt.ends_pure_iff.1 hends).2⟩
    rcases Attempt.ends_bind_iff.1 hends with ⟨e, he, rfl⟩ | ⟨ts₁, ts₂, near, rfl, -, hends⟩
    · exact (hfind ts _ he).elim (fun ⟨_, heq⟩ => nomatch heq)
        fun hdump => Or.inr ⟨⟨e, rfl⟩, fun hwrites => hdump (hwrites.2 maximal hmaximal)⟩
    · rw [hmerge] at hends
      exact Or.inl ⟨_, (Attempt.ends_pure_iff.1 hends).2, rfl⟩

/-! ## The run -/

theorem mem_live_of_mem_structuralGroups {ranked : List (NodeId × Nat)} {group : List NodeId}
    (hgroup : group ∈ structuralGroups d options ranked classes) {id : NodeId} (hid : id ∈ group) :
    id ∈ d.live := by
  have hsurroundings : ∀ initial, ∀ group ∈ surroundings d initial, ∀ id ∈ group, id ∈ d.live := by
    intro initial group hgroup id hid
    obtain ⟨places, -, rfl⟩ := List.mem_map.1 hgroup
    obtain ⟨i, -, hi⟩ := List.mem_filterMap.1 hid
    exact SortedSet.mem_def.2 (List.mem_of_getElem? hi)
  unfold structuralGroups at hgroup
  split at hgroup
  · exact hsurroundings _ group hgroup id hid
  · exact hsurroundings _ group hgroup id hid
  · exact absurd hgroup List.not_mem_nil

/-- What splitting groups of live nodes promises is promised of the local classes and of the structural
ones. -/
theorem answers_classify_of (hparts : d.HasProperParts) (hmerge : options.maximalMerge = false)
    {promise : List (List NodeId) → List LateComparison → List NodeClass → Prop}
    (hsplit : ∀ groups : List (List NodeId), (∀ group ∈ groups, ∀ id ∈ group, id ∈ d.live) →
      Answers options.equivalence.timeout (options.equivalence.dumpPath ≠ none)
        (splitByComparison solve d options groups) fun late classes =>
          promise groups late classes ∧ ∀ c ∈ classes, c.representative ∈ d.live)
    {ranked : List (NodeId × Nat)} (hranked : ∀ group ∈ groupByRank ranked, ∀ id ∈ group, id ∈ d.live) :
    Answers options.equivalence.timeout (¬ WritesNothing options) (classify solve d options ranked)
      fun late found => ∃ late' late'', late = late' ++ late'' ∧
        promise (groupByRank ranked) late' found.1 ∧
        promise (structuralGroups d options ranked found.1) late'' found.2.1 := by
  have hwrites : options.equivalence.dumpPath ≠ none → ¬ WritesNothing options :=
    fun hdump hwrites => hdump hwrites.1
  unfold classify
  refine .bind ((hsplit _ hranked).imp hwrites) fun late classes hlocal => ?_
  refine .bind (.lift fun ts r hends => ends_withNearMatches hparts hmerge hlocal.2 hends) ?_
  rintro _ ⟨classes', near⟩ ⟨rfl, rfl⟩
  refine .bind ((hsplit _ fun group hgroup id hid =>
    mem_live_of_mem_structuralGroups hgroup hid).imp hwrites) fun late' structural hstructural =>
    .pure ⟨late, late', ?_, hlocal.1, hstructural.1⟩
  rw [List.append_nil, List.nil_append]

/-- How a classification ends, given what the classes promise, unless a formula is to be written. -/
theorem ends_ofDagBy_of {τ : Type} [DecidableEq τ] {digest : List TraceEntry → τ}
    (hoff : options.depth ≠ .off) (hnaive : options.depth ≠ .naive) {ranked : List (NodeId × Nat)}
    (hranked : lookRanks digest d options.minimumSize = .ok ranked)
    {promise : List LateComparison → List NodeClass × List NodeClass × List NearMatch → Prop}
    (hanswers : Answers options.equivalence.timeout (¬ WritesNothing options)
      (classify solve d options ranked) promise)
    {r : Except StructureError NodeClasses} (hends : Ends (ofDagBy solve d options digest).run ts r) :
    (∃ classes, r = .ok classes ∧ (classes.late ≠ [] → Deadline.Overruns options.equivalence.timeout ts) ∧
      promise classes.late (classes.localClasses, classes.structuralClasses, classes.nearMatches)) ∨
    (∃ e, r = .error e) ∧ ¬ WritesNothing options := by
  have hrun : ofDagBy solve d options digest = (classify solve d options ranked).run [] >>=
      fun x => pure ⟨x.1.1, x.1.2.1, x.1.2.2, x.2⟩ := by
    unfold ofDagBy
    rw [if_neg hoff, hranked]
    show (if options.depth = .naive then _ else _) = _
    rw [if_neg hnaive]
  rw [hrun] at hends
  rcases Attempt.ends_bind_iff.1 hends with ⟨e, he, rfl⟩ | ⟨ts₁, ts₂, ⟨found, late⟩, rfl, hfound, hends⟩
  · rcases hanswers [] ts _ he with ⟨_, _, heq, -⟩ | hfail
    · cases heq
    · exact Or.inr ⟨⟨e, rfl⟩, hfail.2⟩
  · rcases hanswers [] ts₁ _ hfound with ⟨_, _, heq, hlate, hpromise⟩ | ⟨⟨_, heq⟩, -⟩
    · cases heq
      obtain ⟨rfl, rfl⟩ := Attempt.ends_pure_iff.1 hends
      rw [List.append_nil]
      exact Or.inl ⟨_, rfl, hlate, hpromise⟩
    · cases heq

/-- The nodes that look alike are found, and all of them are live. -/
theorem exists_liveRanks {τ : Type} [DecidableEq τ] (digest : List TraceEntry → τ) (minimumSize : Nat)
    (hparts : d.HasProperParts) : ∃ ranked, lookRanks digest d minimumSize = .ok ranked ∧
      AreLookAlikes d minimumSize (groupByRank ranked) ∧
      ∀ group ∈ groupByRank ranked, ∀ id ∈ group, id ∈ d.live := by
  obtain ⟨ranked, hranked, hgroups⟩ := exists_lookRanks digest minimumSize hparts
  exact ⟨ranked, hranked, hgroups, fun group hgroup id hid =>
    SortedSet.mem_def.2 (hgroups.nodes.mem_iff.1 (List.mem_flatten.2 ⟨group, hgroup, hid⟩))⟩

/-- Groups of live nodes are split into classes that live nodes represent. -/
theorem answers_splitByComparison_live (hsolve : solve.Correct) (hparts : d.HasProperParts)
    (hfit : FitMemory d options.equivalence) {groups : List (List NodeId)}
    (hgroups : ∀ group ∈ groups, ∀ id ∈ group, id ∈ d.live) :
    Answers options.equivalence.timeout (options.equivalence.dumpPath ≠ none)
      (splitByComparison solve d options groups) fun late classes =>
        Splits d.AreEquivalent groups late classes ∧ ∀ c ∈ classes, c.representative ∈ d.live :=
  (answers_splitByComparison hsolve hparts hfit hgroups).mono fun late classes hsplits =>
    ⟨hsplits, fun c hc => by
      obtain ⟨group, hgroup, hmem⟩ := hsplits.grouped c hc
      exact hgroups group hgroup _ (hmem _ (representative_mem_members c))⟩

/-- How a classification ends, unless a formula is to be written: the local classes split the groups of
nodes that look alike. -/
theorem ends_ofDagBy {τ : Type} [DecidableEq τ] {digest : List TraceEntry → τ}
    (hsolve : solve.Correct) (hparts : d.HasProperParts) (hfit : FitMemory d options.equivalence)
    (hoff : options.depth ≠ .off) (hnaive : options.depth ≠ .naive)
    (hmerge : options.maximalMerge = false) {r : Except StructureError NodeClasses}
    (hends : Ends (ofDagBy solve d options digest).run ts r) :
    (∃ classes groups late, r = .ok classes ∧ AreLookAlikes d options.minimumSize groups ∧
      Splits d.AreEquivalent groups late classes.localClasses ∧ late <+: classes.late ∧
      (classes.late ≠ [] → Deadline.Overruns options.equivalence.timeout ts)) ∨
    (∃ e, r = .error e) ∧ ¬ WritesNothing options := by
  obtain ⟨ranked, hranked, hgroups, hlive⟩ := exists_liveRanks digest options.minimumSize hparts
  have hanswers := answers_classify_of hparts hmerge
    (fun groups => answers_splitByComparison_live hsolve hparts hfit) hlive
  rcases ends_ofDagBy_of hoff hnaive hranked hanswers hends with
    ⟨classes, rfl, hlate, late', late'', hsum, hsplits, -⟩ | hfail
  · exact Or.inl ⟨classes, _, late', rfl, hgroups, hsplits, hsum ▸ List.prefix_append _ _, hlate⟩
  · exact Or.inr hfail

/-! ## The classes -/

/-- Classes that split look-alikes are the equivalence classes of the large nodes. -/
theorem together_iff {groups : List (List NodeId)} {late : List LateComparison} {minimumSize : Nat}
    (hgroups : AreLookAlikes d minimumSize groups)
    (hsplits : Splits d.AreEquivalent groups late classes) (hlate : late = []) (ha : a ∈ d.live)
    (hb : b ∈ d.live) (hne : a ≠ b) :
    (∃ c ∈ classes, a ∈ c.members ∧ b ∈ c.members) ↔
      minimumSize ≤ (d.node a).constraints.length ∧ minimumSize ≤ (d.node b).constraints.length ∧
        d.AreEquivalent a b := by
  constructor
  · rintro ⟨c, hc, hac, hbc⟩
    obtain ⟨group, hgroup, hmem⟩ := hsplits.grouped c hc
    exact ⟨hgroups.large group hgroup a (hmem a hac) b (hmem b hbc) hne,
      hgroups.large group hgroup b (hmem b hbc) a (hmem a hac) hne.symm,
      hsplits.related c hc a hac b hbc⟩
  · rintro ⟨hsize, hsize', hab⟩
    obtain ⟨group, hgroup, hag, hbg⟩ := hgroups.together a ha b hb hsize hsize' hab
    exact hsplits.complete hlate group hgroup a hag b hbg hab

/-- The local classes of the nodes of a graph of clusters, after any merges, are the equivalence classes
of the nodes that are large enough. With a correct solver, whatever the policy, whatever the clock shows
and however the traces of refinements are digested, every live node is in one class, and only once; two
nodes share a class exactly if both are large and their sub-circuits are equivalent, unless a comparison
was late, which takes a clock that overruns the budget. The run fails only where a formula cannot be
written. -/
theorem localClasses_exact {τ : Type} [DecidableEq τ] (digest : List TraceEntry → τ)
    (circuit : Circuit) (hproper : circuit.IsProper) (partition : Partition)
    (hsize : partition.size = circuit.nConstraints) (pairs : List (NodeId × NodeId))
    (hsolve : solve.Correct) (hoff : options.depth ≠ .off) (hnaive : options.depth ≠ .naive)
    (hmerge : options.maximalMerge = false) :
    let d := (Dag.ofPartition circuit partition).tryMerges pairs
    FitMemory d options.equivalence → ∀ (ts : List Nat) (r : Except StructureError NodeClasses),
      Ends (ofDagBy solve d options digest).run ts r →
      (WritesNothing options → ∃ classes, r = .ok classes) ∧
      ∀ classes, r = .ok classes →
        (classes.localClasses.flatMap (·.members)).Perm d.live.toList ∧
        (classes.late ≠ [] → Deadline.Overruns options.equivalence.timeout ts) ∧
        (classes.late = [] → ∀ a ∈ d.live, ∀ b ∈ d.live, a ≠ b →
          ((∃ c ∈ classes.localClasses, a ∈ c.members ∧ b ∈ c.members) ↔
            options.minimumSize ≤ (d.node a).constraints.length ∧
              options.minimumSize ≤ (d.node b).constraints.length ∧ d.AreEquivalent a b)) := by
  intro d hfit ts r hends
  obtain ⟨hwellFormed, hretires⟩ := (Dag.isWellFormed_ofPartition hsize).tryMerges pairs
  have hcircuit : d.circuit = circuit := hretires.circuit.trans Dag.circuit_ofPartition
  have hparts : d.HasProperParts := hwellFormed.hasProperParts (hcircuit.symm ▸ hproper)
  rcases ends_ofDagBy hsolve hparts hfit hoff hnaive hmerge hends with
    ⟨classes, groups, late, rfl, hgroups, hsplits, hprefix, hlate⟩ | ⟨⟨e, rfl⟩, hwrites⟩
  · refine ⟨fun _ => ⟨classes, rfl⟩, fun found hfound => ?_⟩
    obtain rfl := Except.ok.inj hfound
    refine ⟨hsplits.nodes.trans hgroups.nodes, hlate, fun hnil a ha b hb hne => ?_⟩
    exact together_iff hgroups hsplits (List.prefix_nil.1 (hnil ▸ hprefix)) ha hb hne
  · exact ⟨fun h => absurd h hwrites, fun _ h => nomatch h⟩

namespace Sample

/-- The signal `y` is a copy of the signal `x`. -/
def copy (x y : Signal) : Constraint := .acir (.ofTerms Circuit.Sample.field [] [(x, 1), (y, 6)] 0)

/-- The input 1 is squared twice, copied, and squared twice again, which leads to the output 6. -/
def relay : Circuit where
  field := Circuit.Sample.field
  dialect := .acir
  nSignals := 7
  constraints := #[Dag.Sample.square 1 2, Dag.Sample.square 2 3, copy 3 4, Dag.Sample.square 4 5,
    Dag.Sample.square 5 6]
  inputs := .ofList [1]
  outputs := .ofList [6]
  nSignals_pos := by decide
  inputs_declarable := by decide
  outputs_declarable := by decide
  inputs_disjoint_outputs := by decide
  constraints_wellFormed := by decide

/-- The nodes of the single constraints, the first two of them merged. -/
def relayNodes : Dag := (Dag.ofPartition relay ⟨[0, 1, 2, 3, 4]⟩).tryMerges [(0, 1)]

theorem isProper_relay : relay.IsProper := ⟨by decide, by decide⟩

theorem hasProperParts_relayNodes : relayNodes.HasProperParts := by
  have hbefore : (Dag.ofPartition relay ⟨[0, 1, 2, 3, 4]⟩).IsWellFormed := Dag.isWellFormed_ofPartition rfl
  obtain ⟨h, hretires⟩ := hbefore.tryMerges [(0, 1)]
  exact h.hasProperParts ((hretires.circuit.trans Dag.circuit_ofPartition).symm ▸ isProper_relay)

/-- The two single squarings are equivalent. -/
theorem areEquivalent_squares : relayNodes.AreEquivalent 3 4 := by
  obtain ⟨l, hl⟩ := hasProperParts_relayNodes 3 (by decide +kernel)
  obtain ⟨r, hr⟩ := hasProperParts_relayNodes 4 (by decide +kernel)
  have hsame : (relayNodes.subCircuit 3).toOption.map (·.circuit) =
      (relayNodes.subCircuit 4).toOption.map (·.circuit) := by decide +kernel
  rw [hl.subCircuit, hr.subCircuit] at hsame
  have hsame : l.circuit = r.circuit := Option.some.inj hsame
  exact (hl.areEquivalent_iff hr).2 (hsame ▸ .refl hl.proper)

/-- A copy is not equivalent to a squaring, though all sizes agree. -/
theorem not_areEquivalent_copy : ¬ relayNodes.AreEquivalent 2 3 := by
  obtain ⟨l, hl⟩ := hasProperParts_relayNodes 2 (by decide +kernel)
  obtain ⟨r, hr⟩ := hasProperParts_relayNodes 3 (by decide +kernel)
  have hcopy : (relayNodes.subCircuit 2).toOption.map (·.circuit.constraints) = some #[copy 2 1] := by
    decide +kernel
  have hsquare : (relayNodes.subCircuit 3).toOption.map (·.circuit.constraints) =
      some #[Dag.Sample.square 2 1] := by decide +kernel
  rw [hl.subCircuit] at hcopy
  rw [hr.subCircuit] at hsquare
  have hcopy : l.circuit.constraints = #[copy 2 1] := Option.some.inj hcopy
  have hsquare : r.circuit.constraints = #[Dag.Sample.square 2 1] := Option.some.inj hsquare
  rw [hl.areEquivalent_iff hr]
  rintro ⟨σ, κ, h⟩
  have : Fact l.circuit.field.modulus.Prime := ⟨hl.proper.prime⟩
  have hc : l.circuit.constraints[0]? = some (copy 2 1) := by rw [hcopy]; rfl
  obtain ⟨e, he, hrescaling⟩ := h.isRescaling hl.proper.reduced hr.proper.reduced hc
  have he : e = Dag.Sample.square 2 1 := by
    have hmem := Circuit.mem_constraints_of_getElem? he
    rw [hsquare] at hmem
    exact List.mem_singleton.1 hmem
  subst he
  -- renaming and scaling keep the terms of degree two, and the copy has none
  obtain ⟨k, -, heq⟩ := hrescaling
  exact absurd (congrArg (·.mult.isEmpty) heq) Bool.false_ne_true

end Sample

open Sample in
/-- Although all traces are digested to one value and the sizes agree, the two single squarings share a
class and the copy is not in it. -/
theorem localClasses_exact_relay :
    relay.IsProper ∧ (⟨[0, 1, 2, 3, 4]⟩ : Partition).size = relay.nConstraints ∧
    Solver.exhaustive.Correct ∧ FitMemory relayNodes ({} : ClassOptions).equivalence ∧
    WritesNothing {} ∧ ∃ ts classes,
      Ends (ofDagBy Solver.exhaustive relayNodes {} fun _ => ()).run ts (.ok classes) ∧
      classes.late = [] ∧ (classes.localClasses.flatMap (·.members)).Perm [2, 3, 4, 5] ∧
      (∃ c ∈ classes.localClasses, 3 ∈ c.members ∧ 4 ∈ c.members) ∧
      ¬ ∃ c ∈ classes.localClasses, 2 ∈ c.members ∧ 3 ∈ c.members := by
  have hfit : FitMemory relayNodes ({} : ClassOptions).equivalence :=
    fun _ _ _ _ _ _ _ _ hpolicy => nomatch hpolicy
  have hwrites : WritesNothing {} := ⟨rfl, fun _ h => nomatch h⟩
  refine ⟨isProper_relay, rfl, Solver.exhaustive_correct, hfit, hwrites, ?_⟩
  obtain ⟨ts, hends⟩ := Interaction.ends_run
    (ofDagBy Solver.exhaustive relayNodes {} fun _ => ()).run (.ofFiles [])
  obtain ⟨hok, hclasses⟩ := localClasses_exact (fun _ => ()) relay isProper_relay ⟨[0, 1, 2, 3, 4]⟩ rfl
    [(0, 1)] Solver.exhaustive_correct (by decide) (by decide) rfl hfit ts _ hends
  obtain ⟨classes, hr⟩ := hok hwrites
  rw [hr] at hends
  obtain ⟨hnodes, hlate, htogether⟩ := hclasses classes hr
  have hnil : classes.late = [] := by
    by_contra hne
    exact Deadline.not_overruns_none (hlate hne)
  have hlive : relayNodes.live.toList = [2, 3, 4, 5] := by decide +kernel
  refine ⟨ts, classes, hends, hnil, hlive ▸ hnodes, ?_, fun hshare => ?_⟩
  · exact (htogether hnil 3 (by decide +kernel) 4 (by decide +kernel) (by decide)).2
      ⟨by decide +kernel, by decide +kernel, areEquivalent_squares⟩
  · exact not_areEquivalent_copy ((htogether hnil 2 (by decide +kernel) 3 (by decide +kernel)
      (by decide)).1 hshare).2.2

end CircuitEquiv.NodeClasses
