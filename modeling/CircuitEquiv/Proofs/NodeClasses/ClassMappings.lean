-- SUMMARY: The mappings of the classes of nodes lead from the representative to the other nodes, in the numbering of the circuit.
import CircuitEquiv.Proofs.Dag.NodeMapping
import CircuitEquiv.Proofs.NodeClasses.LocalClasses

/-!
# Mappings of classes

A node joins a class only with a mapping that a comparison has returned, and such a mapping, put into the
numbering of the circuit, leads from the representative to the node. Placing keeps this for all nodes that
were placed before, so it holds of every class, whether nodes were grouped by their contents or by their
surroundings.
-/

namespace CircuitEquiv.NodeClasses

open Interaction (Ends)
open NotingAttempt (Answers)

variable {timeout : Option Nat} {mayFail : Prop} {S : NodeId → Prop}
  {P : NodeId → NodeId → Mapping → Prop} {classes : List NodeClass} {groups : List (List NodeId)}

/-- Classes are led by nodes of a kind, and every other node comes with a mapping that is as promised. -/
structure AreMapped (S : NodeId → Prop) (P : NodeId → NodeId → Mapping → Prop)
    (classes : List NodeClass) : Prop where
  leads : ∀ c ∈ classes, S c.representative
  others : ∀ c ∈ classes, ∀ e ∈ c.others, ∃ m, e.2 = some m ∧ P c.representative e.1 m

namespace AreMapped

theorem nil : AreMapped S P [] := ⟨by simp, by simp⟩

theorem cons {c : NodeClass} (hlead : S c.representative)
    (hothers : ∀ e ∈ c.others, ∃ m, e.2 = some m ∧ P c.representative e.1 m)
    (h : AreMapped S P classes) : AreMapped S P (c :: classes) :=
  ⟨List.forall_mem_cons.2 ⟨hlead, h.leads⟩, List.forall_mem_cons.2 ⟨hothers, h.others⟩⟩

theorem tail {c : NodeClass} (h : AreMapped S P (c :: classes)) : AreMapped S P classes :=
  ⟨fun c hc => h.leads c (List.mem_cons_of_mem _ hc), fun c hc => h.others c (List.mem_cons_of_mem _ hc)⟩

theorem flatten {parts : List (List NodeClass)} (h : ∀ part ∈ parts, AreMapped S P part) :
    AreMapped S P parts.flatten where
  leads c hc := by
    obtain ⟨part, hpart, hc⟩ := List.mem_flatten.1 hc
    exact (h part hpart).leads c hc
  others c hc := by
    obtain ⟨part, hpart, hc⟩ := List.mem_flatten.1 hc
    exact (h part hpart).others c hc

theorem perm {classes' : List NodeClass} (h : AreMapped S P classes) (hperm : classes'.Perm classes) :
    AreMapped S P classes' :=
  ⟨fun c hc => h.leads c (hperm.mem_iff.1 hc), fun c hc => h.others c (hperm.mem_iff.1 hc)⟩

end AreMapped

/-! ## Placing nodes -/

section Place

variable {compareTo : NodeId → NodeId → NotingAttempt (Option Mapping)} {id : NodeId}

/-- Every mapping that a comparison returns is as promised. -/
def Maps (timeout : Option Nat) (mayFail : Prop) (S : NodeId → Prop)
    (P : NodeId → NodeId → Mapping → Prop)
    (compareTo : NodeId → NodeId → NotingAttempt (Option Mapping)) : Prop :=
  ∀ a b, S a → S b → Answers timeout mayFail (compareTo a b) fun _ found => ∀ m, found = some m → P a b m

/-- Placing a node keeps the mappings and adds one that is as promised. -/
theorem answers_place_areMapped (hmaps : Maps timeout mayFail S P compareTo) (hid : S id)
    (hclasses : AreMapped S P classes) :
    Answers timeout mayFail (place compareTo id classes) fun _ after => AreMapped S P after := by
  induction classes with
  | nil => exact .pure (.cons hid (by simp [NodeClass.single]) .nil)
  | cons c rest ih =>
    have hlead := hclasses.leads c List.mem_cons_self
    have hothers := hclasses.others c List.mem_cons_self
    refine .bind (hmaps _ _ hlead hid) fun late found hfound => ?_
    cases found with
    | some m =>
      refine .pure (.cons hlead (fun e he => ?_) hclasses.tail)
      rcases List.mem_append.1 he with he | he
      · exact hothers e he
      · obtain rfl := List.mem_singleton.1 he
        exact ⟨m, rfl, hfound m rfl⟩
    | none => exact .bind (ih hclasses.tail) fun _ after hafter => .pure (.cons hlead hothers hafter)

end Place

/-! ## Splitting groups -/

variable {solve : Solver} {d : Dag} {options : ClassOptions} {a b : NodeId} {ts : List Nat}

/-- A comparison of two live nodes returns only mappings that lead from the one to the other. -/
theorem maps_compareNodes (hsolve : solve.Correct) (h : d.IsWellFormed) (hproper : d.circuit.IsProper)
    (hfit : FitMemory d options.equivalence) (hundo : options.undoMapping = true) :
    Maps options.equivalence.timeout (options.equivalence.dumpPath ≠ none) (· ∈ d.live) d.IsNodeMapping
      (compareNodes solve d options) := by
  intro a b ha hb
  obtain ⟨l, hl⟩ := h.hasProperParts hproper a ha
  obtain ⟨r, hr⟩ := h.hasProperParts hproper b hb
  have hfits := hfit a ha b hb l r hl.subCircuit hr.subCircuit
  refine answers_compareNodes_of hsolve hl hr hfits fun ts comparison hcompared m hfound => ?_
  rcases Comparison.outcome_cases hsolve hl.proper hr.proper hfits hcompared with
    ⟨m', houtcome, hm⟩ | ⟨difference, houtcome, -⟩ | ⟨phase, best, houtcome, -⟩
  all_goals
    rw [houtcome] at hfound
    dsimp only [concludes] at hfound
    cases hfound
  rw [hundo, if_pos rfl]
  exact (h.isNumbering hproper ha hl.subCircuit).isNodeMapping (h.isNumbering hproper hb hr.subCircuit) hm
    hproper (h.boundaries a ha) (h.boundaries b hb)

theorem answers_splitByComparison_areMapped
    (hmaps : Maps timeout mayFail S P (compareNodes solve d options))
    (hgroups : ∀ group ∈ groups, ∀ id ∈ group, S id) :
    Answers timeout mayFail (splitByComparison solve d options groups)
      fun _ classes => AreMapped S P classes := by
  have hgroup : ∀ group ∈ groups, Answers timeout mayFail
      (group.foldlM (fun classes id => place (compareNodes solve d options) id classes) [])
      fun _ classes => AreMapped S P classes := fun group hgroup =>
    .foldlM (fun classes id hid hclasses =>
      answers_place_areMapped hmaps (hgroups group hgroup id hid) hclasses) .nil
  unfold splitByComparison
  refine .bind (.mapM hgroup) fun late parts hparts => .pure (.perm (.flatten fun part hpart => ?_)
    (List.mergeSort_perm _ _))
  obtain ⟨i, hi, rfl⟩ := List.getElem_of_mem hpart
  obtain ⟨_, hmapped, -⟩ := hparts.get (hparts.length_eq ▸ hi) hi
  exact hmapped

/-! ## The classes -/

/-- The classes of the nodes of a graph of clusters, after any merges, come with mappings in the numbering
of the circuit. With a correct solver, whatever the policy and the depth of verification, whatever the
clock shows and however the traces of refinements are digested, every node of a class, local or structural,
has a mapping that leads to it from the representative. The run fails only where a formula cannot be
written. -/
theorem others_areMapped {τ : Type} [DecidableEq τ] (digest : List TraceEntry → τ)
    (circuit : Circuit) (hproper : circuit.IsProper) (partition : Partition)
    (hsize : partition.size = circuit.nConstraints) (pairs : List (NodeId × NodeId))
    (hsolve : solve.Correct) (hoff : options.depth ≠ .off) (hnaive : options.depth ≠ .naive)
    (hmerge : options.maximalMerge = false) (hundo : options.undoMapping = true) :
    let d := (Dag.ofPartition circuit partition).tryMerges pairs
    FitMemory d options.equivalence → ∀ (ts : List Nat) (r : Except StructureError NodeClasses),
      Ends (ofDagBy solve d options digest).run ts r →
      (WritesNothing options → ∃ classes, r = .ok classes) ∧
      ∀ classes, r = .ok classes → ∀ c ∈ classes.localClasses ++ classes.structuralClasses,
        ∀ e ∈ c.others, ∃ m, e.2 = some m ∧ d.IsNodeMapping c.representative e.1 m := by
  intro d hfit ts r hends
  obtain ⟨hwellFormed, hretires⟩ := (Dag.isWellFormed_ofPartition hsize).tryMerges pairs
  have hcircuit : d.circuit = circuit := hretires.circuit.trans Dag.circuit_ofPartition
  have hproper' : d.circuit.IsProper := hcircuit.symm ▸ hproper
  have hparts := hwellFormed.hasProperParts hproper'
  obtain ⟨ranked, hranked, -, hlive⟩ := exists_liveRanks digest options.minimumSize hparts
  have hmaps := maps_compareNodes hsolve hwellFormed hproper' hfit hundo
  have hsplit : ∀ groups : List (List NodeId), (∀ group ∈ groups, ∀ id ∈ group, id ∈ d.live) →
      Answers options.equivalence.timeout (options.equivalence.dumpPath ≠ none)
        (splitByComparison solve d options groups) fun _ classes =>
          AreMapped (· ∈ d.live) d.IsNodeMapping classes ∧ ∀ c ∈ classes, c.representative ∈ d.live :=
    fun groups hgroups => (answers_splitByComparison_areMapped hmaps hgroups).mono
      fun _ classes hmapped => ⟨hmapped, hmapped.leads⟩
  have hanswers := answers_classify_of hparts hmerge hsplit hlive
  rcases ends_ofDagBy_of hoff hnaive hranked hanswers hends with
    ⟨classes, rfl, -, -, -, -, hlocal, hstructural⟩ | ⟨⟨e, rfl⟩, hwrites⟩
  · refine ⟨fun _ => ⟨classes, rfl⟩, fun found hfound c hc => ?_⟩
    obtain rfl := Except.ok.inj hfound
    rcases List.mem_append.1 hc with hc | hc
    · exact hlocal.others c hc
    · exact hstructural.others c hc
  · exact ⟨fun h => absurd h hwrites, fun _ h => nomatch h⟩

theorem others_ne_nil {c : NodeClass} (ha : a ∈ c.members) (hb : b ∈ c.members) (hne : a ≠ b) :
    c.others ≠ [] := by
  intro hnil
  rw [NodeClass.members, hnil, List.map_nil, List.mem_singleton] at ha hb
  exact hne (ha.trans hb.symm)

/-- The options for structural classes. -/
def Sample.structural : ClassOptions := { depth := .structural }

open Sample in
/-- The two single squarings share a class, and a mapping leads from the one to the other. -/
theorem others_areMapped_relay :
    relay.IsProper ∧ (⟨[0, 1, 2, 3, 4]⟩ : Partition).size = relay.nConstraints ∧
    Solver.exhaustive.Correct ∧ FitMemory relayNodes structural.equivalence ∧ WritesNothing structural ∧
    ∃ ts classes, Ends (ofDagBy Solver.exhaustive relayNodes structural fun _ => ()).run ts (.ok classes) ∧
      ∃ c ∈ classes.localClasses, 3 ∈ c.members ∧ 4 ∈ c.members ∧
        ∃ e ∈ c.others, ∃ m, e.2 = some m ∧ relayNodes.IsNodeMapping c.representative e.1 m := by
  have hfit : FitMemory relayNodes structural.equivalence :=
    fun _ _ _ _ _ _ _ _ hpolicy => nomatch hpolicy
  have hwrites : WritesNothing structural := ⟨rfl, fun _ h => nomatch h⟩
  refine ⟨isProper_relay, rfl, Solver.exhaustive_correct, hfit, hwrites, ?_⟩
  obtain ⟨ts, hends⟩ := Interaction.ends_run
    (ofDagBy Solver.exhaustive relayNodes structural fun _ => ()).run (.ofFiles [])
  obtain ⟨hok, hmapped⟩ := others_areMapped (fun _ => ()) relay isProper_relay ⟨[0, 1, 2, 3, 4]⟩ rfl
    [(0, 1)] Solver.exhaustive_correct (by decide) (by decide) rfl rfl hfit ts _ hends
  obtain ⟨classes, hr⟩ := hok hwrites
  rw [hr] at hends
  rcases ends_ofDagBy Solver.exhaustive_correct hasProperParts_relayNodes hfit (by decide) (by decide)
    rfl hends with ⟨_, _, _, heq, hgroups, hsplits, hprefix, hlate⟩ | ⟨⟨_, heq⟩, -⟩
  · obtain rfl := Except.ok.inj heq
    have hnil : classes.late = [] := by
      by_contra hne
      exact Deadline.not_overruns_none (hlate hne)
    obtain ⟨c, hc, h3, h4⟩ := (together_iff hgroups hsplits (List.prefix_nil.1 (hnil ▸ hprefix))
      (by decide +kernel) (by decide +kernel) (by decide)).2
        ⟨by decide +kernel, by decide +kernel, areEquivalent_squares⟩
    obtain ⟨e, he⟩ := List.exists_mem_of_ne_nil _ (others_ne_nil h3 h4 (by decide))
    exact ⟨ts, classes, hends, c, hc, h3, h4, e, he,
      hmapped classes hr c (List.mem_append_left _ hc) e he⟩
  · cases heq

end CircuitEquiv.NodeClasses
