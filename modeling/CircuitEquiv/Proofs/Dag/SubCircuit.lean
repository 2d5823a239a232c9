-- SUMMARY: Cutting the nodes of a well-formed graph out as circuits of their own loses nothing.
import CircuitEquiv.Proofs.Constraint.Satisfaction
import CircuitEquiv.Proofs.Dag.Validity

/-!
# Cutting out nodes

The signals of a group of constraints are listed once each, the constant signal first, and every signal
is renamed to its place. That renaming is injective and keeps the constant signal, so the checks of
renamed constraints and of the new circuit never fail, and it is undone by the list. As the live nodes
share out the constraints, values satisfy the circuit exactly if they satisfy every node.
-/

namespace CircuitEquiv

/-! ## Building circuits -/

namespace Circuit

theorem declarationFault?_eq_none_iff {declaration : Declaration} {nSignals : Nat} {l : List Signal} :
    declarationFault? declaration nSignals l = none ↔ ∀ s ∈ l, s ≠ constantSignal ∧ s < nSignals := by
  refine ⟨declarationFault?_eq_none, fun h => ?_⟩
  induction l with
  | nil => rfl
  | cons s rest ih =>
    obtain ⟨⟨hs, hlt⟩, hrest⟩ := List.forall_mem_cons.1 h
    rw [declarationFault?, if_neg hs, if_neg (Nat.not_le.2 hlt)]
    exact ih hrest

theorem constraintFault?_eq_none_iff {dialect : Dialect} {nSignals index : Nat}
    {l : List Constraint} : constraintFault? dialect nSignals index l = none ↔
      ∀ c ∈ l, c.dialect = dialect ∧ ∀ s ∈ c.signals, s < nSignals := by
  refine ⟨constraintFault?_eq_none, fun h => ?_⟩
  induction l generalizing index with
  | nil => rfl
  | cons c rest ih =>
    obtain ⟨⟨hdialect, hlt⟩, hrest⟩ := List.forall_mem_cons.1 h
    have hnone : (c.signals.filter (· ≥ nSignals)).max? = none := by
      refine List.getLast?_eq_none_iff.2 (List.filter_eq_nil_iff.2 fun s hs => ?_)
      simpa using hlt s hs
    rw [constraintFault?, if_neg (not_not.2 hdialect), hnone]
    exact ih hrest

/-- Building succeeds where no check fails, and takes everything over. -/
theorem exists_build {F : PrimeField} {dialect : Dialect} {nSignals : Nat}
    {inputs outputs : List Signal} {constraints : List Constraint} (hpos : 0 < nSignals)
    (hin : ∀ s ∈ inputs, s ≠ constantSignal ∧ s < nSignals)
    (hout : ∀ s ∈ outputs, s ≠ constantSignal ∧ s < nSignals) (hdisjoint : inputs.Disjoint outputs)
    (hconstraints : ∀ c ∈ constraints, c.dialect = dialect ∧ ∀ s ∈ c.signals, s < nSignals) :
    ∃ circuit, build F dialect (some nSignals) inputs outputs constraints = .ok circuit ∧
      circuit.field = F ∧ circuit.dialect = dialect ∧ circuit.nSignals = nSignals ∧
      circuit.inputs = SortedSet.ofList inputs ∧ circuit.outputs = SortedSet.ofList outputs ∧
      circuit.constraints = constraints.toArray := by
  have hmax : max nSignals 1 = nSignals := Nat.max_eq_left hpos
  have hoverlap : ((SortedSet.ofList inputs).inter (SortedSet.ofList outputs)).min? = none := by
    refine List.head?_eq_none_iff.2 (List.filter_eq_nil_iff.2 fun s hs hs' => ?_)
    exact hdisjoint (SortedSet.mem_ofList.1 hs) (SortedSet.mem_ofList.1 (of_decide_eq_true hs'))
  unfold build
  simp only [Option.getD_some]
  split
  · rename_i hfault
    rw [hmax, declarationFault?_eq_none_iff.2 hin] at hfault
    cases hfault
  split
  · rename_i hfault
    rw [hmax, declarationFault?_eq_none_iff.2 hout] at hfault
    cases hfault
  split
  · rename_i hfault
    rw [hoverlap] at hfault
    cases hfault
  split
  · rename_i hfault
    rw [hmax, constraintFault?_eq_none_iff.2 hconstraints] at hfault
    cases hfault
  exact ⟨_, rfl, rfl, rfl, hmax, rfl, rfl, rfl⟩

end Circuit

/-! ## Places of signals -/

namespace SubCircuit

/-- The place of a signal in a list; other signals are moved behind the list. -/
def place (order : List Signal) (s : Signal) : Signal :=
  if s ∈ order then order.idxOf s else order.length + s

section Place

variable {order : List Signal} {s : Signal}

theorem place_of_mem (h : s ∈ order) : place order s = order.idxOf s := if_pos h

theorem place_lt (h : s ∈ order) : place order s < order.length :=
  place_of_mem h ▸ List.idxOf_lt_length_of_mem h

theorem getElem?_place (h : s ∈ order) : order[place order s]? = some s := by
  rw [place_of_mem h]
  exact List.getElem?_idxOf h

/-- Moving every signal to its place in a list that the constant signal leads is a renaming. -/
theorem isRenaming_place (rest : List Signal) : IsRenaming (place (constantSignal :: rest)) where
  injective s t heq := by
    unfold place at heq
    split_ifs at heq with hs ht ht
    · exact (List.idxOf_inj hs).1 heq
    · exact absurd (heq ▸ List.idxOf_lt_length_of_mem hs) (Nat.not_lt.2 (Nat.le_add_right _ _))
    · exact absurd (heq ▸ List.idxOf_lt_length_of_mem ht) (Nat.not_lt.2 (Nat.le_add_right _ _))
    · exact Nat.add_left_cancel heq
  constant := by
    rw [place_of_mem List.mem_cons_self, List.idxOf_cons_self]
    rfl

/-- Looking a listed signal up finds its place. -/
theorem getD_zipIdx (hnodup : order.Nodup) (h : s ∈ order) :
    (SortedMap.ofList order.zipIdx).getD s order.length = place order s := by
  have hkeys : (order.zipIdx.map (·.1)).Nodup := by rwa [List.zipIdx_map_fst]
  have hmem : (s, place order s) ∈ order.zipIdx :=
    List.mem_zipIdx_iff_getElem?.2 (getElem?_place h)
  rw [SortedMap.getD, (SortedMap.get?_ofList_of_nodup hkeys).2 hmem]
  rfl

end Place

/-! ## Cutting out a group -/

section Extract

variable {circuit : Circuit} {group : List Nat} {inputs outputs : SortedSet Signal}

theorem mem_signalOrder {s : Signal} : s ∈ signalOrder circuit group inputs outputs ↔
    s = constantSignal ∨ s ∈ outputs ∨ s ∈ inputs ∨
      ∃ k ∈ group, s ∈ (circuit.constraints[k]?.getD default).signals := by
  simp only [signalOrder, List.cons_append, List.mem_cons, List.mem_append, ← SortedSet.mem_def,
    SortedSet.sdiff, SortedSet.mem_filter, SortedSet.mem_ofList, List.mem_flatMap, decide_eq_true_eq]
  tauto

/-- Every signal is listed once. -/
theorem nodup_signalOrder (hin : constantSignal ∉ inputs) (hout : constantSignal ∉ outputs)
    (hused : ∀ k ∈ group,
      constantSignal ∉ (circuit.constraints[k]?.getD default).signals) :
    (signalOrder circuit group inputs outputs).Nodup := by
  have hdeclared : (outputs.toList ++ (inputs.sdiff outputs).toList).Nodup := by
    refine outputs.nodup_toList.append (SortedSet.nodup_toList _) fun s hs hs' => ?_
    exact of_decide_eq_true (SortedSet.mem_filter.1 hs').2 hs
  refine List.nodup_cons.2 ⟨fun hmem => ?_,
    hdeclared.append (SortedSet.nodup_toList _) fun s hs hs' => ?_⟩
  · rcases List.mem_append.1 hmem with hmem | hmem
    · rcases List.mem_append.1 hmem with hmem | hmem
      · exact hout hmem
      · exact hin (SortedSet.mem_filter.1 hmem).1
    · have hmem := (SortedSet.mem_filter.1 (SortedSet.mem_filter.1 hmem).1).1
      obtain ⟨k, hk, hs⟩ := List.mem_flatMap.1 (SortedSet.mem_ofList.1 hmem)
      exact hused k hk hs
  · obtain ⟨hs', hout'⟩ := SortedSet.mem_filter.1 hs'
    obtain ⟨-, hin'⟩ := SortedSet.mem_filter.1 hs'
    rcases List.mem_append.1 hs with hs | hs
    · exact of_decide_eq_true hout' hs
    · exact of_decide_eq_true hin' (SortedSet.mem_filter.1 hs).1

/-- The sub-circuit consists of the renamed constraints. -/
structure IsCut (circuit : Circuit) (group : List Nat) (inputs outputs : SortedSet Signal)
    (sub : SubCircuit) : Prop where
  signals : sub.signals = signalOrder circuit group inputs outputs
  constraints : sub.constraints = group
  field : sub.circuit.field = circuit.field
  dialect : sub.circuit.dialect = circuit.dialect
  nSignals : sub.circuit.nSignals = sub.signals.length
  renamed : sub.circuit.constraints = (group.map fun k =>
    (circuit.constraints[k]?.getD default).rename (place sub.signals)).toArray

/-- The constant signal is not among the signals of a constraint. -/
theorem ne_constant_of_mem_signals (hkeys : circuit.HasProperKeys) {k : Nat}
    (hk : k < circuit.nConstraints) {s : Signal}
    (hs : s ∈ (circuit.constraints[k]?.getD default).signals) : s ≠ constantSignal := by
  rw [Array.getElem?_eq_getElem hk] at hs
  exact (hkeys _ (Array.getElem_mem_toList hk)).ne_constant_of_mem_signals hs

/-- Renaming the constraints of a group to the places of their signals never fails. -/
theorem mapM_signalMap_eq (hkeys : circuit.HasProperKeys) (hlt : ∀ k ∈ group, k < circuit.nConstraints)
    (hnodup : (signalOrder circuit group inputs outputs).Nodup) :
    group.mapM (fun k => (circuit.constraints[k]?.getD default).signalMap fun s =>
      (SortedMap.ofList (signalOrder circuit group inputs outputs).zipIdx).getD s
        (signalOrder circuit group inputs outputs).length) =
      .ok (group.map fun k => (circuit.constraints[k]?.getD default).rename
        (place (signalOrder circuit group inputs outputs))) :=
  mapM_eq_ok fun k hk => Constraint.signalMap_of_agree (isRenaming_place _)
    (fun _ hs => ne_constant_of_mem_signals hkeys (hlt k hk) hs) fun _ hs =>
      getD_zipIdx hnodup (mem_signalOrder.2 (Or.inr (Or.inr (Or.inr ⟨k, hk, hs⟩))))

/-- The renamed constraints keep the dialect and have listed places only. -/
theorem declarable_renamed (hlt : ∀ k ∈ group, k < circuit.nConstraints) {c : Constraint}
    (hc : c ∈ group.map fun k => (circuit.constraints[k]?.getD default).rename
      (place (signalOrder circuit group inputs outputs))) :
    c.dialect = circuit.dialect ∧
      ∀ s ∈ c.signals, s < (signalOrder circuit group inputs outputs).length := by
  obtain ⟨k, hk, rfl⟩ := List.mem_map.1 hc
  have hmem : circuit.constraints[k]?.getD default ∈ circuit.constraints.toList := by
    rw [Array.getElem?_eq_getElem (hlt k hk)]
    exact Array.getElem_mem_toList _
  refine ⟨(Constraint.dialect_rename _ _).trans (circuit.constraints_wellFormed _ hmem).1,
    fun s hs => ?_⟩
  obtain ⟨t, ht, rfl⟩ := (Constraint.mem_signals_rename (isRenaming_place _)).1 hs
  exact place_lt (mem_signalOrder.2 (Or.inr (Or.inr (Or.inr ⟨k, hk, ht⟩))))

/-- Consecutive places behind the constant signal can be declared. -/
theorem declarable_places {first count length : Nat} (hfirst : 0 < first)
    (hle : first + count ≤ length) :
    ∀ s ∈ (List.range count).map (first + ·), s ≠ constantSignal ∧ s < length := by
  intro s hs
  obtain ⟨i, hi, rfl⟩ := List.mem_map.1 hs
  have hi := List.mem_range.1 hi
  exact ⟨Nat.ne_of_gt (Nat.add_pos_left hfirst i), by omega⟩

/-- Cutting out never fails. -/
theorem exists_extract (hkeys : circuit.HasProperKeys) (hlt : ∀ k ∈ group, k < circuit.nConstraints)
    (hin : constantSignal ∉ inputs) (hout : constantSignal ∉ outputs) :
    ∃ sub, extract circuit group inputs outputs = .ok sub ∧
      IsCut circuit group inputs outputs sub := by
  have hnodup : (signalOrder circuit group inputs outputs).Nodup :=
    nodup_signalOrder hin hout fun k hk hs => ne_constant_of_mem_signals hkeys (hlt k hk) hs rfl
  have hlength : outputs.size + 1 + (inputs.sdiff outputs).size ≤
      (signalOrder circuit group inputs outputs).length := by
    simp only [signalOrder, List.cons_append, List.length_cons, List.length_append, SortedSet.size]
    omega
  -- the outputs take the places behind the constant signal, the other inputs those behind them
  have hdisjoint : ((List.range (inputs.sdiff outputs).size).map (outputs.size + 1 + ·)).Disjoint
      ((List.range outputs.size).map (1 + ·)) := fun s hs hs' => by
    obtain ⟨i, -, rfl⟩ := List.mem_map.1 hs
    obtain ⟨j, hj, heq⟩ := List.mem_map.1 hs'
    have hj := List.mem_range.1 hj
    omega
  obtain ⟨built, hbuilt, hfield, hdialect, hnSignals, -, -, hrenamed⟩ :=
    Circuit.exists_build (F := circuit.field) (by omega)
      (declarable_places (Nat.succ_pos _) hlength) (declarable_places Nat.one_pos (by omega)) hdisjoint
      fun c hc => @declarable_renamed circuit group inputs outputs hlt c hc
  refine ⟨⟨built, signalOrder circuit group inputs outputs, group⟩, ?_, rfl, rfl, hfield, hdialect,
    hnSignals, hrenamed⟩
  simp only [extract, mapM_signalMap_eq hkeys hlt hnodup, hbuilt, ok_bind]
  rfl

end Extract

namespace IsCut

variable {circuit : Circuit} {group : List Nat} {inputs outputs : SortedSet Signal} {sub : SubCircuit}
  {i k : Nat} {s : Signal} (h : IsCut circuit group inputs outputs sub)
include h

theorem isRenaming : IsRenaming (place sub.signals) := by
  rw [h.signals]
  exact isRenaming_place _

theorem mem_signals {c : Constraint} (hk : k ∈ group) (hc : circuit.constraints[k]? = some c)
    (hs : s ∈ c.signals) : s ∈ sub.signals := by
  rw [h.signals, mem_signalOrder]
  exact Or.inr (Or.inr (Or.inr ⟨k, hk, by rwa [hc]⟩))

theorem constant_mem_signals : constantSignal ∈ sub.signals := by
  rw [h.signals]
  exact List.mem_cons_self

theorem nConstraints_eq : sub.circuit.nConstraints = sub.constraints.length := by
  rw [Circuit.nConstraints, h.renamed, List.size_toArray, List.length_map, h.constraints]

/-- A sub-circuit of a proper circuit is proper. -/
theorem isProper (hcircuit : circuit.IsProper) (hlt : ∀ k ∈ group, k < circuit.nConstraints) :
    sub.circuit.IsProper where
  prime := h.field ▸ hcircuit.prime
  reduced c hc := by
    rw [h.renamed, List.mem_map] at hc
    obtain ⟨k, hk, rfl⟩ := hc
    have hreduced := hcircuit.reduced.constraint (Array.getElem?_eq_getElem (hlt k hk))
    rw [Array.getElem?_eq_getElem (hlt k hk), h.field]
    exact hreduced.rename h.isRenaming

/-- The constraints of the sub-circuit are those of the group in their order. -/
theorem getElem?_constraints {c : Constraint} (hi : sub.constraints[i]? = some k)
    (hc : circuit.constraints[k]? = some c) :
    sub.circuit.constraints[i]? = some (c.rename (place sub.signals)) := by
  rw [h.constraints] at hi
  rw [h.renamed, List.getElem?_toArray, List.getElem?_map, hi, Option.map_some, hc]
  rfl

/-- Renaming back through the list of signals restores a constraint. -/
theorem signalMap_originalSignal (hkeys : circuit.HasProperKeys) {c : Constraint} (hk : k ∈ group)
    (hc : circuit.constraints[k]? = some c) :
    (c.rename (place sub.signals)).signalMap sub.originalSignal = .ok c := by
  have hproper := hkeys.constraint hc
  have hback : ∀ s ∈ c.signals, sub.originalSignal (place sub.signals s) = s := fun s hs => by
    rw [originalSignal, getElem?_place (h.mem_signals hk hc hs)]
    rfl
  refine Constraint.signalMap_eq_ok_iff.2 ⟨fun t ht => ?_, fun t ht u hu heq => ?_, ?_⟩
  · obtain ⟨s, hs, rfl⟩ := (Constraint.mem_signals_rename h.isRenaming).1 ht
    rw [hback s hs]
    exact hproper.ne_constant_of_mem_signals hs
  · obtain ⟨s, hs, rfl⟩ := (Constraint.mem_signals_rename h.isRenaming).1 ht
    obtain ⟨r, hr, rfl⟩ := (Constraint.mem_signals_rename h.isRenaming).1 hu
    rw [hback s hs, hback r hr] at heq
    rw [heq]
  · refine (Constraint.rename_rename hproper (fun s hs => ?_) ?_).symm
    · have hne := h.isRenaming.ne_constant (hproper.ne_constant_of_mem_signals hs)
      rw [if_neg hne, hback s hs]
    · rw [h.isRenaming.constant, if_pos rfl]

/-- Values satisfy the sub-circuit exactly if they satisfy the constraints of the group. -/
theorem isSatisfied_iff (hkeys : circuit.HasProperKeys) (hlt : ∀ k ∈ group, k < circuit.nConstraints)
    {values : List Nat} (hvalues : values.length = circuit.nSignals) :
    sub.circuit.isSatisfied (sub.signals.map fun s => values.getD s 0) = true ↔
      ∀ k ∈ group, ∀ c, circuit.constraints[k]? = some c →
        c.isSatisfied circuit.field values = true := by
  have hmoved : ∀ k ∈ group, ∀ c, circuit.constraints[k]? = some c →
      (c.rename (place sub.signals)).isSatisfied circuit.field
        (sub.signals.map fun s => values.getD s 0) = c.isSatisfied circuit.field values := by
    intro k hk c hc
    refine Constraint.isSatisfied_rename (hkeys.constraint hc) h.isRenaming fun s hs => ?_
    have hmem : s ∈ sub.signals := hs.elim (fun hs => hs ▸ h.constant_mem_signals)
      fun hs => h.mem_signals hk hc hs
    have hs : s < circuit.nSignals := hs.elim (fun hs => hs ▸ circuit.nSignals_pos)
      fun hs => Circuit.lt_nSignals_of_mem_signals hc hs
    refine ⟨hvalues ▸ hs, by rw [List.length_map]; exact place_lt hmem, ?_⟩
    simp [getElem?_place hmem]
  rw [Circuit.isSatisfied, h.renamed, h.field, List.all_toArray, List.all_map, List.all_eq_true]
  refine forall₂_congr fun k hk => ?_
  have hc := Array.getElem?_eq_getElem (hlt k hk)
  rw [Function.comp_apply, hc, Option.getD_some, hmoved k hk _ hc]
  simp

end IsCut

end SubCircuit

/-! ## Nodes -/

namespace Dag

/-- A sub-circuit of a node lists the constant signal, the outputs, the inputs that are no outputs, and
the other signals of the node, once each, and its constraints are those of the node in other names. -/
structure IsFaithful (d : Dag) (id : NodeId) (sub : SubCircuit) : Prop where
  nodup : sub.signals.Nodup
  signals_eq : sub.signals = constantSignal :: ((d.node id).outputs.toList ++
    ((d.node id).inputs.sdiff (d.node id).outputs).toList ++
    (((d.node id).signals.sdiff (d.node id).inputs).sdiff (d.node id).outputs).toList)
  signals_lt : ∀ s ∈ sub.signals, s < d.circuit.nSignals
  constraints_eq : sub.constraints = (d.node id).constraints
  nConstraints_eq : sub.circuit.nConstraints = sub.constraints.length
  /-- Renaming back gives the constraint of the circuit. -/
  restored : ∀ i k : Nat, sub.constraints[i]? = some k → ∃ c c' : Constraint,
    d.circuit.constraints[k]? = some c ∧ sub.circuit.constraints[i]? = some c' ∧
      c'.signalMap sub.originalSignal = .ok c

namespace IsWellFormed

variable {d : Dag} {id : NodeId} (h : d.IsWellFormed) (hkeys : d.circuit.HasProperKeys)
include h hkeys

/-- Every live node can be cut out. -/
theorem exists_subCircuit (hid : id ∈ d.live) : ∃ sub, d.subCircuit id = .ok sub ∧
    SubCircuit.IsCut d.circuit (d.node id).constraints (d.node id).inputs (d.node id).outputs sub := by
  have hconstant := h.constant_not_mem hkeys hid
  have hboundaries := h.boundaries id hid
  exact SubCircuit.exists_extract hkeys (fun k hk => h.lt_nConstraints hid hk)
    (fun hs => hconstant ((hboundaries.mem_inputs _).1 hs).1)
    fun hs => hconstant ((hboundaries.mem_outputs _).1 hs).1

theorem isFaithful (hid : id ∈ d.live) {sub : SubCircuit}
    (hcut : SubCircuit.IsCut d.circuit (d.node id).constraints (d.node id).inputs
      (d.node id).outputs sub) : d.IsFaithful id sub where
  nodup := by
    have hconstant := h.constant_not_mem hkeys hid
    have hboundaries := h.boundaries id hid
    rw [hcut.signals]
    exact SubCircuit.nodup_signalOrder (fun hs => hconstant ((hboundaries.mem_inputs _).1 hs).1)
      (fun hs => hconstant ((hboundaries.mem_outputs _).1 hs).1)
      fun k hk hs => hconstant ((h.mem_signals id hid _).2 ⟨k, hk, hs⟩)
  signals_eq := by
    have hused : SortedSet.ofList ((d.node id).constraints.flatMap fun k =>
        (d.circuit.constraints[k]?.getD default).signals.toList) = (d.node id).signals := by
      ext s
      rw [SortedSet.mem_ofList, List.mem_flatMap, h.mem_signals id hid]
      rfl
    rw [hcut.signals, SubCircuit.signalOrder, hused, List.cons_append, List.cons_append]
  signals_lt s hs := by
    have hnode : ∀ s ∈ (d.node id).signals, s < d.circuit.nSignals := fun s hs => by
      obtain ⟨k, hk, hs⟩ := (h.mem_signals id hid s).1 hs
      have hc := Array.getElem?_eq_getElem (h.lt_nConstraints hid hk)
      rw [hc] at hs
      exact Circuit.lt_nSignals_of_mem_signals hc hs
    rw [hcut.signals, SubCircuit.mem_signalOrder] at hs
    rcases hs with rfl | hs | hs | hs
    · exact d.circuit.nSignals_pos
    · exact hnode s (((h.boundaries id hid).mem_outputs s).1 hs).1
    · exact hnode s (((h.boundaries id hid).mem_inputs s).1 hs).1
    · exact hnode s ((h.mem_signals id hid s).2 hs)
  constraints_eq := hcut.constraints
  nConstraints_eq := hcut.nConstraints_eq
  restored i k hi := by
    have hk : k ∈ (d.node id).constraints := hcut.constraints ▸ List.mem_of_getElem? hi
    have hc := Array.getElem?_eq_getElem (h.lt_nConstraints hid hk)
    exact ⟨_, _, hc, hcut.getElem?_constraints hi hc, hcut.signalMap_originalSignal hkeys hk hc⟩

/-- Values satisfy the circuit exactly if they satisfy every node. -/
theorem isSatisfied_iff {values : List Nat} (hvalues : values.length = d.circuit.nSignals) :
    d.circuit.isSatisfied values = true ↔ ∀ id ∈ d.live, ∀ sub, d.subCircuit id = .ok sub →
      sub.circuit.isSatisfied (sub.signals.map fun s => values.getD s 0) = true := by
  have hnode : ∀ id ∈ d.live, ∀ sub, d.subCircuit id = .ok sub →
      (sub.circuit.isSatisfied (sub.signals.map fun s => values.getD s 0) = true ↔
        ∀ k ∈ (d.node id).constraints, ∀ c, d.circuit.constraints[k]? = some c →
          c.isSatisfied d.circuit.field values = true) := fun id hid sub hsub => by
    obtain ⟨sub', hsub', hcut⟩ := h.exists_subCircuit hkeys hid
    obtain rfl : sub' = sub := Except.ok.inj (hsub'.symm.trans hsub)
    exact hcut.isSatisfied_iff hkeys (fun k hk => h.lt_nConstraints hid hk) hvalues
  rw [Circuit.isSatisfied, Array.all_eq_true]
  constructor
  · intro hall id hid sub hsub
    refine (hnode id hid sub hsub).2 fun k hk c hc => ?_
    obtain ⟨hlt, rfl⟩ := Array.getElem?_eq_some_iff.1 hc
    exact hall k hlt
  · intro hall k hk
    obtain ⟨id, ⟨hid, hmem⟩, -⟩ := h.existsUnique_node hk
    obtain ⟨sub, hsub, -⟩ := h.exists_subCircuit hkeys hid
    exact (hnode id hid sub hsub).1 (hall id hid sub hsub) k hmem _ (Array.getElem?_eq_getElem hk)

end IsWellFormed

/-- Cutting the graph of a partition into the sub-circuits of its nodes, after any merges, loses nothing:
every live node can be cut out faithfully, and values satisfy the circuit exactly if those read off for
every node satisfy its sub-circuit. -/
theorem subCircuits_faithful (circuit : Circuit) (hkeys : circuit.HasProperKeys)
    (partition : Partition) (hsize : partition.size = circuit.nConstraints)
    (pairs : List (NodeId × NodeId)) :
    let d := (ofPartition circuit partition).tryMerges pairs
    d.circuit = circuit ∧
      (∀ id ∈ d.live, ∃ sub, d.subCircuit id = .ok sub ∧ d.IsFaithful id sub) ∧
      ∀ values : List Nat, values.length = circuit.nSignals →
        (circuit.isSatisfied values = true ↔ ∀ id ∈ d.live, ∀ sub, d.subCircuit id = .ok sub →
          sub.circuit.isSatisfied (sub.signals.map fun s => values.getD s 0) = true) := by
  intro d
  obtain ⟨h, hretires⟩ := (isWellFormed_ofPartition hsize).tryMerges pairs
  have hcircuit : d.circuit = circuit := hretires.circuit.trans circuit_ofPartition
  have hkeys' : d.circuit.HasProperKeys := hcircuit.symm ▸ hkeys
  refine ⟨hcircuit, fun id hid => ?_, fun values hvalues => ?_⟩
  · obtain ⟨sub, hsub, hcut⟩ := h.exists_subCircuit hkeys' hid
    exact ⟨sub, hsub, h.isFaithful hkeys' hid hcut⟩
  · have hiff := h.isSatisfied_iff hkeys' (hcircuit.symm ▸ hvalues)
    rwa [hcircuit] at hiff

open Sample in
/-- The chain of four squarings after merging its middle is satisfied by the powers of 3 modulo 7 exactly
if its three nodes are. -/
theorem subCircuits_faithful_chain : chain.HasProperKeys ∧ singletons.size = chain.nConstraints ∧
    [1, 3, 2, 4, 2, 4].length = chain.nSignals ∧
    let d := (ofPartition chain singletons).tryMerges [(1, 2)]
    d.circuit = chain ∧
      (∀ id ∈ d.live, ∃ sub, d.subCircuit id = .ok sub ∧ d.IsFaithful id sub) ∧
      (chain.isSatisfied [1, 3, 2, 4, 2, 4] = true ↔
        ∀ id ∈ d.live, ∀ sub, d.subCircuit id = .ok sub → sub.circuit.isSatisfied
          (sub.signals.map fun s => [1, 3, 2, 4, 2, 4].getD s 0) = true) := by
  obtain ⟨hcircuit, hcut, hsatisfied⟩ :=
    subCircuits_faithful chain (by decide) singletons rfl [(1, 2)]
  exact ⟨by decide, rfl, rfl, hcircuit, hcut, hsatisfied [1, 3, 2, 4, 2, 4] rfl⟩

end Dag

end CircuitEquiv
