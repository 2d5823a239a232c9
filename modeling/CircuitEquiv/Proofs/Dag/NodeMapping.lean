-- SUMMARY: A mapping between the sub-circuits of two nodes, put into the numbering of the circuit, is a bijection between the nodes.
import CircuitEquiv.Proofs.Circuit.Roles
import CircuitEquiv.Proofs.Constraint.Matching
import CircuitEquiv.Proofs.Dag.SubCircuit

/-!
# Mappings between nodes

A sub-circuit numbers the signals and constraints of its node: the numbers stand one to one for what the
node has in the circuit, roles are kept, and constraints match their originals. So a full equivalence of two
sub-circuits, both ends of it put back into the numbering of the circuit, is a bijection between the signals
and the constraints of the nodes that keeps inputs and outputs, and constraints match their images.
-/

namespace CircuitEquiv

/-! ## Renumbering maps -/

namespace Mapping

/-- A map with its keys and its values renumbered. -/
def renumber (f g : Nat → Nat) (e : SortedMap Nat Nat) : SortedMap Nat Nat :=
  SortedMap.ofList (e.entries.map fun (l, r) => (f l, g r))

variable {e : SortedMap Nat Nat} {f g : Nat → Nat} {n n' k d d' : Nat} {S T : Set Nat}

theorem get?_renumber (hf : Set.InjOn f {k | k ∈ e.keys}) {x y : Nat} :
    (renumber f g e).get? x = some y ↔ ∃ k v, e.get? k = some v ∧ f k = x ∧ g v = y := by
  have hkeys : (e.entries.map fun (l, r) => (f l, g r)).map (·.1) = e.keys.map f := by
    rw [SortedMap.keys, List.map_map, List.map_map]
    rfl
  have hnodup : ((e.entries.map fun (l, r) => (f l, g r)).map (·.1)).Nodup :=
    hkeys ▸ e.nodup_keys.map_on hf
  rw [renumber, SortedMap.get?_ofList_of_nodup hnodup]
  simp [SortedMap.get?_eq_some_iff]

section Range

variable (hkeys : e.keys = List.range n)
include hkeys

theorem getD_renumber (hf : Set.InjOn f (Set.Iio n)) (hk : k < n) :
    (renumber f g e).getD (f k) d' = g (e.getD k d) := by
  have hf' : Set.InjOn f {k | k ∈ e.keys} := by
    simpa [hkeys, Set.InjOn] using hf
  have hget : e.get? k = some (e.getD k d) := by
    obtain ⟨v, hv⟩ := SortedMap.mem_keys_iff.1 (hkeys ▸ List.mem_range.2 hk)
    rw [SortedMap.getD, hv, Option.getD_some]
  rw [SortedMap.getD, (get?_renumber hf').2 ⟨k, _, hget, rfl, rfl⟩, Option.getD_some]

theorem mem_keys_renumber (hf : Set.BijOn f (Set.Iio n) S) {x : Nat} :
    x ∈ (renumber f g e).keys ↔ x ∈ S := by
  rw [renumber, SortedMap.mem_keys_ofList, List.map_map, ← hf.image_eq]
  have hentries : e.entries.map ((·.1) ∘ fun (l, r) => (f l, g r)) = e.keys.map f := by
    rw [SortedMap.keys, List.map_map]
    rfl
  rw [hentries, hkeys]
  simp

theorem bijOn_renumber (hf : Set.BijOn f (Set.Iio n) S) (hg : Set.BijOn g (Set.Iio n') T)
    (he : Set.BijOn (fun k => e.getD k d) (Set.Iio n) (Set.Iio n')) :
    Set.BijOn (fun x => (renumber f g e).getD x d') S T := by
  rw [← hf.image_eq, ← Set.bijOn_comp_iff hf.injOn]
  exact (hg.comp he).congr fun k hk => (getD_renumber hkeys hf.injOn hk).symm

end Range

end Mapping

/-! ## Numbers for the signals and constraints of a node -/

theorem bijOn_getD {l : List Nat} (h : l.Nodup) (d : Nat) :
    Set.BijOn (fun i => l[i]?.getD d) (Set.Iio l.length) {x | x ∈ l} := by
  refine ⟨fun i hi => ?_, fun i hi j hj heq => ?_, fun x hx => ?_⟩
  · show l[i]?.getD d ∈ l
    rw [List.getElem?_eq_getElem hi]
    exact List.getElem_mem _
  · simp only [List.getElem?_eq_getElem hi, List.getElem?_eq_getElem hj, Option.getD_some] at heq
    exact (h.getElem_inj_iff).1 heq
  · obtain ⟨i, hi, rfl⟩ := List.getElem_of_mem hx
    exact ⟨i, hi, by simp [hi]⟩

/-- What stands in the middle part of a list without repetitions. -/
theorem mem_middle_iff {α : Type} {x y z : List α} (h : (x ++ y ++ z).Nodup) {i : Nat} {a : α}
    (hi : (x ++ y ++ z)[i]? = some a) : a ∈ y ↔ x.length ≤ i ∧ i < x.length + y.length := by
  constructor
  · intro ha
    obtain ⟨j, hj, rfl⟩ := List.getElem_of_mem ha
    have hplace : (x ++ y ++ z)[x.length + j]? = some y[j] := by
      simp [List.append_assoc, List.getElem?_append_right, List.getElem?_append_left, hj]
    have hlt := (List.getElem?_eq_some_iff.1 hi).1
    obtain rfl : i = x.length + j := (List.getElem?_inj hlt h).1 (hi.trans hplace.symm)
    omega
  · rintro ⟨hle, hlt⟩
    rw [List.append_assoc, List.getElem?_append_right hle,
      List.getElem?_append_left (by omega)] at hi
    exact List.mem_of_getElem? hi

theorem mem_map_add_range {a n s : Nat} :
    s ∈ (List.range n).map (a + ·) ↔ a ≤ s ∧ s < a + n := by
  simp only [List.mem_map, List.mem_range]
  constructor
  · rintro ⟨i, hi, rfl⟩
    omega
  · exact fun hs => ⟨s - a, by omega, by omega⟩

theorem Circuit.roles_of_build {F : PrimeField} {dialect : Dialect} {nSignals? : Option Nat}
    {inputs outputs : List Signal} {constraints : List Constraint} {circuit : Circuit}
    (h : build F dialect nSignals? inputs outputs constraints = .ok circuit) :
    circuit.inputs = .ofList inputs ∧ circuit.outputs = .ofList outputs := by
  unfold build at h
  simp only at h
  split at h
  · cases h
  split at h
  · cases h
  split at h
  · cases h
  split at h
  · cases h
  cases h
  exact ⟨rfl, rfl⟩

namespace SubCircuit

variable {circuit : Circuit} {group : List Nat} {inputs outputs : SortedSet Signal} {sub : SubCircuit}
  {s : Nat}

theorem roles_of_extract (h : extract circuit group inputs outputs = .ok sub) :
    sub.circuit.inputs =
        .ofList ((List.range (inputs.sdiff outputs).size).map (outputs.size + 1 + ·)) ∧
      sub.circuit.outputs = .ofList ((List.range outputs.size).map (1 + ·)) := by
  obtain ⟨renamed, -, h⟩ := bind_eq_ok_iff.1 h
  obtain ⟨built, hbuilt, h⟩ := bind_eq_ok_iff.1 h
  cases h
  exact Circuit.roles_of_build hbuilt

namespace IsCut

variable (h : IsCut circuit group inputs outputs sub) (hnodup : sub.signals.Nodup)
include h hnodup

theorem originalSignal_mem_outputs_iff (hs : s < sub.circuit.nSignals) :
    sub.originalSignal s ∈ outputs ↔ 1 ≤ s ∧ s < 1 + outputs.size := by
  rw [h.nSignals] at hs
  have hget : sub.signals[s]? = some (sub.originalSignal s) := by
    rw [originalSignal, List.getElem?_eq_getElem hs, Option.getD_some]
  rw [h.signals, signalOrder, List.append_assoc] at hnodup hget
  exact mem_middle_iff (x := [constantSignal]) (y := outputs.toList) hnodup hget

theorem originalSignal_mem_inputs_iff (hs : s < sub.circuit.nSignals) :
    sub.originalSignal s ∈ inputs.sdiff outputs ↔
      outputs.size + 1 ≤ s ∧ s < outputs.size + 1 + (inputs.sdiff outputs).size := by
  rw [h.nSignals] at hs
  have hget : sub.signals[s]? = some (sub.originalSignal s) := by
    rw [originalSignal, List.getElem?_eq_getElem hs, Option.getD_some]
  rw [h.signals, signalOrder] at hnodup hget
  exact mem_middle_iff (x := constantSignal :: outputs.toList) hnodup hget

end IsCut

end SubCircuit

namespace Dag

variable {d : Dag} {a b id : NodeId} {l r sub : SubCircuit} {m : Mapping}

/-- The numbers of a sub-circuit stand for the signals and constraints of the node: one to one, with their
roles, and so that constraints match their originals. -/
structure IsNumbering (d : Dag) (id : NodeId) (sub : SubCircuit) : Prop where
  proper : sub.circuit.IsProper
  field : sub.circuit.field = d.circuit.field
  signals : Set.BijOn sub.originalSignal (Set.Iio sub.circuit.nSignals)
    (insert constantSignal {s | s ∈ (d.node id).signals})
  constant : sub.originalSignal constantSignal = constantSignal
  outputs : ∀ s < sub.circuit.nSignals,
    s ∈ sub.circuit.outputs ↔ sub.originalSignal s ∈ (d.node id).outputs
  inputs : ∀ s < sub.circuit.nSignals,
    s ∈ sub.circuit.inputs ↔ sub.originalSignal s ∈ (d.node id).inputs.sdiff (d.node id).outputs
  constraints : Set.BijOn sub.originalConstraint (Set.Iio sub.circuit.nConstraints)
    {k | k ∈ (d.node id).constraints}
  original : ∀ i c, sub.circuit.constraints[i]? = some c → ∃ c',
    d.circuit.constraints[sub.originalConstraint i]? = some c' ∧
      c.MatchesUnder d.circuit.field sub.originalSignal c'

theorem IsWellFormed.isNumbering (h : d.IsWellFormed) (hproper : d.circuit.IsProper)
    (hid : id ∈ d.live) (hsub : d.subCircuit id = .ok sub) : d.IsNumbering id sub := by
  have : Fact d.circuit.field.modulus.Prime := ⟨hproper.prime⟩
  have hkeys := hproper.reduced.hasProperKeys
  obtain ⟨sub', hsub', hcut⟩ := h.exists_subCircuit hkeys hid
  obtain rfl : sub' = sub := Except.ok.inj (hsub'.symm.trans hsub)
  have hfaithful := h.isFaithful hkeys hid hcut
  obtain ⟨hinputs, houtputs⟩ := SubCircuit.roles_of_extract hsub
  have hboundaries := h.boundaries id hid
  have hmem : ∀ s, s ∈ sub'.signals ↔ s = constantSignal ∨ s ∈ (d.node id).signals := fun s => by
    rw [hcut.signals, SubCircuit.mem_signalOrder, hboundaries.mem_outputs, hboundaries.mem_inputs,
      h.mem_signals id hid]
    tauto
  have hconstraints := (List.nodup_flatMap.1 h.nodup_constraints).1 id hid
  refine ⟨hcut.isProper hproper fun k hk => h.lt_nConstraints hid hk, hcut.field, ?_, ?_,
    fun s hs => ?_, fun s hs => ?_, ?_, fun i c' hi => ?_⟩
  · have hlisted : {s | s ∈ sub'.signals} = insert constantSignal {s | s ∈ (d.node id).signals} :=
      Set.ext fun s => hmem s
    rw [← hlisted, hcut.nSignals]
    exact bijOn_getD hfaithful.nodup constantSignal
  · rw [SubCircuit.originalSignal, hcut.signals]
    rfl
  · rw [hcut.originalSignal_mem_outputs_iff hfaithful.nodup hs, houtputs, SortedSet.mem_ofList,
      mem_map_add_range]
  · rw [hcut.originalSignal_mem_inputs_iff hfaithful.nodup hs, hinputs, SortedSet.mem_ofList,
      mem_map_add_range]
  · rw [hcut.nConstraints_eq, ← hcut.constraints]
    exact bijOn_getD (hcut.constraints ▸ hconstraints) 0
  · have hlt : i < sub'.constraints.length := hcut.nConstraints_eq ▸ Circuit.lt_nConstraints hi
    have hget : sub'.constraints[i]? = some (sub'.originalConstraint i) := by
      rw [SubCircuit.originalConstraint, List.getElem?_eq_getElem hlt, Option.getD_some]
    obtain ⟨c, c'', hc, hc'', hback⟩ := hfaithful.restored i _ hget
    rw [hi, Option.some_inj] at hc''
    subst hc''
    have hreduced := (hproper.reduced.constraint hc).coefficients
    exact ⟨c, hc, c, hback,
      (Constraint.isScalarMultipleOf_iff_isRescaling hreduced hreduced).2 (.refl hreduced)⟩

/-! ## Mappings between nodes -/

/-- A mapping leads from one node to another: a bijection of their constraints and one of their signals,
the constant signal with them, that keeps the constant signal, the outputs, and the inputs that are no
outputs, and under which every constraint matches its image. -/
structure IsNodeMapping (d : Dag) (a b : NodeId) (m : Mapping) : Prop where
  constraints_keys : ∀ k, k ∈ m.constraints.keys ↔ k ∈ (d.node a).constraints
  constraints : Set.BijOn (fun k => m.constraints.getD k 0) {k | k ∈ (d.node a).constraints}
    {k | k ∈ (d.node b).constraints}
  signals_keys : ∀ s, s ∈ m.signals.keys ↔ s = constantSignal ∨ s ∈ (d.node a).signals
  signals : Set.BijOn (fun s => m.signals.getD s constantSignal)
    (insert constantSignal {s | s ∈ (d.node a).signals})
    (insert constantSignal {s | s ∈ (d.node b).signals})
  constant : m.signals.getD constantSignal constantSignal = constantSignal
  outputs : (fun s => m.signals.getD s constantSignal) '' {s | s ∈ (d.node a).outputs} =
    {s | s ∈ (d.node b).outputs}
  inputs : (fun s => m.signals.getD s constantSignal) ''
      {s | s ∈ (d.node a).inputs.sdiff (d.node a).outputs} =
    {s | s ∈ (d.node b).inputs.sdiff (d.node b).outputs}
  constraint : ∀ k ∈ (d.node a).constraints, ∃ c c', d.circuit.constraints[k]? = some c ∧
    d.circuit.constraints[m.constraints.getD k 0]? = some c' ∧
    c.MatchesUnder d.circuit.field (fun s => m.signals.getD s constantSignal) c'

theorem image_eq_of_bijOn {g : Nat → Nat} {S T A B : Set Nat} (h : Set.BijOn g S T) (hA : A ⊆ S)
    (hB : B ⊆ T) (hiff : ∀ s ∈ S, g s ∈ B ↔ s ∈ A) : g '' A = B := by
  ext t
  constructor
  · rintro ⟨s, hs, rfl⟩
    exact (hiff s (hA hs)).2 hs
  · intro ht
    obtain ⟨s, hs, rfl⟩ := h.surjOn (hB ht)
    exact ⟨s, (hiff s hs).1 ht, rfl⟩

theorem HasBoundaries.outputs_subset (h : d.HasBoundaries id) :
    {s | s ∈ (d.node id).outputs} ⊆ insert constantSignal {s | s ∈ (d.node id).signals} :=
  fun s hs => Or.inr ((h.mem_outputs s).1 hs).1

theorem HasBoundaries.inputs_subset (h : d.HasBoundaries id) :
    {s | s ∈ (d.node id).inputs.sdiff (d.node id).outputs} ⊆
      insert constantSignal {s | s ∈ (d.node id).signals} :=
  fun s hs => Or.inr ((h.mem_inputs s).1 (SortedSet.mem_filter.1 hs).1).1

section Undo

variable (hl : d.IsNumbering a l) (hr : d.IsNumbering b r)
  (hm : m.IsFullEquivalence l.circuit r.circuit)
include hl hr hm

omit hr in
/-- A signal goes where the mapping sends its number. -/
theorem IsNumbering.getD_undoMapping {s : Nat} (hs : s < l.circuit.nSignals) :
    (l.undoMapping r m).signals.getD (l.originalSignal s) constantSignal =
      r.originalSignal (m.signals.getD s constantSignal) :=
  Mapping.getD_renumber hm.signals_keys hl.signals.injOn hs

/-- A constraint matches the constraint that its number is mapped to. -/
theorem IsNumbering.matchesUnder_undoMapping (hproper : d.circuit.IsProper) {k : Nat}
    (hk : k ∈ (d.node a).constraints) : ∃ c c', d.circuit.constraints[k]? = some c ∧
      d.circuit.constraints[(l.undoMapping r m).constraints.getD k 0]? = some c' ∧
      c.MatchesUnder d.circuit.field (fun s => (l.undoMapping r m).signals.getD s constantSignal) c' := by
  have : Fact d.circuit.field.modulus.Prime := ⟨hproper.prime⟩
  obtain ⟨i, hi, rfl⟩ := hl.constraints.surjOn hk
  obtain ⟨n, hn⟩ := Circuit.exists_constraint hi
  obtain ⟨c, hc, horiginal⟩ := hl.original i n hn
  obtain ⟨renamed, n', hrenamed, hn', hmultiple⟩ := hm.acts.scalarMultiple i n hn
  have hnumbers : n.MatchesUnder d.circuit.field (fun s => m.signals.getD s constantSignal) n' :=
    hl.field ▸ ⟨renamed, hrenamed, hmultiple⟩
  obtain ⟨c', hc', horiginal'⟩ := hr.original _ n' hn'
  have hreduced := hl.field ▸ hl.proper.reduced.constraint hn
  have hreduced' := hr.field ▸ hr.proper.reduced.constraint hn'
  have hlt : ∀ s ∈ n.signals, s < l.circuit.nSignals := fun s hs =>
    Circuit.lt_nSignals_of_mem_signals hn hs
  -- from the original to its number, along the mapping, and back to an original
  let number := Function.invFunOn l.originalSignal (Set.Iio l.circuit.nSignals)
  have hnumber : ∀ s ∈ n.signals, number (l.originalSignal s) = s := fun s hs =>
    hl.signals.invOn_invFunOn.1 (hlt s hs)
  have hmatch := ((horiginal.symm hreduced (hproper.reduced.constraint hc) hnumber).trans hnumbers
    (hproper.reduced.constraint hc) hreduced hreduced').trans horiginal'
    (hproper.reduced.constraint hc) hreduced' (hproper.reduced.constraint hc')
  have himage : (l.undoMapping r m).constraints.getD (l.originalConstraint i) 0 =
      r.originalConstraint (m.constraints.getD i 0) :=
    Mapping.getD_renumber hm.constraints_keys hl.constraints.injOn hi
  refine ⟨c, c', hc, by rw [himage, hc'], hmatch.congr fun s hs => ?_⟩
  obtain ⟨t, ht, rfl⟩ := (horiginal.mem_signals hreduced (hproper.reduced.constraint hc)).1 hs
  rw [hl.getD_undoMapping hm (hlt t ht), Function.comp_apply, Function.comp_apply, hnumber t ht]

/-- A full equivalence of the sub-circuits of two nodes, put into the numbering of the circuit, leads from
the one node to the other. -/
theorem IsNumbering.isNodeMapping (hproper : d.circuit.IsProper) (ha : d.HasBoundaries a)
    (hb : d.HasBoundaries b) : d.IsNodeMapping a b (l.undoMapping r m) := by
  have hsignals : Set.BijOn (fun s => (l.undoMapping r m).signals.getD s constantSignal) _ _ :=
    Mapping.bijOn_renumber hm.signals_keys hl.signals hr.signals hm.acts.signals
  have hrole : ∀ s < l.circuit.nSignals, m.signals.getD s constantSignal < r.circuit.nSignals ∧
      r.circuit.role (m.signals.getD s constantSignal) = l.circuit.role s := fun s hs =>
    ⟨hm.acts.signals.mapsTo hs, hm.acts.role s hs⟩
  constructor
  case constraints_keys => exact fun k => Mapping.mem_keys_renumber hm.constraints_keys hl.constraints
  case constraints =>
    exact Mapping.bijOn_renumber hm.constraints_keys hl.constraints hr.constraints hm.acts.constraints
  case signals_keys => exact fun s => Mapping.mem_keys_renumber hm.signals_keys hl.signals
  case signals => exact hsignals
  case constant =>
    have hnumber : m.signals.getD constantSignal constantSignal = constantSignal := hm.acts.constant
    have hconstant := hl.getD_undoMapping hm l.circuit.nSignals_pos
    rwa [← constantSignal, hl.constant, hnumber, hr.constant] at hconstant
  case outputs =>
    refine image_eq_of_bijOn hsignals ha.outputs_subset hb.outputs_subset fun s hs => ?_
    obtain ⟨t, ht, rfl⟩ := hl.signals.surjOn hs
    obtain ⟨hlt, hrole⟩ := hrole t ht
    show _ ∈ (d.node b).outputs ↔ _ ∈ (d.node a).outputs
    rw [hl.getD_undoMapping hm ht, ← hr.outputs _ hlt, ← hl.outputs t ht,
      ← Circuit.role_eq_output_iff, hrole, Circuit.role_eq_output_iff]
  case inputs =>
    refine image_eq_of_bijOn hsignals ha.inputs_subset hb.inputs_subset fun s hs => ?_
    obtain ⟨t, ht, rfl⟩ := hl.signals.surjOn hs
    obtain ⟨hlt, hrole⟩ := hrole t ht
    show _ ∈ (d.node b).inputs.sdiff _ ↔ _ ∈ (d.node a).inputs.sdiff _
    rw [hl.getD_undoMapping hm ht, ← hr.inputs _ hlt, ← hl.inputs t ht,
      ← Circuit.role_eq_input_iff, hrole, Circuit.role_eq_input_iff]
  case constraint => exact fun k hk => hl.matchesUnder_undoMapping hr hm hproper hk

end Undo

end Dag

end CircuitEquiv
