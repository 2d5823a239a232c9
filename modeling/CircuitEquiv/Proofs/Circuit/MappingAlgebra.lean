-- SUMMARY: What the check of a mapping establishes for circuits of any sizes, and the inverse and the composition of mappings that pass it.
import CircuitEquiv.Proofs.Circuit.Sanity
import CircuitEquiv.Proofs.Circuit.Composition

/-!
# The algebra of mappings

The check of a mapping accepts the embeddings of the left circuit into the right one. The right circuit may
have more signals and constraints, and then the inverse mapping does not pass. Embeddings compose, and
those of circuits of one size have inverses, so they form a groupoid.
-/

namespace CircuitEquiv

theorem bijOn_Iio_iff {f : Nat → Nat} {n m : Nat} (hmaps : Set.MapsTo f (Set.Iio n) (Set.Iio m))
    (hinj : Set.InjOn f (Set.Iio n)) : Set.BijOn f (Set.Iio n) (Set.Iio m) ↔ n = m := by
  refine ⟨eq_of_bijOn_Iio, ?_⟩
  rintro rfl
  exact bijOn_Iio_of_injOn hmaps hinj

theorem le_of_mapsTo_Iio {f : Nat → Nat} {n m : Nat} (hmaps : Set.MapsTo f (Set.Iio n) (Set.Iio m))
    (hinj : Set.InjOn f (Set.Iio n)) : n ≤ m := by
  have hcard := Finset.card_le_card_of_injOn (s := Finset.range n) (t := Finset.range m) f
    (by simpa [Set.MapsTo] using hmaps) (by simpa using hinj)
  simpa using hcard

namespace Mapping

/-! ## Maps of numbers -/

section Maps

variable {e f : SortedMap Nat Nat} {k k' v : Nat}

theorem eq_of_get?_eq (h : e.values.Nodup) (hk : e.get? k = some v) (hk' : e.get? k' = some v) :
    k = k' := by
  have hkey := List.inj_on_of_nodup_map h (SortedMap.get?_eq_some_iff.1 hk)
    (SortedMap.get?_eq_some_iff.1 hk') rfl
  exact congrArg Prod.fst hkey

theorem nodup_values_of_forall (h : ∀ k k' v, e.get? k = some v → e.get? k' = some v → k = k') :
    e.values.Nodup := by
  refine List.Nodup.map_on (fun x hx y hy heq => ?_) e.nodup_entries
  obtain ⟨k, v⟩ := x
  obtain ⟨k', v'⟩ := y
  obtain rfl : v = v' := heq
  rw [h k k' v (SortedMap.get?_eq_some_iff.2 hx) (SortedMap.get?_eq_some_iff.2 hy)]

/-- Turned round, a map sends every image back. -/
theorem get?_inverseMap (h : e.values.Nodup) : (inverseMap e).get? v = some k ↔ e.get? k = some v := by
  rw [inverseMap, SortedMap.get?_ofList_of_nodup, SortedMap.get?_eq_some_iff]
  · simp
  · rw [List.map_map]
    exact h

theorem nodup_values_inverseMap (h : e.values.Nodup) : (inverseMap e).values.Nodup := by
  refine nodup_values_of_forall fun v v' k hv hv' => ?_
  rw [get?_inverseMap h] at hv hv'
  exact Option.some_inj.1 (hv.symm.trans hv')

theorem inverseMap_inverseMap (h : e.values.Nodup) : inverseMap (inverseMap e) = e := by
  refine SortedMap.ext_get? fun k => Option.ext fun v => ?_
  rw [get?_inverseMap (nodup_values_inverseMap h), get?_inverseMap h]

/-- One map after the other looks up twice. -/
theorem get?_composeMaps : (composeMaps e f).get? k = (e.get? k).bind f.get? := by
  refine Option.ext fun v => ?_
  rw [composeMaps, SortedMap.get?_ofList_of_nodup, Option.bind_eq_some_iff]
  · simp [SortedMap.get?_eq_some_iff]
  · -- The keys that stay are in the order of `e`, so they are distinct.
    rw [List.Nodup, List.pairwise_map, List.pairwise_filterMap]
    refine e.sorted.imp fun {x y} hxy a ha b hb => ?_
    obtain ⟨r, -, rfl⟩ := Option.map_eq_some_iff.1 ha
    obtain ⟨r', -, rfl⟩ := Option.map_eq_some_iff.1 hb
    exact ne_of_compare_lt hxy

theorem get?_composeMaps_eq_some_iff :
    (composeMaps e f).get? k = some v ↔ ∃ x, e.get? k = some x ∧ f.get? x = some v := by
  rw [get?_composeMaps, Option.bind_eq_some_iff]

theorem nodup_values_composeMaps (he : e.values.Nodup) (hf : f.values.Nodup) :
    (composeMaps e f).values.Nodup := by
  refine nodup_values_of_forall fun k k' v hk hk' => ?_
  obtain ⟨x, hx, hv⟩ := get?_composeMaps_eq_some_iff.1 hk
  obtain ⟨x', hx', hv'⟩ := get?_composeMaps_eq_some_iff.1 hk'
  exact eq_of_get?_eq he hx (eq_of_get?_eq hf hv hv' ▸ hx')

/-- The inverse of a composition is the composition of the inverses in the other order. -/
theorem inverseMap_composeMaps (he : e.values.Nodup) (hf : f.values.Nodup) :
    inverseMap (composeMaps e f) = composeMaps (inverseMap f) (inverseMap e) := by
  refine SortedMap.ext_get? fun v => Option.ext fun k => ?_
  rw [get?_inverseMap (nodup_values_composeMaps he hf), get?_composeMaps_eq_some_iff,
    get?_composeMaps_eq_some_iff]
  simp only [get?_inverseMap he, get?_inverseMap hf, and_comm]

/-- A map followed by its inverse keeps every key. -/
theorem composeMaps_inverseMap {n : Nat} (h : e.values.Nodup) (hkeys : e.keys = List.range n) :
    composeMaps e (inverseMap e) = SortedMap.ofList ((List.range n).map fun k => (k, id k)) := by
  refine SortedMap.ext_get? fun k => Option.ext fun k' => ?_
  rw [get?_ofList_range, get?_composeMaps_eq_some_iff]
  simp only [get?_inverseMap h]
  constructor
  · rintro ⟨v, hk, hk'⟩
    rw [if_pos ((keys_eq_range_iff.1 hkeys k).1 ⟨v, hk⟩), eq_of_get?_eq h hk hk']
    rfl
  · intro hk'
    split at hk'
    · rename_i hk
      obtain ⟨v, hv⟩ := (keys_eq_range_iff.1 hkeys k).2 hk
      exact ⟨v, hv, Option.some_inj.1 hk' ▸ hv⟩
    · cases hk'

end Maps

/-! ## Embeddings -/

/-- What the check of a mapping establishes: the signals and constraints of the left circuit have distinct
images in the right one, signals of the same role, and every constraint matches its image. -/
structure Embeds (left right : Circuit) (m : Mapping) : Prop where
  signal : ∀ s < left.nSignals, ∃ t, m.signals.get? s = some t ∧ t < right.nSignals ∧
    left.role s = right.role t
  signals_nodup : m.signals.values.Nodup
  constraints_keys : m.constraints.keys = List.range left.nConstraints
  constraints_nodup : m.constraints.values.Nodup
  constraint : ∀ k j, m.constraints.get? k = some j → ∃ c d, left.constraints[k]? = some c ∧
    right.constraints[j]? = some d ∧
    c.MatchesUnder left.field (fun s => m.signals.getD s constantSignal) d

theorem sanityCheck_eq_ok_iff_embeds {left right : Circuit} {m : Mapping} :
    m.sanityCheck left right = .ok () ↔ m.Embeds left right := by
  rw [sanityCheck_eq_ok_iff]
  constructor
  · rintro ⟨hsignal, hmapped, hvalues, hvalues', hconstraint⟩
    have hmatch : ∀ k j, m.constraints.get? k = some j → ∃ c d, left.constraints[k]? = some c ∧
        right.constraints[j]? = some d ∧
        c.MatchesUnder left.field (fun s => m.signals.getD s constantSignal) d := fun k j hj => by
      obtain ⟨c, d, renamed, hc, hd, -, hrenamed, hmultiple⟩ :=
        checkConstraint_eq_ok_iff.1 (hconstraint (k, j) (SortedMap.get?_eq_some_iff.1 hj))
      exact ⟨c, d, hc, hd, renamed, hrenamed, hmultiple⟩
    refine ⟨fun s hs => checkSignal_eq_ok_iff.1 (hsignal s hs), hvalues,
      keys_eq_range_iff.2 fun k => ⟨fun ⟨j, hj⟩ => ?_, fun hk => ?_⟩, hvalues', hmatch⟩
    · obtain ⟨c, -, hc, -⟩ := hmatch k j hj
      exact Circuit.lt_nConstraints hc
    · exact SortedMap.mem_keys_iff.1 (hmapped k hk)
  · intro h
    refine ⟨fun s hs => checkSignal_eq_ok_iff.2 (h.signal s hs), fun k hk => ?_, h.signals_nodup,
      h.constraints_nodup, fun e he => ?_⟩
    · rw [h.constraints_keys]
      exact List.mem_range.2 hk
    · obtain ⟨c, d, hc, hd, renamed, hrenamed, hmultiple⟩ :=
        h.constraint e.1 e.2 (SortedMap.get?_eq_some_iff.2 he)
      refine checkConstraint_eq_ok_iff.2 ⟨c, d, renamed, hc, hd, fun s hs => ?_, hrenamed, hmultiple⟩
      obtain ⟨t, ht, -⟩ := h.signal s (Circuit.lt_nSignals_of_mem_signals hc hs)
      exact SortedMap.contains_iff.2 (SortedMap.mem_keys_iff.2 ⟨t, ht⟩)

namespace Embeds

variable {left middle right : Circuit} {m n : Mapping}

/-! ### How an embedding acts -/

theorem get?_signals (h : m.Embeds left right) {s : Signal} (hs : s < left.nSignals) :
    m.signals.get? s = some (m.signals.getD s constantSignal) := by
  obtain ⟨t, ht, -⟩ := h.signal s hs
  rw [SortedMap.getD, ht, Option.getD_some]

theorem get?_constraints (h : m.Embeds left right) {k : Nat} (hk : k < left.nConstraints) :
    m.constraints.get? k = some (m.constraints.getD k 0) :=
  get?_of_keys_eq_range h.constraints_keys hk

theorem mapsTo_signals (h : m.Embeds left right) :
    Set.MapsTo (fun s => m.signals.getD s constantSignal) (Set.Iio left.nSignals)
      (Set.Iio right.nSignals) := fun s hs => by
  obtain ⟨t, ht, hlt, -⟩ := h.signal s hs
  rw [h.get?_signals hs, Option.some_inj] at ht
  subst ht
  exact hlt

theorem role_eq (h : m.Embeds left right) {s : Signal} (hs : s < left.nSignals) :
    right.role (m.signals.getD s constantSignal) = left.role s := by
  obtain ⟨t, ht, -, hrole⟩ := h.signal s hs
  rw [h.get?_signals hs, Option.some_inj] at ht
  rw [ht, hrole]

theorem injOn_signals (h : m.Embeds left right) :
    Set.InjOn (fun s => m.signals.getD s constantSignal) (Set.Iio left.nSignals) :=
  fun _ hs _ ht heq => eq_of_get?_eq h.signals_nodup (h.get?_signals hs)
    ((h.get?_signals ht).trans (congrArg some heq.symm))

theorem exists_matchesUnder (h : m.Embeds left right) {k : Nat} {c : Constraint}
    (hc : left.constraints[k]? = some c) : ∃ d, right.constraints[m.constraints.getD k 0]? = some d ∧
      c.MatchesUnder left.field (fun s => m.signals.getD s constantSignal) d := by
  obtain ⟨c', d, hc', hd, hmatch⟩ :=
    h.constraint _ _ (h.get?_constraints (Circuit.lt_nConstraints hc))
  rw [hc, Option.some_inj] at hc'
  exact ⟨d, hd, hc' ▸ hmatch⟩

theorem mapsTo_constraints (h : m.Embeds left right) :
    Set.MapsTo (fun k => m.constraints.getD k 0) (Set.Iio left.nConstraints)
      (Set.Iio right.nConstraints) := fun k hk => by
  obtain ⟨c, hc⟩ := Circuit.exists_constraint hk
  obtain ⟨d, hd, -⟩ := h.exists_matchesUnder hc
  exact Circuit.lt_nConstraints hd

theorem injOn_constraints (h : m.Embeds left right) :
    Set.InjOn (fun k => m.constraints.getD k 0) (Set.Iio left.nConstraints) :=
  (nodup_values_iff h.constraints_keys 0).1 h.constraints_nodup

/-! ### Composition and inverse -/

/-- Two embeddings, one after the other. -/
theorem andThen (h : m.Embeds left middle) (h' : n.Embeds middle right) (hl : left.IsProper)
    (hm : middle.IsReduced) (hr : right.IsReduced) (hfield : left.field = middle.field)
    (hfield' : middle.field = right.field) : (m.andThen n).Embeds left right := by
  have : Fact left.field.modulus.Prime := ⟨hl.prime⟩
  have hsignal : ∀ s < left.nSignals, (m.andThen n).signals.get? s =
      some (n.signals.getD (m.signals.getD s constantSignal) constantSignal) := fun s hs =>
    get?_composeMaps_eq_some_iff.2
      ⟨_, h.get?_signals hs, h'.get?_signals (h.mapsTo_signals hs)⟩
  refine ⟨fun s hs => ⟨_, hsignal s hs, h'.mapsTo_signals (h.mapsTo_signals hs), ?_⟩,
    nodup_values_composeMaps h.signals_nodup h'.signals_nodup,
    keys_eq_range_iff.2 fun k => ⟨fun ⟨i, hi⟩ => ?_, fun hk => ?_⟩,
    nodup_values_composeMaps h.constraints_nodup h'.constraints_nodup, fun k i hi => ?_⟩
  · rw [h'.role_eq (h.mapsTo_signals hs), h.role_eq hs]
  · obtain ⟨j, hj, -⟩ := get?_composeMaps_eq_some_iff.1 hi
    exact (keys_eq_range_iff.1 h.constraints_keys k).1 ⟨j, hj⟩
  · exact ⟨_, get?_composeMaps_eq_some_iff.2
      ⟨_, h.get?_constraints hk, h'.get?_constraints (h.mapsTo_constraints hk)⟩⟩
  · obtain ⟨j, hj, hi⟩ := get?_composeMaps_eq_some_iff.1 hi
    obtain ⟨c, d, hc, hd, hmatch⟩ := h.constraint k j hj
    obtain ⟨d', e, hd', he, hmatch'⟩ := h'.constraint j i hi
    rw [hd, Option.some_inj] at hd'
    subst hd'
    have hboth := hmatch.trans (hfield ▸ hmatch') (hl.reduced.constraint hc)
      (hfield ▸ hm.constraint hd) (hfield ▸ hfield' ▸ hr.constraint he)
    refine ⟨c, e, hc, he, hboth.congr fun s hs => ?_⟩
    rw [SortedMap.getD, hsignal s (Circuit.lt_nSignals_of_mem_signals hc hs)]
    rfl

/-- An embedding of a circuit in one of the same size can be turned round. -/
theorem inverse (h : m.Embeds left right) (hl : left.IsProper) (hr : right.IsReduced)
    (hfield : left.field = right.field) (hsignals : left.nSignals = right.nSignals)
    (hconstraints : left.nConstraints = right.nConstraints) : m.inverse.Embeds right left := by
  have : Fact left.field.modulus.Prime := ⟨hl.prime⟩
  have hback : ∀ {s t}, m.inverse.signals.get? t = some s ↔ m.signals.get? s = some t :=
    get?_inverseMap h.signals_nodup
  have hback' : ∀ {k j}, m.inverse.constraints.get? j = some k ↔ m.constraints.get? k = some j :=
    get?_inverseMap h.constraints_nodup
  refine ⟨fun t ht => ?_, nodup_values_inverseMap h.signals_nodup,
    keys_eq_range_iff.2 fun j => ⟨fun ⟨k, hk⟩ => ?_, fun hj => ?_⟩,
    nodup_values_inverseMap h.constraints_nodup, fun j k hk => ?_⟩
  · obtain ⟨s, hs, rfl⟩ := ((bijOn_Iio_iff h.mapsTo_signals h.injOn_signals).2 hsignals).surjOn ht
    exact ⟨s, hback.2 (h.get?_signals hs), hs, h.role_eq hs⟩
  · obtain ⟨-, d, -, hd, -⟩ := h.constraint k j (hback'.1 hk)
    exact Circuit.lt_nConstraints hd
  · obtain ⟨k, hk, rfl⟩ :=
      ((bijOn_Iio_iff h.mapsTo_constraints h.injOn_constraints).2 hconstraints).surjOn hj
    exact ⟨k, hback'.2 (h.get?_constraints hk)⟩
  · obtain ⟨c, d, hc, hd, hmatch⟩ := h.constraint k j (hback'.1 hk)
    refine ⟨d, c, hd, hc, hfield ▸ hmatch.symm (hl.reduced.constraint hc)
      (hfield ▸ hr.constraint hd) fun s hs => ?_⟩
    have hs' := h.get?_signals (Circuit.lt_nSignals_of_mem_signals hc hs)
    rw [SortedMap.getD, hback.2 hs']
    rfl

/-- The inverse of an embedding is one exactly when the circuits have the same size. -/
theorem inverse_iff (h : m.Embeds left right) (hl : left.IsProper) (hr : right.IsReduced)
    (hfield : left.field = right.field) : m.inverse.Embeds right left ↔
      left.nSignals = right.nSignals ∧ left.nConstraints = right.nConstraints := by
  refine ⟨fun h' => ?_, fun ⟨hsignals, hconstraints⟩ => h.inverse hl hr hfield hsignals hconstraints⟩
  exact ⟨Nat.le_antisymm (le_of_mapsTo_Iio h.mapsTo_signals h.injOn_signals)
      (le_of_mapsTo_Iio h'.mapsTo_signals h'.injOn_signals),
    Nat.le_antisymm (le_of_mapsTo_Iio h.mapsTo_constraints h.injOn_constraints)
      (le_of_mapsTo_Iio h'.mapsTo_constraints h'.injOn_constraints)⟩

end Embeds

/-! ## Mappings that pass the check -/

/-- A mapping that passes the check embeds the left circuit in the right one. It is onto the signals, and
onto the constraints, exactly when there are no more of them on the right, and its inverse passes exactly
when both are so. -/
theorem onto_iff_same_size_of_sanityCheck {left right : Circuit} {m : Mapping}
    (hfield : left.field = right.field) (h : m.sanityCheck left right = .ok ()) :
    m.Embeds left right ∧
    (Set.BijOn (fun s => m.signals.getD s constantSignal) (Set.Iio left.nSignals)
      (Set.Iio right.nSignals) ↔ left.nSignals = right.nSignals) ∧
    (Set.BijOn (fun k => m.constraints.getD k 0) (Set.Iio left.nConstraints)
      (Set.Iio right.nConstraints) ↔ left.nConstraints = right.nConstraints) ∧
    (left.IsProper → right.IsReduced → (m.inverse.sanityCheck right left = .ok () ↔
      left.nSignals = right.nSignals ∧ left.nConstraints = right.nConstraints)) := by
  have hembeds := sanityCheck_eq_ok_iff_embeds.1 h
  refine ⟨hembeds, bijOn_Iio_iff hembeds.mapsTo_signals hembeds.injOn_signals,
    bijOn_Iio_iff hembeds.mapsTo_constraints hembeds.injOn_constraints, fun hl hr => ?_⟩
  rw [sanityCheck_eq_ok_iff_embeds]
  exact hembeds.inverse_iff hl hr hfield

namespace Sample

/-- A circuit of one signal that no constraint restricts. -/
def unconstrained : Circuit where
  field := Circuit.Sample.field
  dialect := .r1cs
  nSignals := 2
  constraints := #[]
  inputs := SortedSet.empty
  outputs := SortedSet.empty
  nSignals_pos := by decide
  inputs_declarable := by decide
  outputs_declarable := by decide
  inputs_disjoint_outputs := by decide
  constraints_wellFormed := by decide

/-- The same with a constraint that makes the signal a bit. -/
def bit : Circuit where
  field := Circuit.Sample.field
  dialect := .r1cs
  nSignals := 2
  constraints := #[.r1cs (.ofTerms [(1, 1)] [(1, 1)] [(1, 1)])]
  inputs := SortedSet.empty
  outputs := SortedSet.empty
  nSignals_pos := by decide
  inputs_declarable := by decide
  outputs_declarable := by decide
  inputs_disjoint_outputs := by decide
  constraints_wellFormed := by decide

/-- Maps the signals of the one circuit to those of the other. -/
def signalsOnly : Mapping := ⟨SortedMap.ofList [(0, 0), (1, 1)], SortedMap.empty⟩

theorem not_onto_signalsOnly :
    unconstrained.field = bit.field ∧ signalsOnly.sanityCheck unconstrained bit = .ok () ∧
      ¬ Set.BijOn (fun k => signalsOnly.constraints.getD k 0) (Set.Iio unconstrained.nConstraints)
        (Set.Iio bit.nConstraints) ∧ signalsOnly.inverse.sanityCheck bit unconstrained ≠ .ok () := by
  have hfield : unconstrained.field = bit.field := rfl
  have hcheck : signalsOnly.sanityCheck unconstrained bit = .ok () := by decide
  obtain ⟨-, -, hconstraints, hinverse⟩ := onto_iff_same_size_of_sanityCheck hfield hcheck
  refine ⟨hfield, hcheck, fun h => absurd (hconstraints.1 h) (by decide), fun h => ?_⟩
  exact absurd ((hinverse ⟨by decide, by decide⟩ (by decide)).1 h).2 (by decide)

/-- A mapping passes although its inverse does not: nothing is mapped to the constraint of the right
circuit. -/
theorem sanityCheck_inverse_fails : signalsOnly.sanityCheck unconstrained bit = .ok () ∧
    signalsOnly.inverse.sanityCheck bit unconstrained = .error (.unmappedConstraint 0) := by decide

end Sample

/-- The mapping of a circuit to itself that keeps every signal and constraint. -/
def identity (circuit : Circuit) : Mapping := ofFunctions circuit id id

theorem Embeds.signals_keys {left right : Circuit} {m : Mapping} (h : m.Embeds left right)
    (hlt : ∀ s ∈ m.signals.keys, s < left.nSignals) : m.signals.keys = List.range left.nSignals :=
  keys_eq_range_iff.2 fun s => ⟨fun hs => hlt s (SortedMap.mem_keys_iff.2 hs), fun hs =>
    ⟨_, h.get?_signals hs⟩⟩

/-- The mappings between circuits of one size that pass the check form a groupoid: they can be inverted
and composed, the inverse undoes a mapping, and inverting is an involution that reverses compositions. The
second mapping may lead into a larger circuit and may map more than there is. -/
theorem groupoid_of_sanityCheck {a b c : Circuit} {m n : Mapping}
    (ha : a.IsProper) (hb : b.IsReduced) (hc : c.IsReduced)
    (hab : a.field = b.field) (hbc : b.field = c.field)
    (hsignals : a.nSignals = b.nSignals) (hconstraints : a.nConstraints = b.nConstraints)
    (hm : ∀ s ∈ m.signals.keys, s < a.nSignals)
    (h : m.sanityCheck a b = .ok ()) (h' : n.sanityCheck b c = .ok ()) :
    m.inverse.sanityCheck b a = .ok () ∧ (m.andThen n).sanityCheck a c = .ok () ∧
      m.andThen m.inverse = identity a ∧ m.inverse.inverse = m ∧
      (m.andThen n).inverse = n.inverse.andThen m.inverse := by
  rw [sanityCheck_eq_ok_iff_embeds] at h h'
  refine ⟨sanityCheck_eq_ok_iff_embeds.2 (h.inverse ha hb hab hsignals hconstraints),
    sanityCheck_eq_ok_iff_embeds.2 (h.andThen h' ha hb hc hab hbc), ?_, ?_, ?_⟩
  · exact congrArg₂ Mapping.mk (composeMaps_inverseMap h.signals_nodup (h.signals_keys hm))
      (composeMaps_inverseMap h.constraints_nodup h.constraints_keys)
  · exact congrArg₂ Mapping.mk (inverseMap_inverseMap h.signals_nodup)
      (inverseMap_inverseMap h.constraints_nodup)
  · exact congrArg₂ Mapping.mk (inverseMap_composeMaps h.signals_nodup h'.signals_nodup)
      (inverseMap_composeMaps h.constraints_nodup h'.constraints_nodup)

open Circuit.Sample in
/-- A mapping of the product to its other form, with the identity after it. -/
theorem groupoid_sample : ∃ m : Mapping, m.sanityCheck left right = .ok () ∧
    m.inverse.sanityCheck right left = .ok () ∧
    (m.andThen (identity right)).sanityCheck left right = .ok () ∧
    m.andThen m.inverse = identity left ∧ m.inverse.inverse = m ∧
    (m.andThen (identity right)).inverse = (identity right).inverse.andThen m.inverse := by
  have hm := isFullEquivalence_ofFunctions fullEquivalence
  have hcheck := sanityCheck_of_isFullEquivalence hm
  have hcheck' : (identity right).sanityCheck right right = .ok () :=
    sanityCheck_of_isFullEquivalence (isFullEquivalence_ofFunctions (.refl isProper_right))
  refine ⟨_, hcheck, groupoid_of_sanityCheck isProper_left isProper_right.reduced
    isProper_right.reduced rfl rfl rfl rfl (fun s hs => ?_) hcheck hcheck'⟩
  rw [hm.signals_keys] at hs
  exact List.mem_range.1 hs

end Mapping

end CircuitEquiv
