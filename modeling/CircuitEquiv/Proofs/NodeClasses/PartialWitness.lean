-- SUMMARY: Mappings that witness a common part of two nodes can be turned round and put one after the other.
import CircuitEquiv.Proofs.Circuit.MappingAlgebra
import CircuitEquiv.Proofs.Dag.NodeMapping

/-!
# Partial witnesses

A mapping witnesses a common part of two nodes when no two signals and no two constraints have one image,
and every constraint that is mapped matches its image. Composition drops what the second mapping does not
map, but a constraint that stays has all its signals mapped, because its image in the middle has them all.
-/

namespace CircuitEquiv.NodeClasses

/-- The constraints of every node, under the numbers that mappings use for them. -/
abbrev Contents := NodeId → Nat → Option Constraint

/-- A mapping of distinct signals and constraints of one node to distinct ones of another. Every constraint
that is mapped has all its signals mapped, and renamed it is a scalar multiple of its image. -/
structure IsPartialWitness (F : PrimeField) (contents : Contents) (a b : NodeId) (m : Mapping) : Prop where
  signals_nodup : m.signals.values.Nodup
  constraints_nodup : m.constraints.values.Nodup
  constraint : ∀ k j, m.constraints.get? k = some j → ∃ c d, contents a k = some c ∧
    contents b j = some d ∧ (∀ s ∈ c.signals, m.signals.contains s = true) ∧
    c.MatchesUnder F (fun s => m.signals.getD s constantSignal) d

variable {F : PrimeField} {contents : Contents} {a b c : NodeId} {m n : Mapping}

theorem get?_of_contains {e : SortedMap Signal Signal} {s : Signal} (h : e.contains s = true) :
    e.get? s = some (e.getD s constantSignal) := by
  obtain ⟨t, ht⟩ := SortedMap.mem_keys_iff.1 (SortedMap.contains_iff.1 h)
  rw [SortedMap.getD, ht, Option.getD_some]

theorem contains_of_get? {e : SortedMap Signal Signal} {s t : Signal} (h : e.get? s = some t) :
    e.contains s = true := SortedMap.contains_iff.2 (SortedMap.mem_keys_iff.2 ⟨t, h⟩)

/-- The constraints of all nodes have reduced coefficients. -/
def AreReduced (F : PrimeField) (contents : Contents) : Prop :=
  ∀ id k c, contents id k = some c → c.IsReduced F

namespace IsPartialWitness

variable [Fact F.modulus.Prime] (hreduced : AreReduced F contents)

include hreduced

/-- A partial witness turned round. -/
theorem inverse (h : IsPartialWitness F contents a b m) : IsPartialWitness F contents b a m.inverse := by
  have hsignals : ∀ {s t}, m.inverse.signals.get? t = some s ↔ m.signals.get? s = some t :=
    Mapping.get?_inverseMap h.signals_nodup
  have hconstraints : ∀ {k j}, m.inverse.constraints.get? j = some k ↔ m.constraints.get? k = some j :=
    Mapping.get?_inverseMap h.constraints_nodup
  refine ⟨Mapping.nodup_values_inverseMap h.signals_nodup,
    Mapping.nodup_values_inverseMap h.constraints_nodup, fun j k hk => ?_⟩
  obtain ⟨c, d, hc, hd, hmapped, hmatch⟩ := h.constraint k j (hconstraints.1 hk)
  refine ⟨d, c, hd, hc, fun t ht => ?_, hmatch.symm (hreduced _ _ _ hc) (hreduced _ _ _ hd) fun s hs => ?_⟩
  · obtain ⟨s, hs, rfl⟩ := (hmatch.mem_signals (hreduced _ _ _ hc) (hreduced _ _ _ hd)).1 ht
    exact contains_of_get? (hsignals.2 (get?_of_contains (hmapped s hs)))
  · rw [SortedMap.getD, hsignals.2 (get?_of_contains (hmapped s hs)), Option.getD_some]

/-- Two partial witnesses, one after the other. -/
theorem andThen (h : IsPartialWitness F contents a b m) (h' : IsPartialWitness F contents b c n) :
    IsPartialWitness F contents a c (m.andThen n) := by
  refine ⟨Mapping.nodup_values_composeMaps h.signals_nodup h'.signals_nodup,
    Mapping.nodup_values_composeMaps h.constraints_nodup h'.constraints_nodup, fun k i hi => ?_⟩
  obtain ⟨j, hj, hi⟩ := Mapping.get?_composeMaps_eq_some_iff.1 hi
  obtain ⟨x, y, hx, hy, hmapped, hmatch⟩ := h.constraint k j hj
  obtain ⟨y', z, hy', hz, hmapped', hmatch'⟩ := h'.constraint j i hi
  obtain rfl := Option.some.inj (hy.symm.trans hy')
  -- the signals of the constraint lead to those of its image, which the second mapping maps
  have hboth : ∀ s ∈ x.signals, (m.andThen n).signals.get? s =
      some (n.signals.getD (m.signals.getD s constantSignal) constantSignal) := fun s hs =>
    Mapping.get?_composeMaps_eq_some_iff.2 ⟨_, get?_of_contains (hmapped s hs),
      get?_of_contains (hmapped' _ ((hmatch.mem_signals (hreduced _ _ _ hx)
        (hreduced _ _ _ hy)).2 ⟨s, hs, rfl⟩))⟩
  refine ⟨x, z, hx, hz, fun s hs => contains_of_get? (hboth s hs), ?_⟩
  refine (hmatch.trans hmatch' (hreduced _ _ _ hx) (hreduced _ _ _ hy) (hreduced _ _ _ hz)).congr
    fun s hs => ?_
  rw [SortedMap.getD, hboth s hs]
  rfl

end IsPartialWitness

/-! ## Full witnesses -/

/-- A mapping that passes the check of two sub-circuits is a partial witness. -/
theorem isPartialWitness_of_embeds {left right : Circuit} (h : m.Embeds left right)
    (hleft : ∀ k, contents a k = left.constraints[k]?) (hright : ∀ k, contents b k = right.constraints[k]?) :
    IsPartialWitness left.field contents a b m := by
  refine ⟨h.signals_nodup, h.constraints_nodup, fun k j hj => ?_⟩
  obtain ⟨c, d, hc, hd, hmatch⟩ := h.constraint k j hj
  refine ⟨c, d, (hleft k).trans hc, (hright j).trans hd, fun s hs => ?_, hmatch⟩
  exact contains_of_get? (h.get?_signals (Circuit.lt_nSignals_of_mem_signals hc hs))

/-- The constraints of nodes in the numbering of the circuit. -/
def ownContents (d : Dag) : Contents := fun id k =>
  if k ∈ (d.node id).constraints then d.circuit.constraints[k]? else none

/-- A mapping that leads from one node to another is a partial witness in the numbering of the circuit. -/
theorem isPartialWitness_of_isNodeMapping {d : Dag} (hd : d.IsClustering) (ha : a ∈ d.live)
    (h : d.IsNodeMapping a b m) : IsPartialWitness d.circuit.field (ownContents d) a b m := by
  have hget : ∀ {e : SortedMap Nat Nat} {k v : Nat} (x : Nat), e.get? k = some v →
      k ∈ e.keys ∧ e.getD k x = v := fun {e k v} x hk =>
    ⟨SortedMap.mem_keys_iff.2 ⟨v, hk⟩, by rw [SortedMap.getD, hk, Option.getD_some]⟩
  refine ⟨Mapping.nodup_values_of_forall fun s s' t hs hs' => ?_,
    Mapping.nodup_values_of_forall fun k k' j hk hk' => ?_, fun k j hk => ?_⟩
  · obtain ⟨hs, heq⟩ := hget constantSignal hs
    obtain ⟨hs', heq'⟩ := hget constantSignal hs'
    exact h.signals.injOn ((h.signals_keys s).1 hs) ((h.signals_keys s').1 hs') (heq.trans heq'.symm)
  · obtain ⟨hk, heq⟩ := hget 0 hk
    obtain ⟨hk', heq'⟩ := hget 0 hk'
    exact h.constraints.injOn ((h.constraints_keys k).1 hk) ((h.constraints_keys k').1 hk')
      (heq.trans heq'.symm)
  · obtain ⟨hkeys, rfl⟩ := hget 0 hk
    have hmem := (h.constraints_keys k).1 hkeys
    obtain ⟨x, y, hx, hy, hmatch⟩ := h.constraint k hmem
    refine ⟨x, y, (if_pos hmem).trans hx, (if_pos (h.constraints.mapsTo hmem)).trans hy,
      fun s hs => ?_, hmatch⟩
    have hsignal : s ∈ (d.node a).signals := (hd.mem_signals a ha s).2 ⟨k, hmem, by rwa [hx]⟩
    exact SortedMap.contains_iff.2 ((h.signals_keys s).2 (Or.inr hsignal))

end CircuitEquiv.NodeClasses
