-- SUMMARY: Nodes that look alike: equivalent nodes have one key whatever digest is taken, and groups hold the nodes of one key.
import CircuitEquiv.Proofs.Circuit.Roles
import CircuitEquiv.Proofs.NodeClasses.NodeComparison
import CircuitEquiv.Proofs.Refinement.Invariance
import CircuitEquiv.Proofs.Refinement.Lockstep

/-!
# Nodes that look alike

Equivalent circuits agree on all sizes, and refining them leaves the same trace, so every digest of the
traces agrees too. The converse is not needed: groups are split by comparison afterwards.
-/

namespace CircuitEquiv

/-- Refining equivalent circuits leaves the same trace. -/
theorem Circuit.Equivalent.trace_single_eq {left right : Circuit} (h : left.Equivalent right)
    (hl : left.IsProper) (hr : right.IsReduced) :
    (Refinement.single left left.normalize).trace =
      (Refinement.single right right.normalize).trace := by
  obtain ⟨σ, κ, h⟩ := h
  obtain ⟨r, hpair⟩ := h.exists_pair_eq_ok hl hr
  obtain ⟨hleft, hright⟩ := Refinement.single_eq_side hpair
  rw [hleft, hright]
  rfl

namespace NodeClasses

variable {τ : Type} {digest : List TraceEntry → τ} {d : Dag} {minimumSize : Nat}

/-! ## Keys -/

/-- The key of a circuit that is not too small. -/
def lookOf (digest : List TraceEntry → τ) (c : Circuit) : LocalKey τ :=
  .look c.nSignals c.nConstraints c.inputs.size c.outputs.size
    (digest (Refinement.single c c.normalize).trace)

theorem lookOf_eq_of_equivalent {left right : Circuit} (h : left.Equivalent right) (hl : left.IsProper)
    (hr : right.IsReduced) : lookOf digest left = lookOf digest right := by
  obtain ⟨σ, κ, hacts⟩ := id h
  rw [lookOf, lookOf, hacts.nSignals_eq, hacts.nConstraints_eq, Circuit.size_inputs_eq h,
    Circuit.size_outputs_eq h, h.trace_single_eq hl hr]

/-- Keys of the live nodes. -/
structure AreKeys (digest : List TraceEntry → τ) (d : Dag) (minimumSize : Nat)
    (key : NodeId → LocalKey τ) : Prop where
  localKey : ∀ id ∈ d.live, localKey digest d minimumSize id = .ok (key id)
  small : ∀ id ∈ d.live, (d.node id).constraints.length < minimumSize → key id = .small id
  look : ∀ id ∈ d.live, minimumSize ≤ (d.node id).constraints.length →
    ∃ sub, d.IsProperPart id sub ∧ key id = lookOf digest sub.circuit

theorem exists_keys (digest : List TraceEntry → τ) (minimumSize : Nat) (hparts : d.HasProperParts) :
    ∃ key, AreKeys digest d minimumSize key := by
  have hkey : ∀ id, ∃ key, id ∈ d.live → localKey digest d minimumSize id = .ok key ∧
      ((d.node id).constraints.length < minimumSize → key = .small id) ∧
      (minimumSize ≤ (d.node id).constraints.length →
        ∃ sub, d.IsProperPart id sub ∧ key = lookOf digest sub.circuit) := fun id => by
    by_cases hid : id ∈ d.live
    · by_cases hsize : (d.node id).constraints.length < minimumSize
      · refine ⟨.small id, fun _ => ⟨?_, fun _ => rfl, fun hle => absurd hsize (Nat.not_lt.2 hle)⟩⟩
        rw [NodeClasses.localKey, if_pos hsize]
      · obtain ⟨sub, hsub⟩ := hparts id hid
        refine ⟨lookOf digest sub.circuit,
          fun _ => ⟨?_, fun hlt => absurd hlt hsize, fun _ => ⟨sub, hsub, rfl⟩⟩⟩
        rw [NodeClasses.localKey, if_neg hsize, subCircuit, hsub.subCircuit]
        rfl
    · exact ⟨.small id, fun h => absurd h hid⟩
  choose key hkey using hkey
  exact ⟨key, fun id hid => (hkey id hid).1, fun id hid => (hkey id hid).2.1,
    fun id hid => (hkey id hid).2.2⟩

namespace AreKeys

variable {key : NodeId → LocalKey τ} (h : AreKeys digest d minimumSize key) {a b : NodeId}
include h

/-- Different nodes of one key are large. -/
theorem le_of_key_eq (ha : a ∈ d.live) (hb : b ∈ d.live) (hne : a ≠ b) (hkey : key a = key b) :
    minimumSize ≤ (d.node a).constraints.length := by
  by_contra hsmall
  rw [h.small a ha (Nat.lt_of_not_le hsmall)] at hkey
  rcases Nat.lt_or_ge (d.node b).constraints.length minimumSize with hlt | hle
  · rw [h.small b hb hlt] at hkey
    exact hne (LocalKey.small.inj hkey)
  · obtain ⟨sub, -, hlook⟩ := h.look b hb hle
    rw [hlook] at hkey
    cases hkey

theorem key_eq_of_areEquivalent (ha : a ∈ d.live) (hb : b ∈ d.live)
    (hsize : minimumSize ≤ (d.node a).constraints.length)
    (hsize' : minimumSize ≤ (d.node b).constraints.length) (hab : d.AreEquivalent a b) :
    key a = key b := by
  obtain ⟨l, hl, hkey⟩ := h.look a ha hsize
  obtain ⟨r, hr, hkey'⟩ := h.look b hb hsize'
  have hequivalent := (hl.areEquivalent_iff hr).1 hab
  rw [hkey, hkey', lookOf_eq_of_equivalent hequivalent hl.proper hr.proper.reduced]

end AreKeys

/-! ## Groups -/

/-- Groups of live nodes that look alike: every live node is in one of them, different nodes of a group
are large, and large equivalent nodes share a group. -/
structure AreLookAlikes (d : Dag) (minimumSize : Nat) (groups : List (List NodeId)) : Prop where
  nodes : groups.flatten.Perm d.live.toList
  large : ∀ group ∈ groups, ∀ a ∈ group, ∀ b ∈ group, a ≠ b →
    minimumSize ≤ (d.node a).constraints.length
  together : ∀ a ∈ d.live, ∀ b ∈ d.live, minimumSize ≤ (d.node a).constraints.length →
    minimumSize ≤ (d.node b).constraints.length → d.AreEquivalent a b →
    ∃ group ∈ groups, a ∈ group ∧ b ∈ group

variable [DecidableEq τ]

/-- Ranks tell different keys apart. -/
theorem exists_ranks (keys : List (LocalKey τ)) : ∃ rank : LocalKey τ → Nat,
    ranks keys = keys.map rank ∧ ∀ k ∈ keys, ∀ l, rank k = rank l ↔ k = l := by
  let order := keys.eraseDups.mergeSort fun k l => (compare k.sizes l.sizes).isLE
  refine ⟨fun k => order.idxOf k, rfl, fun k hk l => List.idxOf_inj ?_⟩
  exact (List.mergeSort_perm _ _).mem_iff.2 (List.mem_eraseDups.2 hk)

theorem mem_groupByRank {ids : List NodeId} {rank : NodeId → Nat} {group : List NodeId} :
    group ∈ groupByRank (ids.map fun id => (id, rank id)) ↔
      ∃ a ∈ ids, group = ids.filter fun b => rank b = rank a := by
  rw [groupByRank, List.map_map]
  exact SortedMap.mem_values_groupValues_map.trans (by simp)

theorem exists_lookRanks (digest : List TraceEntry → τ) (minimumSize : Nat)
    (hparts : d.HasProperParts) : ∃ ranked, lookRanks digest d minimumSize = .ok ranked ∧
      AreLookAlikes d minimumSize (groupByRank ranked) := by
  obtain ⟨key, hkey⟩ := exists_keys digest minimumSize hparts
  obtain ⟨rank, hranks, hrank⟩ := exists_ranks (d.live.toList.map key)
  have hlive : ∀ {id}, id ∈ d.live.toList ↔ id ∈ d.live := SortedSet.mem_def.symm
  have hsame : ∀ a ∈ d.live, ∀ b, rank (key a) = rank (key b) ↔ key a = key b := fun a ha b =>
    hrank (key a) (List.mem_map_of_mem (hlive.2 ha)) (key b)
  refine ⟨d.live.toList.map fun id => (id, rank (key id)), ?_, ?_, ?_, ?_⟩
  · have hkeys : d.live.toList.mapM (localKey digest d minimumSize) = .ok (d.live.toList.map key) :=
      mapM_eq_ok fun id hid => hkey.localKey id (hlive.1 hid)
    rw [lookRanks, hkeys, ok_bind, hranks, List.map_map]
    exact congrArg Except.ok List.map_prod_left_eq_zip.symm
  · refine (SortedMap.flatten_values_groupValues_perm _).trans (.of_eq ?_)
    rw [List.map_map, List.map_map]
    exact List.map_id _
  · intro group hgroup a ha b hb hne
    obtain ⟨c, hc, rfl⟩ := mem_groupByRank.1 hgroup
    obtain ⟨ha, hac⟩ := List.mem_filter.1 ha
    obtain ⟨hb, hbc⟩ := List.mem_filter.1 hb
    have hab : rank (key a) = rank (key b) :=
      (of_decide_eq_true hac).trans (of_decide_eq_true hbc).symm
    exact hkey.le_of_key_eq (hlive.1 ha) (hlive.1 hb) hne ((hsame a (hlive.1 ha) b).1 hab)
  · intro a ha b hb hsize hsize' hab
    have heq := hkey.key_eq_of_areEquivalent ha hb hsize hsize' hab
    refine ⟨_, mem_groupByRank.2 ⟨a, hlive.2 ha, rfl⟩, ?_, ?_⟩
    · simp [hlive.2 ha]
    · simp [hlive.2 hb, heq]

end NodeClasses

end CircuitEquiv
