-- SUMMARY: A layered search finds exactly what can be reached, and components partition the vertices.
import CircuitEquiv.Data.Reach
import CircuitEquiv.Proofs.Data.Ordered
import Mathlib.Data.Finset.Card
import Mathlib.Logic.Relation

/-!
# What a search finds

The search keeps a set of found vertices whose neighbours are found, too, except for those of the last
layer. Every layer that is not empty is new, so as many layers as there are vertices reach everything.
Where edges go both ways the components are the classes of connected vertices.
-/

namespace CircuitEquiv.Reach

open Relation (ReflTransGen)

/-! ## Layers -/

theorem get?_foldl_insert {l : List Nat} {found : SortedMap Nat Nat} {d v : Nat} :
    (l.foldl (fun found v => found.insert v d) found).get? v =
      if v ∈ l then some d else found.get? v := by
  induction l generalizing found with
  | nil => simp
  | cons a rest ih =>
    rw [List.foldl_cons, ih, SortedMap.get?_insert]
    by_cases hrest : v ∈ rest
    · simp [hrest]
    · simp [hrest]

theorem mem_keys_foldl_insert {l : List Nat} {found : SortedMap Nat Nat} {d v : Nat} :
    v ∈ (l.foldl (fun found v => found.insert v d) found).keys ↔ v ∈ l ∨ v ∈ found.keys := by
  rw [SortedMap.mem_keys_iff, SortedMap.mem_keys_iff, get?_foldl_insert]
  by_cases hv : v ∈ l
  · simp [hv]
  · simp [hv]

variable {next : Nat → List Nat}

/-- The vertices of the layer after the given one. -/
theorem mem_fresh {layer : List Nat} {found : SortedMap Nat Nat} {v : Nat} :
    v ∈ (SortedSet.ofList ((layer.flatMap next).filter (!found.contains ·))).toList ↔
      v ∉ found.keys ∧ ∃ u ∈ layer, v ∈ next u := by
  rw [← SortedSet.mem_def, SortedSet.mem_ofList, List.mem_filter, List.mem_flatMap, and_comm,
    Bool.not_eq_true', ← Bool.not_eq_true, SortedMap.contains_iff]

/-- Found vertices stay found. -/
theorem mem_keys_spread_of_mem {fuel distance : Nat} {layer : List Nat} {found : SortedMap Nat Nat}
    {v : Nat} (hv : v ∈ found.keys) : v ∈ (spread next fuel distance layer found).keys := by
  induction fuel generalizing distance layer found with
  | zero => exact hv
  | succ fuel ih =>
    rw [spread]
    split
    · exact hv
    · exact ih (mem_keys_foldl_insert.2 (Or.inr hv))

/-- What holds of the found vertices and is passed on by edges holds of all that a search finds. -/
theorem spread_invariant {P : Nat → Prop} (hnext : ∀ u v, P u → v ∈ next u → P v)
    {fuel distance : Nat} {layer : List Nat} {found : SortedMap Nat Nat} (hlayer : ∀ v ∈ layer, P v)
    (hfound : ∀ v ∈ found.keys, P v) : ∀ v ∈ (spread next fuel distance layer found).keys, P v := by
  induction fuel generalizing distance layer found with
  | zero => exact hfound
  | succ fuel ih =>
    rw [spread]
    split
    · exact hfound
    · have hfresh : ∀ v ∈ (SortedSet.ofList ((layer.flatMap next).filter
          (!found.contains ·))).toList, P v := fun v hv => by
        obtain ⟨-, u, hu, hv⟩ := mem_fresh.1 hv
        exact hnext u v (hlayer u hu) hv
      refine ih hfresh fun v hv => ?_
      rcases mem_keys_foldl_insert.1 hv with hv | hv
      · exact hfresh v hv
      · exact hfound v hv

/-- With the neighbours of the last layer, edges do not lead out of what was found before. -/
theorem mem_of_mem_next {layer : List Nat} {found : SortedMap Nat Nat} {u v : Nat}
    (hclosed : ∀ u ∈ found.keys, u ∉ layer → ∀ v ∈ next u, v ∈ found.keys) (hu : u ∈ found.keys)
    (hv : v ∈ next u) :
    v ∈ (SortedSet.ofList ((layer.flatMap next).filter (!found.contains ·))).toList ∨
      v ∈ found.keys := by
  by_cases hv' : v ∈ found.keys
  · exact Or.inr hv'
  · refine Or.inl (mem_fresh.2 ⟨hv', u, ?_, hv⟩)
    by_contra hlast
    exact hv' (hclosed u hu hlast v hv)

/-- A new vertex leaves fewer to be found. -/
theorem card_sdiff_keys_lt {vertices : Finset Nat} {l : List Nat} {found : SortedMap Nat Nat}
    {d w : Nat} (hw : w ∈ vertices) (hnew : w ∉ found.keys) (hmem : w ∈ l) :
    (vertices \ (l.foldl (fun found v => found.insert v d) found).keys.toFinset).card <
      (vertices \ found.keys.toFinset).card := by
  refine Finset.card_lt_card (Finset.ssubset_iff_of_subset (fun v hv => ?_) |>.2 ⟨w, ?_, fun hw' => ?_⟩)
  · rw [Finset.mem_sdiff, List.mem_toFinset, mem_keys_foldl_insert, not_or] at hv
    rw [Finset.mem_sdiff, List.mem_toFinset]
    exact ⟨hv.1, hv.2.2⟩
  · rw [Finset.mem_sdiff, List.mem_toFinset]
    exact ⟨hw, hnew⟩
  · rw [Finset.mem_sdiff, List.mem_toFinset, mem_keys_foldl_insert] at hw'
    exact hw'.2 (Or.inl hmem)

/-- With enough layers left, edges do not lead out of what a search finds. -/
theorem closed_spread {vertices : Finset Nat} (hvertices : ∀ u ∈ vertices, ∀ v ∈ next u, v ∈ vertices)
    {fuel distance : Nat} {layer : List Nat} {found : SortedMap Nat Nat}
    (hfound : ∀ v ∈ found.keys, v ∈ vertices) (hlayer : ∀ v ∈ layer, v ∈ found.keys)
    (hclosed : ∀ u ∈ found.keys, u ∉ layer → ∀ v ∈ next u, v ∈ found.keys)
    (hfuel : (vertices \ found.keys.toFinset).card ≤ fuel) :
    ∀ u ∈ (spread next fuel distance layer found).keys, ∀ v ∈ next u,
      v ∈ (spread next fuel distance layer found).keys := by
  induction fuel generalizing distance layer found with
  | zero =>
    intro u hu v hv
    have hnone := Finset.card_eq_zero.1 (Nat.le_zero.1 hfuel)
    have hall := Finset.sdiff_eq_empty_iff_subset.1 hnone (hvertices u (hfound u hu) v hv)
    exact List.mem_toFinset.1 hall
  | succ fuel ih =>
    have hfresh : ∀ v ∈ (SortedSet.ofList ((layer.flatMap next).filter
        (!found.contains ·))).toList, v ∈ vertices ∧ v ∉ found.keys := fun v hv => by
      obtain ⟨hnew, u, hu, hv⟩ := mem_fresh.1 hv
      exact ⟨hvertices u (hfound u (hlayer u hu)) v hv, hnew⟩
    rw [spread]
    split
    · rename_i hempty
      intro u hu v hv
      refine (mem_of_mem_next hclosed hu hv).resolve_left fun hv => ?_
      rw [List.isEmpty_iff.1 hempty] at hv
      cases hv
    · rename_i hsome
      refine ih (fun v hv => ?_) (fun v hv => mem_keys_foldl_insert.2 (Or.inl hv))
        (fun u hu hul v hv => ?_) ?_
      · exact (mem_keys_foldl_insert.1 hv).elim (fun hv => (hfresh v hv).1) (hfound v)
      · have hu := (mem_keys_foldl_insert.1 hu).resolve_left hul
        exact mem_keys_foldl_insert.2 (mem_of_mem_next hclosed hu hv)
      · obtain ⟨w, hw⟩ := List.exists_mem_of_ne_nil _ fun h => hsome (List.isEmpty_iff.2 h)
        obtain ⟨hw', hnew⟩ := hfresh w hw
        exact Nat.le_of_lt_succ (Nat.lt_of_lt_of_le (card_sdiff_keys_lt hw' hnew hw) hfuel)

/-! ## Reachable vertices -/

section Reachable

variable {vertices : Finset Nat} {n u v : Nat}
  (hvertices : ∀ u ∈ vertices, ∀ v ∈ next u, v ∈ vertices) (hcard : vertices.card ≤ n)

include hvertices hcard in
/-- The search from a vertex finds what edges lead to. -/
theorem mem_reachable_iff (hv : v ∈ vertices) :
    u ∈ reachable next n v ↔ ReflTransGen (fun a b => b ∈ next a) v u := by
  have hstart : ∀ w, w ∈ (SortedMap.ofList ([v].map fun v => (v, 0))).keys ↔ w = v := fun w => by
    rw [SortedMap.mem_keys_ofList]
    simp
  unfold reachable distances
  constructor
  · refine @spread_invariant next (ReflTransGen (fun a b => b ∈ next a) v)
      (fun a b ha hb => ha.tail hb) _ _ _ _ (fun w hw => ?_) (fun w hw => ?_) u
    · rw [List.mem_singleton.1 hw]
    · rw [(hstart w).1 hw]
  · intro h
    induction h with
    | refl => exact mem_keys_spread_of_mem ((hstart v).2 rfl)
    | @tail a b _ hb ih =>
      refine closed_spread hvertices (fun w hw => (hstart w).1 hw ▸ hv)
        (fun w hw => (hstart w).2 (List.mem_singleton.1 hw)) (fun w hw hw' => ?_) ?_ a ih b hb
      · exact absurd (List.mem_singleton.2 ((hstart w).1 hw)) hw'
      · exact (Finset.card_le_card Finset.sdiff_subset).trans hcard

theorem nodup_reachable (next : Nat → List Nat) (n v : Nat) : (reachable next n v).Nodup :=
  SortedMap.nodup_keys _

end Reachable

/-! ## Components -/

section Components

variable {vertices : List Nat} {n : Nat}
  (hvertices : ∀ u ∈ vertices, ∀ v ∈ next u, v ∈ vertices)
  (hsymm : ∀ u ∈ vertices, ∀ v ∈ next u, u ∈ next v)

include hvertices hsymm in
theorem reflTransGen_symm {u v : Nat} (hu : u ∈ vertices)
    (h : ReflTransGen (fun a b => b ∈ next a) u v) :
    v ∈ vertices ∧ ReflTransGen (fun a b => b ∈ next a) v u := by
  induction h with
  | refl => exact ⟨hu, .refl⟩
  | tail _ hb ih => exact ⟨hvertices _ ih.1 _ hb, .head (hsymm _ ih.1 _ hb) ih.2⟩

variable (hcard : vertices.toFinset.card ≤ n)
include hvertices hcard

theorem mem_reachable {u v : Nat} (hv : v ∈ vertices) :
    u ∈ reachable next n v ↔ ReflTransGen (fun a b => b ∈ next a) v u :=
  mem_reachable_iff (fun u hu w hw => List.mem_toFinset.2 (hvertices u (List.mem_toFinset.1 hu) w hw))
    hcard (List.mem_toFinset.2 hv)

/-- Every listed vertex that has not been seen is in a component. -/
theorem exists_component {seen : SortedSet Nat} {l : List Nat} (hl : ∀ v ∈ l, v ∈ vertices) {v : Nat}
    (hv : v ∈ l) (hseen : v ∉ seen) : ∃ c ∈ componentsFrom next n seen l, v ∈ c := by
  induction l generalizing seen with
  | nil => cases hv
  | cons a rest ih =>
    have hrest : ∀ v ∈ rest, v ∈ vertices := fun v hv => hl v (List.mem_cons_of_mem _ hv)
    rw [componentsFrom]
    split
    · rename_i ha
      rcases List.mem_cons.1 hv with rfl | hv
      · exact absurd ha hseen
      · exact ih hrest hv hseen
    · by_cases hva : v ∈ reachable next n a
      · exact ⟨_, List.mem_cons_self, hva⟩
      · have hv' : v ∈ rest := by
          rcases List.mem_cons.1 hv with rfl | hv
          · exact absurd ((mem_reachable hvertices hcard (hl v List.mem_cons_self)).2 .refl) hva
          · exact hv
        obtain ⟨c, hc, hvc⟩ := ih hrest hv' fun h => (SortedSet.mem_insertAll.1 h).elim hva hseen
        exact ⟨c, List.mem_cons_of_mem _ hc, hvc⟩

omit hvertices hcard in
/-- Every component is what can be reached from a listed vertex that has not been seen. -/
theorem exists_of_mem_componentsFrom {seen : SortedSet Nat} {l c : List Nat}
    (hc : c ∈ componentsFrom next n seen l) : ∃ v ∈ l, v ∉ seen ∧ c = reachable next n v := by
  induction l generalizing seen with
  | nil => cases hc
  | cons a rest ih =>
    rw [componentsFrom] at hc
    split at hc
    · obtain ⟨v, hv, hseen, heq⟩ := ih hc
      exact ⟨v, List.mem_cons_of_mem _ hv, hseen, heq⟩
    · rename_i ha
      rcases List.mem_cons.1 hc with rfl | hc
      · exact ⟨a, List.mem_cons_self, ha, rfl⟩
      · obtain ⟨v, hv, hseen, heq⟩ := ih hc
        rw [SortedSet.mem_insertAll, not_or] at hseen
        exact ⟨v, List.mem_cons_of_mem _ hv, hseen.2, heq⟩

include hsymm in
/-- No vertex is in two components. -/
theorem pairwise_disjoint_componentsFrom {seen : SortedSet Nat} {l : List Nat}
    (hl : ∀ v ∈ l, v ∈ vertices) :
    (componentsFrom next n seen l).Pairwise List.Disjoint := by
  induction l generalizing seen with
  | nil => exact .nil
  | cons a rest ih =>
    have hrest : ∀ v ∈ rest, v ∈ vertices := fun v hv => hl v (List.mem_cons_of_mem _ hv)
    rw [componentsFrom]
    split
    · exact ih hrest
    · refine List.pairwise_cons.2 ⟨fun c hc x hxa hxc => ?_, ih hrest⟩
      -- a common vertex would connect the seen vertex `a` with one that has not been seen
      obtain ⟨v, hv, hseen, rfl⟩ := exists_of_mem_componentsFrom hc
      have hx := (mem_reachable hvertices hcard (hl a List.mem_cons_self)).1 hxa
      have hxv := (mem_reachable hvertices hcard (hrest v hv)).1 hxc
      have hav := hx.trans (reflTransGen_symm hvertices hsymm (hrest v hv) hxv).2
      refine hseen (SortedSet.mem_insertAll.2 (Or.inl ?_))
      exact (mem_reachable hvertices hcard (hl a List.mem_cons_self)).2 hav

end Components

section Partition

variable {vertices : List Nat} (hnodup : vertices.Nodup)
  (hvertices : ∀ u ∈ vertices, ∀ v ∈ next u, v ∈ vertices)
  (hsymm : ∀ u ∈ vertices, ∀ v ∈ next u, u ∈ next v)

include hvertices

/-- A component is closed under edges. -/
theorem mem_component_of_mem_next {c : List Nat} (hc : c ∈ components next vertices) {u v : Nat}
    (hu : u ∈ c) (hv : v ∈ next u) : v ∈ c := by
  obtain ⟨w, hw, -, rfl⟩ := exists_of_mem_componentsFrom hc
  rw [mem_reachable hvertices vertices.toFinset_card_le hw] at hu ⊢
  exact hu.tail hv

include hnodup hsymm in
/-- Every vertex is in exactly one component. -/
theorem perm_flatten_components : (components next vertices).flatten.Perm vertices := by
  have hcard := vertices.toFinset_card_le
  have hflatten : (components next vertices).flatten.Nodup := by
    refine List.nodup_flatten.2 ⟨fun c hc => ?_, ?_⟩
    · obtain ⟨v, -, -, rfl⟩ := exists_of_mem_componentsFrom hc
      exact nodup_reachable _ _ _
    · exact pairwise_disjoint_componentsFrom hvertices hsymm hcard fun v hv => hv
  refine (List.perm_ext_iff_of_nodup hflatten hnodup).2 fun v => ?_
  rw [List.mem_flatten]
  constructor
  · rintro ⟨c, hc, hvc⟩
    obtain ⟨w, hw, -, rfl⟩ := exists_of_mem_componentsFrom hc
    have hreach := (mem_reachable hvertices hcard hw).1 hvc
    exact (reflTransGen_symm hvertices hsymm hw hreach).1
  · intro hv
    exact exists_component hvertices hcard (fun v hv => hv) hv SortedSet.not_mem_empty

omit hvertices in
theorem component_ne_nil {c : List Nat} (hc : c ∈ components next vertices) : c ≠ [] := by
  obtain ⟨v, -, -, rfl⟩ := exists_of_mem_componentsFrom hc
  have hv : v ∈ reachable next vertices.length v :=
    mem_keys_spread_of_mem (SortedMap.mem_keys_ofList.2 (by simp))
  exact List.ne_nil_of_mem hv

end Partition

/-- Lists that are not empty have at least as many elements together as there are lists, and each has
only one if there are no more. -/
theorem length_le_length_flatten {α : Type} {l : List (List α)} (h : ∀ c ∈ l, c ≠ []) :
    l.length ≤ l.flatten.length ∧ (l.flatten.length ≤ l.length → ∀ c ∈ l, c.length = 1) := by
  induction l with
  | nil => simp
  | cons c rest ih =>
    obtain ⟨hle, hone⟩ := ih fun c hc => h c (List.mem_cons_of_mem _ hc)
    have hpos := List.length_pos_iff.2 (h c List.mem_cons_self)
    simp only [List.flatten_cons, List.length_append, List.length_cons, List.forall_mem_cons]
    exact ⟨by omega, fun hge => ⟨by omega, hone (by omega)⟩⟩

end CircuitEquiv.Reach
