-- SUMMARY: A layered search finds the lengths of shortest paths to the nearest source.
import CircuitEquiv.Proofs.Data.Reach
import Mathlib.Combinatorics.SimpleGraph.Metric

/-!
# Shortest distances

The distance of a vertex to a set is the length of a shortest path to a vertex of the set, infinite where
no path leads there. A vertex one step from another one is at most one step farther, and a vertex beyond
distance zero has a neighbour one step nearer. So the layers of a search are the vertices at distance
zero, one, two and so on, and what the search does not find is infinitely far.
-/

namespace CircuitEquiv

/-! ## The nearest vertex of a set -/

section Nearest

variable {V : Type} {G : SimpleGraph V} {S : Set V} {u v : V} {k : Nat}

/-- The length of a shortest path from a vertex to one of the set, infinite where there is none. -/
noncomputable def nearest (G : SimpleGraph V) (S : Set V) (v : V) : ℕ∞ := ⨅ s ∈ S, G.edist v s

theorem nearest_le {s : V} (hs : s ∈ S) : nearest G S v ≤ G.edist v s := iInf₂_le s hs

/-- A finite distance is that to some vertex of the set. -/
theorem exists_edist_eq_nearest (h : nearest G S v ≠ ⊤) : ∃ s ∈ S, G.edist v s = nearest G S v := by
  have hne : S.Nonempty := by
    by_contra hempty
    apply h
    simp [nearest, Set.not_nonempty_iff_eq_empty.1 hempty]
  obtain ⟨s, hs, heq⟩ := csInf_mem (hne.image (G.edist v))
  exact ⟨s, hs, by rw [heq, nearest, sInf_image]⟩

/-- A step leads at most one step away. -/
theorem nearest_le_of_adj (h : G.Adj u v) : nearest G S v ≤ nearest G S u + 1 := by
  by_cases htop : nearest G S u = ⊤
  · simp [htop]
  · obtain ⟨s, hs, heq⟩ := exists_edist_eq_nearest htop
    calc nearest G S v ≤ G.edist v s := nearest_le hs
      _ ≤ G.edist v u + G.edist u s := SimpleGraph.edist_triangle
      _ = nearest G S u + 1 := by rw [SimpleGraph.edist_eq_one_iff_adj.2 h.symm, heq, add_comm]

/-- A vertex that is not in the set but can reach it has a neighbour one step nearer. -/
theorem exists_adj_of_nearest_eq (h : nearest G S v = (k + 1 : Nat)) :
    ∃ u, G.Adj u v ∧ nearest G S u = k := by
  obtain ⟨s, hs, heq⟩ := exists_edist_eq_nearest (by simp [h] : nearest G S v ≠ ⊤)
  obtain ⟨w, hw⟩ := SimpleGraph.exists_walk_of_edist_ne_top (by simp [heq, h] : G.edist v s ≠ ⊤)
  rw [heq, h, Nat.cast_inj] at hw
  cases w with
  | nil => cases hw
  | @cons _ u _ hadj w =>
    have hlength : w.length = k := by simpa using hw
    refine ⟨u, hadj.symm, le_antisymm ?_ ?_⟩
    · calc nearest G S u ≤ G.edist u s := nearest_le hs
        _ ≤ w.length := SimpleGraph.edist_le w
        _ = k := by rw [hlength]
    · have hstep : nearest G S v ≤ nearest G S u + 1 := nearest_le_of_adj hadj.symm
      rw [h, Nat.cast_add, Nat.cast_one] at hstep
      exact (ENat.add_le_add_iff_right (by simp)).1 hstep

end Nearest

namespace Reach

/-! ## Layers of a search -/

variable {next : Nat → List Nat} {G : SimpleGraph Nat} {S : Set Nat} {d k n v : Nat} {layer : List Nat}
  {found : SortedMap Nat Nat}

/-- Everything at most `d` steps away is found, with its distance, and the layer is what is `d` steps
away. -/
structure IsLayered (G : SimpleGraph Nat) (S : Set Nat) (d : Nat) (layer : List Nat)
    (found : SortedMap Nat Nat) : Prop where
  get?_eq_some_iff : ∀ v k, found.get? v = some k ↔ nearest G S v = k ∧ k ≤ d
  mem_layer_iff : ∀ v, v ∈ layer ↔ nearest G S v = d

theorem IsLayered.mem_keys_iff (h : IsLayered G S d layer found) :
    v ∈ found.keys ↔ nearest G S v ≤ d := by
  rw [SortedMap.mem_keys_iff]
  constructor
  · rintro ⟨k, hk⟩
    obtain ⟨heq, hle⟩ := (h.get?_eq_some_iff v k).1 hk
    rw [heq]
    exact_mod_cast hle
  · intro hle
    obtain ⟨k, hk⟩ := ENat.ne_top_iff_exists.1 (ne_top_of_le_ne_top (ENat.natCast_ne_top d) hle)
    exact ⟨k, (h.get?_eq_some_iff v k).2 ⟨hk.symm, by rw [← hk] at hle; exact_mod_cast hle⟩⟩

variable (hG : ∀ u v, G.Adj u v ↔ v ∈ next u)
include hG

/-- The new neighbours of a layer are the vertices one step farther. -/
theorem IsLayered.mem_fresh_iff (h : IsLayered G S d layer found) :
    v ∈ (SortedSet.ofList ((layer.flatMap next).filter (!found.contains ·))).toList ↔
      nearest G S v = (d + 1 : Nat) := by
  rw [mem_fresh, h.mem_keys_iff]
  constructor
  · rintro ⟨hnew, u, hu, hv⟩
    have hstep : nearest G S v ≤ nearest G S u + 1 := nearest_le_of_adj ((hG u v).2 hv)
    rw [(h.mem_layer_iff u).1 hu] at hstep
    exact le_antisymm hstep (Order.add_one_le_of_lt (not_le.1 hnew))
  · intro hv
    obtain ⟨u, hadj, hu⟩ := exists_adj_of_nearest_eq hv
    refine ⟨?_, u, (h.mem_layer_iff u).2 hu, (hG u v).1 hadj⟩
    rw [hv, not_le]
    exact_mod_cast Nat.lt_succ_self d

/-- One round of a search goes one step farther. -/
theorem IsLayered.round (h : IsLayered G S d layer found) :
    IsLayered G S (d + 1) (SortedSet.ofList ((layer.flatMap next).filter (!found.contains ·))).toList
      ((SortedSet.ofList ((layer.flatMap next).filter (!found.contains ·))).toList.foldl
        (fun found v => found.insert v (d + 1)) found) where
  mem_layer_iff v := h.mem_fresh_iff hG
  get?_eq_some_iff v k := by
    rw [get?_foldl_insert]
    by_cases hv : nearest G S v = (d + 1 : Nat)
    · rw [if_pos ((h.mem_fresh_iff hG).2 hv), hv, Option.some_inj, Nat.cast_inj]
      exact ⟨fun heq => ⟨heq, heq.ge⟩, fun hk => hk.1⟩
    · rw [if_neg fun hmem => hv ((h.mem_fresh_iff hG).1 hmem), h.get?_eq_some_iff]
      refine and_congr_right fun hk => ⟨fun hle => hle.trans d.le_succ, fun hle => ?_⟩
      refine Nat.le_of_lt_succ (lt_of_le_of_ne hle ?_)
      rintro rfl
      exact hv hk

end Reach

end CircuitEquiv
