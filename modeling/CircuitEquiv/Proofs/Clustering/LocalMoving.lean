-- SUMMARY: Every move of a vertex raises the quality of the communities, so that moving comes to an end.
import CircuitEquiv.Proofs.Clustering.Levels
import Mathlib.Algebra.BigOperators.Field
import Mathlib.Algebra.Order.Field.Rat
import Mathlib.Data.Fintype.Pi
import Mathlib.Data.Fintype.BigOperators
import Mathlib.Tactic.FieldSimp
import Mathlib.Tactic.Linarith
import Mathlib.Tactic.Ring

/-!
# Local moving

With exact gains, the gain of a vertex in a community is the sum of what it has in common with the other
members, edges counting for it and products of degrees against it. The quality of the communities is the
sum of the gains of all vertices where they are. A vertex that moves to a better gain raises the quality by
twice the difference, since its former and its new neighbours gain as much as it does itself. There are
finitely many ways to share vertices out, so there are finitely many sweeps in which a vertex moves.
-/

namespace CircuitEquiv.Modularity

open Finset (range)
open Relation (ReflTransGen)

/-- The difference of gains that does not move a vertex yet. -/
def leastGain : Rat := 1 / (1000000000000 : Nat)

theorem leastGain_pos : 0 < leastGain := by
  unfold leastGain
  norm_num

namespace Level

variable {level : Level} {γ : Rat} {label label' : Nat → Nat} {u v c : Nat}

/-! ## Quality -/

/-- What two vertices contribute where they are in one community. -/
def attraction (level : Level) (γ : Rat) (v u : Nat) : Rat :=
  level.weight v u - γ * level.degree v * level.degree u / level.twoM

/-- What a vertex has in common with the other members of a community: its gain there. -/
def pull (level : Level) (γ : Rat) (label : Nat → Nat) (v c : Nat) : Rat :=
  ∑ u ∈ range level.size with label u = c ∧ u ≠ v, level.attraction γ v u

/-- The quality of communities: the gains of all vertices where they are. -/
def quality (level : Level) (γ : Rat) (label : Nat → Nat) : Rat :=
  ∑ v ∈ range level.size, level.pull γ label v (label v)

/-- No community of a neighbour is better for the vertex than its own one by more than the least gain. -/
def IsSettled (level : Level) (γ : Rat) (label : Nat → Nat) (v : Nat) : Prop :=
  ∀ u, 0 < level.weight v u →
    level.pull γ label v (label u) ≤ level.pull γ label v (label v) + leastGain

theorem pull_congr (h : ∀ u < level.size, label' u = label u) :
    level.pull γ label' v c = level.pull γ label v c := by
  refine Finset.sum_congr (Finset.filter_congr fun u hu => ?_) fun _ _ => rfl
  rw [h u (Finset.mem_range.1 hu)]

/-- Only the communities of the vertices count. -/
theorem quality_congr (h : ∀ u < level.size, label' u = label u) :
    level.quality γ label' = level.quality γ label :=
  Finset.sum_congr rfl fun v hv => by rw [pull_congr h, h v (Finset.mem_range.1 hv)]

/-- A sum over a community, with the term of one vertex apart. -/
theorem sum_members_eq {M : Type} [AddCommMonoid M] (f : Nat → M) (hv : v < level.size) :
    ∑ u ∈ range level.size with label u = c, f u =
      (if label v = c then f v else 0) + ∑ u ∈ range level.size with label u = c ∧ u ≠ v, f u := by
  rw [Finset.sum_filter, Finset.sum_filter, ← Finset.add_sum_erase _ _ (Finset.mem_range.2 hv),
    ← Finset.add_sum_erase (range level.size) (fun u => if label u = c ∧ u ≠ v then f u else 0)
      (Finset.mem_range.2 hv)]
  rw [if_neg (c := label v = c ∧ v ≠ v) fun h => h.2 rfl, zero_add]
  refine congrArg _ (Finset.sum_congr rfl fun u hu => ?_)
  simp [Finset.ne_of_mem_erase hu]

/-- Moving a vertex leaves the other members of every community as they are. -/
theorem members_update (label : Nat → Nat) (v d c n : Nat) :
    (range n).filter (fun u => Function.update label v d u = c ∧ u ≠ v) =
      (range n).filter fun u => label u = c ∧ u ≠ v := by
  refine Finset.filter_congr fun u _ => and_congr_left fun hne => ?_
  rw [Function.update_of_ne hne]

/-- Moving another vertex takes it out of the gain in its former community and into the one in its new
community. -/
theorem pull_update_of_ne (hv : v < level.size) (hne : u ≠ v) (d : Nat) :
    level.pull γ (Function.update label v d) u c = level.pull γ label u c +
      ((if d = c then level.attraction γ u v else 0) -
        if label v = c then level.attraction γ u v else 0) := by
  have hsplit : ∀ label : Nat → Nat, level.pull γ label u c =
      (if label v = c then level.attraction γ u v else 0) +
        ∑ x ∈ range level.size with label x = c ∧ x ≠ v, if x ≠ u then level.attraction γ u x else 0 :=
    fun label => by
      have h : ∑ x ∈ range level.size with label x = c, (if x ≠ u then level.attraction γ u x else 0) = _ :=
        sum_members_eq _ hv
      rw [if_pos hne.symm] at h
      rw [← h, pull, Finset.sum_filter, Finset.sum_filter]
      exact Finset.sum_congr rfl fun x _ => by rw [ite_and]
  rw [hsplit, hsplit, members_update, Function.update_self]
  ring

theorem attraction_comm (h : level.IsProper) (v u : Nat) :
    level.attraction γ v u = level.attraction γ u v := by
  rw [attraction, attraction, h.weight_comm]
  ring

/-- What the other vertices have in common with a vertex, among those of a community. -/
theorem sum_attraction_erase (h : level.IsProper) (v c : Nat) :
    ∑ u ∈ (range level.size).erase v, (if c = label u then level.attraction γ u v else 0) =
      level.pull γ label v c := by
  rw [pull, Finset.sum_ite, Finset.sum_const_zero, add_zero]
  refine Finset.sum_congr ?_ fun u _ => attraction_comm h u v
  ext u
  simp only [Finset.mem_filter, Finset.mem_erase]
  tauto

/-- A vertex that moves raises the quality by twice the difference of its gains. -/
theorem quality_update (h : level.IsProper) (hv : v < level.size) (d : Nat) :
    level.quality γ (Function.update label v d) =
      level.quality γ label + 2 * (level.pull γ label v d - level.pull γ label v (label v)) := by
  have hmem := Finset.mem_range.2 hv
  have hself : level.pull γ (Function.update label v d) v d = level.pull γ label v d := by
    rw [pull, members_update]
    rfl
  have hothers : ∑ u ∈ (range level.size).erase v,
      level.pull γ (Function.update label v d) u (Function.update label v d u) =
      (∑ u ∈ (range level.size).erase v, level.pull γ label u (label u)) +
        (level.pull γ label v d - level.pull γ label v (label v)) := by
    rw [← sum_attraction_erase h v d, ← sum_attraction_erase h v (label v), ← Finset.sum_sub_distrib,
      ← Finset.sum_add_distrib]
    refine Finset.sum_congr rfl fun u hu => ?_
    have hne := Finset.ne_of_mem_erase hu
    rw [Function.update_of_ne hne, pull_update_of_ne hv hne]
  rw [quality, quality, ← Finset.add_sum_erase _ _ hmem, hothers, Function.update_self, hself,
    ← Finset.add_sum_erase _ _ hmem]
  ring

/-! ## Gains -/

/-- The gain of a vertex in a community, from the weights and the degrees of the other members. -/
theorem pull_eq (level : Level) (γ : Rat) (label : Nat → Nat) (v c : Nat) : level.pull γ label v c =
    (∑ u ∈ range level.size with label u = c ∧ u ≠ v, level.weight v u : Nat) -
      γ * level.degree v * (∑ u ∈ range level.size with label u = c ∧ u ≠ v, level.degree u : Nat) /
        level.twoM := by
  simp only [pull, attraction, Nat.cast_sum, Finset.sum_sub_distrib, Finset.mul_sum, Finset.sum_div]

/-- The gain that is computed is what the vertex has in common with the members. -/
theorem gain_eq_pull (h : level.IsProper) (community : Array Nat) (v c total : Nat)
    (htotal : total = ∑ u ∈ range level.size with labelIn community u = c ∧ u ≠ v, level.degree u) :
    (exactGain γ).gain ((level.links community v).getD c 0) (level.degree v) total level.twoM =
      level.pull γ (labelIn community) v c := by
  have hlink : (level.links community v).getD c 0 =
      ∑ u ∈ range level.size with labelIn community u = c ∧ u ≠ v, level.weight v u := by
    rw [h.getD_links]
    by_cases hv : v < level.size
    · rw [sum_members_eq _ hv, h.weight_self, ite_self, Nat.zero_add]
    · simp only [weight_of_not_lt hv, Finset.sum_const_zero]
  rw [pull_eq, ← hlink, ← htotal]
  rfl

end Level

/-- Going through the links, the best community so far is only replaced by one with a greater gain. It is
better than all others but for the least gain. -/
theorem foldl_best {γ : Rat} (gain : Nat → Nat → Rat) {g : Nat → Rat} {l : List (Nat × Nat)}
    (hg : ∀ e ∈ l, gain e.1 e.2 = g e.1) (b : Nat) :
    ∃ c, l.foldl (fun best (c, link) =>
        if (exactGain γ).exceeds (gain c link) best.2 then (c, gain c link) else best) (b, g b) = (c, g c) ∧
      (c = b ∨ c ∈ l.map (·.1) ∧ g b < g c) ∧ ∀ d ∈ l.map (·.1), g d ≤ g c + leastGain := by
  induction l generalizing b with
  | nil => exact ⟨b, rfl, .inl rfl, fun d hd => absurd hd List.not_mem_nil⟩
  | cons e rest ih =>
    have hfirst := hg e List.mem_cons_self
    have hrest : ∀ e ∈ rest, gain e.1 e.2 = g e.1 := fun e he => hg e (List.mem_cons_of_mem _ he)
    rw [List.foldl_cons, List.map_cons]
    by_cases hexceeds : g b + leastGain < g e.1
    · have hstep : (exactGain γ).exceeds (gain e.1 e.2) (g b) = true := by
        rw [hfirst]
        exact decide_eq_true hexceeds
      obtain ⟨c, hfold, hc, hbest⟩ := ih hrest e.1
      have hlt : g b < g c := by
        have := leastGain_pos
        rcases hc with rfl | ⟨-, hlt⟩ <;> linarith
      have hle : g e.1 ≤ g c := by
        rcases hc with rfl | ⟨-, hlt⟩
        · exact le_refl _
        · exact hlt.le
      refine ⟨c, ?_, .inr ⟨?_, hlt⟩, fun d hd => ?_⟩
      · dsimp only
        rw [if_pos hstep, hfirst, hfold]
      · rcases hc with rfl | ⟨hc, -⟩
        · exact List.mem_cons_self
        · exact List.mem_cons_of_mem _ hc
      · rcases List.mem_cons.1 hd with rfl | hd
        · have := leastGain_pos
          linarith
        · exact hbest d hd
    · have hstep : ¬(exactGain γ).exceeds (gain e.1 e.2) (g b) = true := by
        rw [hfirst]
        exact fun h => hexceeds (of_decide_eq_true h)
      obtain ⟨c, hfold, hc, hbest⟩ := ih hrest b
      refine ⟨c, ?_, hc.imp_right fun hc => ⟨List.mem_cons_of_mem _ hc.1, hc.2⟩, fun d hd => ?_⟩
      · dsimp only
        rw [if_neg hstep, hfold]
      · rcases List.mem_cons.1 hd with rfl | hd
        · rcases hc with rfl | ⟨-, hlt⟩ <;> linarith
        · exact hbest d hd

namespace Level

variable {level : Level} {γ : Rat} {u v c : Nat}

/-- The best community for a vertex is its own one or that of a neighbour where its gain is greater, and
no neighbour's community is better by more than the least gain. -/
theorem bestCommunity_cases (h : level.IsProper) {community totals : Array Nat}
    (htotals : ∀ c, labelIn totals c =
      ∑ u ∈ range level.size with labelIn community u = c ∧ u ≠ v, level.degree u) (current : Nat) :
    ∃ c, bestCommunity (exactGain γ) level.twoM (level.degree v) totals (level.links community v)
        current = c ∧
      (c = current ∨ (∃ u, 0 < level.weight v u ∧ labelIn community u = c) ∧
        level.pull γ (labelIn community) v current < level.pull γ (labelIn community) v c) ∧
      ∀ u, 0 < level.weight v u → level.pull γ (labelIn community) v (labelIn community u) ≤
        level.pull γ (labelIn community) v c + leastGain := by
  have hgain : ∀ d, (exactGain γ).gain ((level.links community v).getD d 0) (level.degree v)
      (labelIn totals d) level.twoM = level.pull γ (labelIn community) v d :=
    fun d => gain_eq_pull h community v d _ (htotals d)
  obtain ⟨c, hfold, hc, hbest⟩ := foldl_best (γ := γ)
    (fun d link => (exactGain γ).gain link (level.degree v) (labelIn totals d) level.twoM)
    (g := level.pull γ (labelIn community) v) (l := (level.links community v).entries)
    (fun e he => by rw [← hgain, SortedMap.getD_of_mem he]) current
  refine ⟨c, ?_, hc.imp_right fun hc => ⟨h.mem_keys_links.1 hc.1, hc.2⟩,
    fun u hu => hbest _ (h.mem_keys_links.2 ⟨u, hu, rfl⟩)⟩
  rw [← hgain current] at hfold
  exact congrArg Prod.fst hfold

end Level

/-! ## Moving a vertex -/

variable {level : Level} {γ : Rat} {s t : Moving} {u v c : Nat}

theorem labelIn_modify {table : Array Nat} {i : Nat} (hi : i < table.size) (f : Nat → Nat) (c : Nat) :
    labelIn (table.modify i f) c = if c = i then f (labelIn table c) else labelIn table c := by
  rw [labelIn, labelIn, Array.getElem?_modify]
  by_cases hc : i = c
  · subst hc
    simp [hi]
  · rw [if_neg hc, if_neg (Ne.symm hc)]

theorem labelIn_setIfInBounds {table : Array Nat} {i : Nat} (hi : i < table.size) (x : Nat) :
    labelIn (table.setIfInBounds i x) = Function.update (labelIn table) i x := by
  funext c
  rw [labelIn, Array.getElem?_setIfInBounds]
  by_cases hc : i = c
  · subst hc
    simp [hi]
  · rw [if_neg hc, Function.update_of_ne (Ne.symm hc)]
    rfl

theorem setIfInBounds_labelIn (table : Array Nat) (i : Nat) :
    table.setIfInBounds i (labelIn table i) = table := by
  apply Array.ext_getElem?
  intro c
  rw [Array.getElem?_setIfInBounds]
  by_cases hc : i = c
  · subst hc
    rw [if_pos rfl]
    split
    · rename_i hi
      rw [labelIn, Array.getElem?_eq_getElem hi]
      rfl
    · rename_i hi
      rw [Array.getElem?_eq_none (Nat.not_lt.1 hi)]
  · rw [if_neg hc]

/-- Every vertex has a community and every community its total. -/
structure Moving.IsValid (level : Level) (s : Moving) : Prop where
  community_size : s.community.size = level.size
  label_lt : ∀ v < level.size, labelIn s.community v < level.size
  totals_size : s.totals.size = level.size
  totals : ∀ c, labelIn s.totals c =
    ∑ u ∈ range level.size with labelIn s.community u = c, level.degree u

/-- The labels that come from others by letting vertices join the communities of neighbours. -/
def Joins (level : Level) : (Nat → Nat) → (Nat → Nat) → Prop := ReflTransGen fun label label' =>
  ∃ v u, 0 < level.weight v u ∧ label' = Function.update label v (label u)

/-- A number that is no vertex does not move. -/
theorem moveVertex_of_not_lt (h : level.IsProper) (hv : ¬v < level.size) (s : Moving) :
    moveVertex (exactGain γ) level level.twoM s v = s := by
  have hedges : level.edges v = SortedMap.empty := by
    rw [Level.edges, Array.getElem?_eq_none (Nat.not_lt.1 hv)]
    rfl
  have hlinks : level.links s.community v = SortedMap.empty := by
    rw [Level.links, hedges]
    rfl
  have hsame : ∀ (table : Array Nat) (i : Nat) (f : Nat → Nat), (∀ x, f x = x) →
      table.modify i f = table := fun table i f hf => by
    apply Array.ext_getElem?
    intro c
    rw [Array.getElem?_modify]
    split
    · rw [funext hf]
      exact Option.map_id'
    · rfl
  have hbest : ∀ (k : Nat) (totals : Array Nat) (current : Nat), bestCommunity (exactGain γ) level.twoM k
      totals SortedMap.empty current = current := fun _ _ _ => rfl
  unfold moveVertex
  dsimp only
  rw [h.degree_of_not_lt hv, hlinks, hbest, hsame _ _ _ Nat.sub_zero, hsame _ _ _ Nat.add_zero]
  rw [bne_self_eq_false, Bool.or_false]
  exact congrArg (fun community => { s with community }) (setIfInBounds_labelIn s.community v)

/-- A vertex either stays where it is settled, or it joins the community of a neighbour and raises the
quality. -/
theorem moveVertex_cases (h : level.IsProper) (hs : s.IsValid level) (v : Nat) :
    ∃ t, moveVertex (exactGain γ) level level.twoM s v = t ∧ t.IsValid level ∧
      (t.community = s.community ∧ t.moved = s.moved ∧ level.IsSettled γ (labelIn s.community) v ∨
        t.moved = true ∧ level.quality γ (labelIn s.community) < level.quality γ (labelIn t.community) ∧
          Joins level (labelIn s.community) (labelIn t.community)) := by
  by_cases hv : v < level.size
  swap
  · rw [moveVertex_of_not_lt h hv]
    refine ⟨s, rfl, hs, .inl ⟨rfl, rfl, fun u hu => ?_⟩⟩
    exact absurd (Level.IsProper.lt_of_weight_pos hu) hv
  let totals := s.totals.modify (labelIn s.community v) (· - level.degree v)
  have hsize : totals.size = level.size := Array.size_modify.trans hs.totals_size
  -- the totals without the vertex
  have htotals : ∀ c, labelIn totals c =
      ∑ u ∈ range level.size with labelIn s.community u = c ∧ u ≠ v, level.degree u := fun c => by
    have hc := hs.totals c
    rw [Level.sum_members_eq _ hv] at hc
    rw [labelIn_modify (hs.totals_size ▸ hs.label_lt v hv), hc]
    by_cases hcv : c = labelIn s.community v
    · rw [if_pos hcv, if_pos hcv.symm, Nat.add_sub_cancel_left]
    · rw [if_neg hcv, if_neg (Ne.symm hcv), Nat.zero_add]
  obtain ⟨c, hbest, hc, hsettled⟩ :=
    Level.bestCommunity_cases (γ := γ) (v := v) h htotals (labelIn s.community v)
  have hclt : c < level.size := by
    rcases hc with rfl | ⟨⟨u, hu, rfl⟩, -⟩
    · exact hs.label_lt v hv
    · exact hs.label_lt u (h.right_lt_of_weight_pos hu)
  have hlabel := labelIn_setIfInBounds (hs.community_size ▸ hv) c
  refine ⟨⟨s.community.setIfInBounds v c, totals.modify c (· + level.degree v),
    s.moved || c != labelIn s.community v⟩, ?_, ⟨?_, fun u hu => ?_, ?_, fun d => ?_⟩, ?_⟩
  · rw [← hbest]
    rfl
  · rw [Array.size_setIfInBounds, hs.community_size]
  · show labelIn (s.community.setIfInBounds v c) u < level.size
    rw [hlabel]
    by_cases huv : u = v
    · rw [huv, Function.update_self]
      exact hclt
    · rw [Function.update_of_ne huv]
      exact hs.label_lt u hu
  · rw [Array.size_modify, hsize]
  · show labelIn (totals.modify c (· + level.degree v)) d =
      ∑ u ∈ range level.size with labelIn (s.community.setIfInBounds v c) u = d, level.degree u
    rw [labelIn_modify (hsize ▸ hclt), htotals, hlabel, Level.sum_members_eq _ hv, Level.members_update,
      Function.update_self]
    by_cases hdc : d = c
    · rw [if_pos hdc, if_pos hdc.symm, Nat.add_comm]
    · rw [if_neg hdc, if_neg (Ne.symm hdc), Nat.zero_add]
  · show s.community.setIfInBounds v c = s.community ∧ _ ∧ _ ∨ _
    by_cases hcv : c = labelIn s.community v
    · rw [hcv, setIfInBounds_labelIn, bne_self_eq_false, Bool.or_false]
      rw [hcv] at hsettled
      exact .inl ⟨rfl, rfl, hsettled⟩
    · obtain ⟨⟨u, hu, rfl⟩, hlt⟩ := hc.resolve_left hcv
      refine .inr ⟨?_, ?_, ?_⟩
      · rw [bne_iff_ne.2 hcv, Bool.or_true]
      · rw [hlabel, Level.quality_update h hv]
        linarith
      · rw [hlabel]
        exact .single ⟨v, u, hu, rfl⟩

/-! ## Sweeps -/

/-- The state with no vertex moved yet is as valid. -/
theorem Moving.IsValid.rested (hs : s.IsValid level) (moved : Bool) :
    { s with moved : Moving }.IsValid level :=
  ⟨hs.community_size, hs.label_lt, hs.totals_size, hs.totals⟩

/-- Visiting vertices one after the other either leaves all communities as they are, and then the visited
vertices are settled, or it raises the quality. -/
theorem foldl_moveVertex_cases (h : level.IsProper) (hs : s.IsValid level) (order : List Nat) :
    ∃ t, order.foldl (moveVertex (exactGain γ) level level.twoM) s = t ∧ t.IsValid level ∧
      Joins level (labelIn s.community) (labelIn t.community) ∧
      (t.community = s.community ∧ t.moved = s.moved ∧
          (∀ v ∈ order, level.IsSettled γ (labelIn s.community) v) ∨
        t.moved = true ∧ level.quality γ (labelIn s.community) < level.quality γ (labelIn t.community)) := by
  induction order generalizing s with
  | nil => exact ⟨s, rfl, hs, .refl, .inl ⟨rfl, rfl, fun v hv => absurd hv List.not_mem_nil⟩⟩
  | cons v rest ih =>
    obtain ⟨mid, hmid, hvalid, hstep⟩ := moveVertex_cases (γ := γ) h hs v
    obtain ⟨t, ht, htvalid, hjoins, hrest⟩ := ih hvalid
    refine ⟨t, by rw [List.foldl_cons, hmid, ht], htvalid, ?_⟩
    rcases hstep with ⟨hcommunity, hmoved, hsettled⟩ | ⟨hmoved, hlt, hjoin⟩
    · rw [hcommunity] at hjoins hrest
      refine ⟨hjoins, hrest.imp_left fun ⟨hc, hm, hall⟩ => ⟨hc, hm.trans hmoved, ?_⟩⟩
      exact List.forall_mem_cons.2 ⟨hsettled, hall⟩
    · refine ⟨hjoin.trans hjoins, .inr ?_⟩
      rcases hrest with ⟨hc, hm, -⟩ | ⟨hm, hle⟩
      · rw [hc, hm]
        exact ⟨hmoved, hlt⟩
      · exact ⟨hm, hlt.trans hle⟩

/-- One visit of all vertices in order. -/
def sweep {R : Type} (rule : GainRule R) (level : Level) (order : List Nat) (s : Moving) : Moving :=
  order.foldl (moveVertex rule level level.twoM) { s with moved := false }

theorem sweep_cases (h : level.IsProper) (hs : s.IsValid level) (order : List Nat) :
    (sweep (exactGain γ) level order s).IsValid level ∧
    Joins level (labelIn s.community) (labelIn (sweep (exactGain γ) level order s).community) ∧
    ((sweep (exactGain γ) level order s).moved = false ∧
        (∀ v ∈ order, level.IsSettled γ (labelIn (sweep (exactGain γ) level order s).community) v) ∨
      (sweep (exactGain γ) level order s).moved = true ∧ level.quality γ (labelIn s.community) <
        level.quality γ (labelIn (sweep (exactGain γ) level order s).community)) := by
  obtain ⟨t, ht, hvalid, hjoins, hcases⟩ := foldl_moveVertex_cases (γ := γ) h (hs.rested false) order
  rw [sweep, ht]
  refine ⟨hvalid, hjoins, hcases.imp_left fun ⟨hcommunity, hmoved, hsettled⟩ => ⟨hmoved, ?_⟩⟩
  rw [hcommunity]
  exact hsettled

/-! ## The end of moving -/

/-- Sweeps lead from one state to another, the last of them moves no vertex, and the flag tells whether
any of them did. -/
inductive SweepsTo {R : Type} (rule : GainRule R) (level : Level) (order : List Nat) :
    Moving → Moving → Bool → Prop
  | settled {s : Moving} : (sweep rule level order s).moved = false →
      SweepsTo rule level order s (sweep rule level order s) false
  | again {s t : Moving} {moved : Bool} : (sweep rule level order s).moved = true →
      SweepsTo rule level order (sweep rule level order s) t moved → SweepsTo rule level order s t true

theorem SweepsTo.unique {R : Type} {rule : GainRule R} {order : List Nat} {t' : Moving} {moved moved' : Bool}
    (h : SweepsTo rule level order s t moved) (h' : SweepsTo rule level order s t' moved') :
    t = t' ∧ moved = moved' := by
  induction h generalizing moved' with
  | settled hmoved =>
    cases h' with
    | settled _ => exact ⟨rfl, rfl⟩
    | again hmoved' _ => exact absurd (hmoved.symm.trans hmoved') Bool.false_ne_true
  | again hmoved _ ih =>
    cases h' with
    | settled hmoved' => exact absurd (hmoved'.symm.trans hmoved) Bool.false_ne_true
    | again _ hrest => exact ⟨(ih hrest).1, rfl⟩

/-- The number of ways to share the vertices out that are better than the given one. -/
noncomputable def rank (level : Level) (γ : Rat) (label : Nat → Nat) : Nat :=
  (Finset.univ.filter fun f : Fin level.size → Fin level.size => level.quality γ label <
    level.quality γ fun v => if hv : v < level.size then (f ⟨v, hv⟩).1 else 0).card

theorem exists_assignment (hs : s.IsValid level) : ∃ f : Fin level.size → Fin level.size,
    level.quality γ (fun v => if hv : v < level.size then (f ⟨v, hv⟩).1 else 0) =
      level.quality γ (labelIn s.community) := by
  refine ⟨fun v => ⟨labelIn s.community v, hs.label_lt v v.isLt⟩, Level.quality_congr fun v hv => ?_⟩
  rw [dif_pos hv]

theorem rank_lt_rank (ht : t.IsValid level)
    (hlt : level.quality γ (labelIn s.community) < level.quality γ (labelIn t.community)) :
    rank level γ (labelIn t.community) < rank level γ (labelIn s.community) := by
  obtain ⟨f, hf⟩ := exists_assignment (γ := γ) ht
  refine Finset.card_lt_card ⟨fun g hg => ?_, fun hsub => ?_⟩
  · exact Finset.mem_filter.2 ⟨Finset.mem_univ g, hlt.trans (Finset.mem_filter.1 hg).2⟩
  · have hmem := hsub (Finset.mem_filter.2 ⟨Finset.mem_univ f, hf ▸ hlt⟩)
    exact lt_irrefl _ (hf ▸ (Finset.mem_filter.1 hmem).2)

theorem rank_lt_visitBound (level : Level) (γ : Rat) (label : Nat → Nat) :
    rank level γ label < visitBound level := by
  refine Nat.lt_succ_of_le ((Finset.card_filter_le _ _).trans ?_)
  rw [Finset.card_univ, Fintype.card_fun, Fintype.card_fin]
  exact le_refl _

/-- The sweeps end: with enough of them allowed, the last one moves no vertex, and all vertices in the
order are settled then. -/
theorem sweepsTo_moveAll (h : level.IsProper) (order : List Nat) {fuel : Nat} (hs : s.IsValid level)
    (hfuel : rank level γ (labelIn s.community) < fuel) :
    ∃ t moved, SweepsTo (exactGain γ) level order s t moved ∧
      moveAll (exactGain γ) level level.twoM order fuel s = { t with moved := s.moved || moved } ∧
      t.IsValid level ∧ Joins level (labelIn s.community) (labelIn t.community) ∧
      ∀ v ∈ order, level.IsSettled γ (labelIn t.community) v := by
  induction fuel generalizing s with
  | zero => exact absurd hfuel (Nat.not_lt_zero _)
  | succ fuel ih =>
    obtain ⟨hvalid, hjoins, hcases⟩ := sweep_cases (γ := γ) h hs order
    have hunfold : moveAll (exactGain γ) level level.twoM order (fuel + 1) s =
        if (sweep (exactGain γ) level order s).moved then
          { moveAll (exactGain γ) level level.twoM order fuel (sweep (exactGain γ) level order s) with
            moved := true }
        else { sweep (exactGain γ) level order s with moved := s.moved } := rfl
    rw [hunfold]
    rcases hcases with ⟨hmoved, hsettled⟩ | ⟨hmoved, hlt⟩
    · refine ⟨_, _, .settled hmoved, ?_, hvalid, hjoins, hsettled⟩
      rw [hmoved, if_neg Bool.false_ne_true, Bool.or_false]
    · have hrank := rank_lt_rank hvalid hlt
      obtain ⟨t, moved, hsweeps, hresult, htvalid, htjoins, hsettled⟩ := ih hvalid (by omega)
      refine ⟨t, true, .again hmoved hsweeps, ?_, htvalid, hjoins.trans htjoins, hsettled⟩
      rw [if_pos hmoved, hresult, Bool.or_true]

/-! ## A whole level -/

/-- The state in which moving starts. -/
def Moving.start (level : Level) (community : Array Nat) : Moving :=
  ⟨community, communityTotals level community, false⟩

theorem labelIn_foldl_modify (f : Nat → Nat) (l : List Nat) (community : Array Nat) {table : Array Nat}
    (hl : ∀ v ∈ l, labelIn community v < table.size) (c : Nat) :
    labelIn (l.foldl (fun table v => table.modify (community[v]?.getD 0) (· + f v)) table) c =
      labelIn table c + ((l.filter fun v => labelIn community v = c).map f).sum := by
  induction l generalizing table with
  | nil => rfl
  | cons v rest ih =>
    have hv : labelIn community v < table.size := hl v List.mem_cons_self
    have hmodify := labelIn_modify hv (· + f v) c
    rw [List.foldl_cons, ih fun u hu => by
      rw [Array.size_modify]
      exact hl u (List.mem_cons_of_mem _ hu)]
    rw [List.filter_cons]
    by_cases hc : labelIn community v = c
    · rw [if_pos (decide_eq_true hc), List.map_cons, List.sum_cons, ← Nat.add_assoc]
      exact congrArg (· + _) (hmodify.trans (if_pos hc.symm))
    · rw [if_neg fun h => hc (of_decide_eq_true h)]
      exact congrArg (· + _) (hmodify.trans (if_neg (Ne.symm hc)))

theorem size_communityTotals (level : Level) (community : Array Nat) :
    (communityTotals level community).size = level.size :=
  foldl_invariant (Q := fun table : Array Nat => table.size = level.size)
    (fun _ _ _ hsize => Array.size_modify.trans hsize) Array.size_replicate

theorem Moving.isValid_start {community : Array Nat} (hsize : community.size = level.size)
    (hlt : ∀ v < level.size, labelIn community v < level.size) :
    (Moving.start level community).IsValid level where
  community_size := hsize
  label_lt := hlt
  totals_size := size_communityTotals level community
  totals c := by
    have hstart : labelIn (Array.replicate level.size 0) c = 0 := by
      rw [labelIn, Array.getElem?_replicate]
      split <;> rfl
    refine (labelIn_foldl_modify level.degree (List.range level.size) community (fun v hv => ?_) c).trans ?_
    · rw [Array.size_replicate]
      exact hlt v (List.mem_range.1 hv)
    · rw [hstart, Nat.zero_add, ← List.sum_toFinset _ (List.nodup_range.filter _)]
      refine Finset.sum_congr ?_ fun _ _ => rfl
      ext v
      rw [List.mem_toFinset, List.mem_filter, List.mem_range, decide_eq_true_eq, Finset.mem_filter,
        Finset.mem_range]
      rfl

/-- What local moving makes of communities: without edges nothing, else what sweeps lead to. -/
inductive LocalMoves {R : Type} (rule : GainRule R) (level : Level) (order : List Nat)
    (community : Array Nat) : Array Nat × Bool → Prop
  | still : level.twoM = 0 → LocalMoves rule level order community (community, false)
  | sweeps {t : Moving} {moved : Bool} : level.twoM ≠ 0 →
      SweepsTo rule level order (.start level community) t moved →
      LocalMoves rule level order community (t.community, moved)

theorem LocalMoves.unique {R : Type} {rule : GainRule R} {order : List Nat} {community : Array Nat}
    {r r' : Array Nat × Bool} (h : LocalMoves rule level order community r)
    (h' : LocalMoves rule level order community r') : r = r' := by
  cases h with
  | still hedges =>
    cases h' with
    | still _ => rfl
    | sweeps hedges' _ => exact absurd hedges hedges'
  | sweeps hedges hsweeps =>
    cases h' with
    | still hedges' => exact absurd hedges' hedges
    | sweeps _ hsweeps' =>
      obtain ⟨rfl, rfl⟩ := hsweeps.unique hsweeps'
      rfl

/-- Local moving ends on every level, whatever the communities at the start, the resolution and the order
are. All vertices in the order are settled then, unless there are no edges. -/
theorem localMoving_ends (h : level.IsProper) (γ : Rat) (order : List Nat) {community : Array Nat}
    (hsize : community.size = level.size) (hlt : ∀ v < level.size, labelIn community v < level.size) :
    ∃ result moved, localMoving (exactGain γ) level order community = (result, moved) ∧
      LocalMoves (exactGain γ) level order community (result, moved) ∧ result.size = level.size ∧
      (∀ v < level.size, labelIn result v < level.size) ∧
      Joins level (labelIn community) (labelIn result) ∧
      (level.twoM ≠ 0 → ∀ v ∈ order, level.IsSettled γ (labelIn result) v) := by
  unfold localMoving
  by_cases hedges : level.twoM = 0
  · rw [if_pos hedges]
    exact ⟨_, _, rfl, .still hedges, hsize, hlt, .refl, fun h => absurd hedges h⟩
  · obtain ⟨t, moved, hsweeps, hresult, hvalid, hjoins, hsettled⟩ :=
      sweepsTo_moveAll h order (Moving.isValid_start hsize hlt) (rank_lt_visitBound level γ _)
    rw [if_neg hedges, ← Moving.start, hresult]
    exact ⟨t.community, moved, rfl, .sweeps hedges hsweeps, hvalid.community_size, hvalid.label_lt,
      hjoins, fun _ => hsettled⟩

end CircuitEquiv.Modularity
