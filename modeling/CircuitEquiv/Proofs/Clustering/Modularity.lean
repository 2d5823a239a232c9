-- SUMMARY: The levels of a pass come to an end, and no piece of a part would rather be in an adjacent part.
import CircuitEquiv.Proofs.Clustering.LocalMoving

/-!
# Modularity

On every level of a pass moving ends, and every next level has fewer vertices, so there are no more levels than
vertices. The vertices of the last level are the connected pieces of the parts, and each of them is settled. A
part need not be connected: a vertex that leaves can cut it in two, and what is cut off stays where it is unless
an adjacent part is better for it. No part reaches beyond a component of the graph.
-/

namespace CircuitEquiv.Modularity

open Finset (range)
open Relation (ReflTransGen)

/-! ## Renumbering -/

section Renumbering

variable {community : Array Nat} {u v : Nat}

theorem labelIn_mem (hv : v < community.size) : labelIn community v ∈ community.toList.eraseDups := by
  rw [labelIn, Array.getElem?_eq_getElem hv, List.mem_eraseDups, Array.mem_toList_iff]
  exact Array.getElem_mem hv

theorem labelIn_renumber (hv : v < community.size) :
    labelIn (renumber community) v = community.toList.eraseDups.idxOf (labelIn community v) := by
  rw [labelIn, renumber, Array.getElem?_map, labelIn, Array.getElem?_eq_getElem hv]
  rfl

theorem size_renumber (community : Array Nat) : (renumber community).size = community.size := Array.size_map

theorem labelIn_renumber_lt (hv : v < community.size) :
    labelIn (renumber community) v < community.size := by
  rw [labelIn_renumber hv, ← Array.length_toList]
  have hlength : community.toList.eraseDups.length ≤ community.toList.length :=
    (nodup_eraseDups _).length_le_of_subset fun _ h => List.mem_eraseDups.1 h
  exact (List.idxOf_lt_length_of_mem (labelIn_mem hv)).trans_le hlength

/-- Renumbering keeps apart what was apart. -/
theorem labelIn_renumber_eq_iff (hv : v < community.size) (hu : u < community.size) :
    labelIn (renumber community) v = labelIn (renumber community) u ↔
      labelIn community v = labelIn community u := by
  rw [labelIn_renumber hv, labelIn_renumber hu, List.idxOf_inj (labelIn_mem hv)]

end Renumbering

/-! ## Levels of a pass -/

theorem labelIn_map {table : Array Nat} {v : Nat} (hv : v < table.size) (f : Nat → Nat) :
    labelIn (table.map f) v = f (labelIn table v) := by
  rw [labelIn, Array.getElem?_map, labelIn, Array.getElem?_eq_getElem hv]
  rfl

theorem labelIn_range {n v : Nat} (hv : v < n) : labelIn (Array.range n) v = v := by
  rw [labelIn, Array.getElem?_range, if_pos hv]
  rfl

/-- What a pass goes on with: a level, the vertex of the level that a vertex of the graph belongs to, the
communities to start from, whether a vertex has moved, and the number of the next order. -/
structure Descent where
  level : Level
  home : Array Nat
  community : Array Nat
  moved : Bool
  draw : Nat

namespace Descent

/-- What the levels from here on make of it, if there are at most as many as given. -/
def run {R : Type} (rule : GainRule R) (orders : VisitingOrders) (fuel : Nat) (d : Descent) :
    Array Nat × Bool × Nat :=
  runLevels rule orders fuel d.level d.home d.community d.moved d.draw

/-- The communities of the pieces, when vertices have moved to the given ones. -/
def communityOf (d : Descent) (community : Array Nat) : Array Nat :=
  ((pieces d.level community).map fun piece => labelIn community (piece.headD 0)).toArray

/-- The next level, when vertices have moved to the given communities. -/
def next (d : Descent) (community : Array Nat) (moved : Bool) : Descent where
  level := aggregated d.level community
  home := d.home.map (labelIn (placesOf d.level community))
  community := d.communityOf community
  moved := d.moved || moved
  draw := d.draw + 1

/-- The result on the last level, when vertices have moved to the given communities. -/
def result (d : Descent) (community : Array Nat) (moved : Bool) : Array Nat × Bool × Nat :=
  (d.home.map (labelIn community), d.moved || moved, d.draw + 1)

/-- Local moving on the level leads to the communities. -/
def Moves {R : Type} (rule : GainRule R) (orders : VisitingOrders) (d : Descent) (community : Array Nat)
    (moved : Bool) : Prop :=
  LocalMoves rule d.level (orders d.draw d.level.size) (renumber d.community) (community, moved)

/-- Going from level to level ends with the result on the last of the given number of levels; local moving
ends on every one of them. -/
inductive EndsIn {R : Type} (rule : GainRule R) (orders : VisitingOrders) :
    Descent → Nat → Array Nat × Bool × Nat → Prop
  | last {d : Descent} {community : Array Nat} {moved : Bool} : d.Moves rule orders community moved →
      (pieces d.level community).length = d.level.size →
      EndsIn rule orders d 1 (d.result community moved)
  | next {d : Descent} {community : Array Nat} {moved : Bool} {count : Nat}
      {result : Array Nat × Bool × Nat} : d.Moves rule orders community moved →
      (pieces d.level community).length ≠ d.level.size →
      EndsIn rule orders (d.next community moved) count result →
      EndsIn rule orders d (count + 1) result

/-- The level is that of a graph, and its vertices have communities. -/
structure IsProper (d : Descent) : Prop where
  level : d.level.IsProper
  community_size : d.community.size = d.level.size

variable {γ : Rat} {orders : VisitingOrders} {d : Descent} {community : Array Nat} {moved : Bool}

theorem IsProper.next (h : d.IsProper) (hsize : community.size = d.level.size) :
    (d.next community moved).IsProper where
  level := isProper_aggregated h.level hsize
  community_size := by
    rw [Descent.next, communityOf, List.size_toArray, List.length_map, size_aggregated]

/-- Local moving ends, whatever the communities and the order. -/
theorem IsProper.exists_moves (h : d.IsProper) (γ : Rat) (orders : VisitingOrders) :
    ∃ community moved, d.Moves (exactGain γ) orders community moved ∧
      localMoving (exactGain γ) d.level (orders d.draw d.level.size) (renumber d.community) =
        (community, moved) ∧
      community.size = d.level.size ∧
      Joins d.level (labelIn (renumber d.community)) (labelIn community) ∧
      (d.level.twoM ≠ 0 → ∀ v ∈ orders d.draw d.level.size,
        d.level.IsSettled γ (labelIn community) v) := by
  have hlt : ∀ v < d.level.size, labelIn (renumber d.community) v < d.level.size := fun v hv =>
    (labelIn_renumber_lt (h.community_size ▸ hv)).trans_eq h.community_size
  obtain ⟨community, moved, hmoving, hmoves, hsize, -, hjoins, hsettled⟩ :=
    localMoving_ends h.level γ (orders d.draw d.level.size)
      ((size_renumber _).trans h.community_size) hlt
  exact ⟨community, moved, hmoves, hmoving, hsize, hjoins, hsettled⟩

theorem run_succ (fuel : Nat) (hmoving : localMoving (exactGain γ) d.level
      (orders d.draw d.level.size) (renumber d.community) = (community, moved)) :
    d.run (exactGain γ) orders (fuel + 1) =
      if (pieces d.level community).length = d.level.size then d.result community moved
      else (d.next community moved).run (exactGain γ) orders fuel := by
  rw [run, runLevels, hmoving]
  rfl

/-- The levels end, as every next level has fewer vertices. -/
theorem IsProper.exists_endsIn (h : d.IsProper) (γ : Rat) (orders : VisitingOrders) {fuel : Nat}
    (hfuel : d.level.size < fuel) : ∃ count result, count ≤ max 1 d.level.size ∧
      EndsIn (exactGain γ) orders d count result ∧ d.run (exactGain γ) orders fuel = result := by
  induction fuel generalizing d with
  | zero => exact absurd hfuel (Nat.not_lt_zero _)
  | succ fuel ih =>
    obtain ⟨community, moved, hmoves, hmoving, hsize, -⟩ := h.exists_moves γ orders
    rw [run_succ fuel hmoving]
    by_cases hlast : (pieces d.level community).length = d.level.size
    · rw [if_pos hlast]
      exact ⟨1, _, Nat.le_max_left _ _, .last hmoves hlast, rfl⟩
    · -- fewer pieces than vertices: the levels to come are fewer than the vertices here
      have hle := (length_pieces h.level hsize).1
      have hnext : (d.next community moved).level.size = (pieces d.level community).length :=
        size_aggregated
      have hpos : 0 < (pieces d.level community).length := by
        have hmem := mem_flatten_pieces h.level hsize (v := 0) (by omega)
        obtain ⟨piece, hpiece, -⟩ := List.mem_flatten.1 hmem
        exact List.length_pos_of_mem hpiece
      have hproper : (d.next community moved).IsProper := h.next hsize
      obtain ⟨count, result, hcount, hends, hrun⟩ := ih hproper (by omega)
      rw [if_neg hlast]
      exact ⟨count + 1, result, by omega, .next hmoves hlast hends, hrun⟩

end Descent

/-- A pass as it starts on a graph: every vertex is a vertex of the first level. -/
def Descent.start (level : Level) (membership : Array Nat) (draw : Nat) : Descent :=
  ⟨level, Array.range level.size, membership, false, draw⟩

theorem size_restricted (circuit : Circuit) (keep : Nat → Bool) :
    (Level.ofGraph (.restricted circuit keep)).size = circuit.nConstraints :=
  ConstraintGraph.size_restricted circuit keep

theorem isProper_restricted (circuit : Circuit) (keep : Nat → Bool) :
    (Level.ofGraph (.restricted circuit keep)).IsProper :=
  Level.isProper_ofGraph (isSymmetric_restricted circuit keep)

/-- Local moving ends on every level, and there are at most as many levels as constraints, but at least one:
for every resolution, all communities at the start and all visiting orders. -/
theorem pass_ends (circuit : Circuit) (keep : Nat → Bool) (γ : Rat) (orders : VisitingOrders)
    (membership : Vector Nat circuit.nConstraints) (draw : Nat) :
    let graph := Level.ofGraph (.restricted circuit keep)
    ∃ count result, count ≤ max 1 circuit.nConstraints ∧
      (Descent.start graph membership.toArray draw).EndsIn (exactGain γ) orders count result ∧
      runLevels (exactGain γ) orders (graph.size + 1) graph (Array.range graph.size) membership.toArray
        false draw = result := by
  intro graph
  have hsize : graph.size = circuit.nConstraints := size_restricted circuit keep
  have hproper : (Descent.start graph membership.toArray draw).IsProper :=
    ⟨isProper_restricted circuit keep, membership.size_toArray.trans hsize.symm⟩
  obtain ⟨count, result, hcount, hends, hrun⟩ := hproper.exists_endsIn γ orders (Nat.lt_succ_self _)
  exact ⟨count, result, hsize ▸ hcount, hends, hrun⟩

/-! ## The last level -/

namespace Level

variable {level base last : Level} {γ : Rat} {label place labelOf : Nat → Nat} {u v c : Nat}

/-- A path of edges leads from one vertex to the other. -/
def Linked (level : Level) : Nat → Nat → Prop := ReflTransGen fun a b => 0 < level.weight a b

theorem within_const_iff : level.Within (fun _ => 0) v u ↔ level.Linked v u := by
  simp only [Within, Linked, and_true]

theorem Linked.symm (h : level.IsProper) (hlinked : level.Linked v u) : level.Linked u v := by
  have hsymm : Std.Symm fun a b => 0 < level.weight a b := ⟨fun a b hw => by rwa [h.weight_comm]⟩
  exact ReflTransGen.stdSymm.symm v u hlinked

/-- Vertices of one label are linked. -/
def LinksLabels (level : Level) (label : Nat → Nat) : Prop :=
  ∀ v < level.size, ∀ u < level.size, label v = label u → level.Linked v u

/-- What vertices gain from being together with others: edges count for it and products of degrees against
it. -/
def benefit (level : Level) (γ : Rat) (s t : Finset Nat) : Rat :=
  level.cut s t - γ * level.volume s * level.volume t / level.twoM

/-- The labels of a level are made on a coarser one: its edges lead from label to label, and its vertices are
settled. -/
structure IsOutcome (base : Level) (γ : Rat) (label : Nat → Nat) (last : Level)
    (place labelOf : Nat → Nat) : Prop where
  proper : last.IsProper
  coarsens : base.Coarsens last place
  label_eq : ∀ v < base.size, label v = labelOf (place v)
  apart : ∀ p q, 0 < last.weight p q → labelOf p ≠ labelOf q
  settled : last.twoM ≠ 0 → ∀ p < last.size, last.IsSettled γ labelOf p
  linksLabels : last.LinksLabels labelOf

namespace IsOutcome

variable (h : base.IsOutcome γ label last place labelOf) (hbase : base.IsProper)
include h hbase

/-- The groups are the connected pieces of the labels. -/
theorem within_iff (hv : v < base.size) (hu : u < base.size) :
    base.Within label v u ↔ place v = place u := by
  constructor
  · intro hwithin
    have hlast : last.Within labelOf (place v) (place u) :=
      h.coarsens.within_coarse hbase (hwithin.congr hbase fun v hv => (h.label_eq v hv).symm)
    cases hlast.cases_head with
    | inl heq => exact heq
    | inr hstep =>
      obtain ⟨c, ⟨hw, hlabel⟩, -⟩ := hstep
      exact absurd hlabel.symm (h.apart _ c hw)
  · intro hplace
    refine (h.coarsens.joined v hv u hu hplace).mono fun a b hw heq => ?_
    rw [h.label_eq a (IsProper.lt_of_weight_pos hw), h.label_eq b (hbase.right_lt_of_weight_pos hw), heq]

theorem base_linksLabels : base.LinksLabels label := fun v hv u hu hlabel => by
  rw [h.label_eq v hv, h.label_eq u hu] at hlabel
  have hlast := h.linksLabels _ (h.coarsens.place_lt v hv) _ (h.coarsens.place_lt u hu) hlabel
  exact within_const_iff.1 (h.coarsens.within_fine hbase h.proper hv hu (within_const_iff.2 hlast))

/-- The gain of a vertex of the last level is the benefit of its group. -/
theorem pull_eq_benefit (p c : Nat) : last.pull γ labelOf p c =
    base.benefit γ (base.group place p) (base.group label c \ base.group place p) := by
  have hothers : (range base.size).filter (fun v => labelOf (place v) = c ∧ place v ≠ p) =
      base.group label c \ base.group place p := by
    ext v
    rw [Finset.mem_filter, Finset.mem_sdiff, mem_group, mem_group, Finset.mem_range]
    constructor
    · rintro ⟨hv, hlabel, hne⟩
      exact ⟨⟨hv, (h.label_eq v hv).trans hlabel⟩, fun hp => hne hp.2⟩
    · rintro ⟨⟨hv, hlabel⟩, hne⟩
      exact ⟨hv, (h.label_eq v hv).symm.trans hlabel, fun hp => hne ⟨hv, hp⟩⟩
  rw [pull_eq, h.coarsens.sum_weight (fun q => labelOf q = c ∧ q ≠ p) fun hp => hp.2 rfl,
    h.coarsens.sum_degree fun q => labelOf q = c ∧ q ≠ p, hothers, h.coarsens.degree,
    h.coarsens.twoM_eq hbase h.proper, benefit]

/-- A piece does not gain more than the least gain from joining an adjacent label. -/
theorem benefit_le (hedges : base.twoM ≠ 0) (hv : v < base.size) (hc : c ≠ label v)
    (hcut : 0 < base.cut (base.group place (place v)) (base.group label c)) :
    base.benefit γ (base.group place (place v)) (base.group label c) ≤
      base.benefit γ (base.group place (place v))
        (base.group label (label v) \ base.group place (place v)) + leastGain := by
  obtain ⟨x, hx, y, hy, hw⟩ := cut_pos_iff.1 hcut
  obtain ⟨-, hxv⟩ := mem_group.1 hx
  obtain ⟨hylt, rfl⟩ := mem_group.1 hy
  -- the label of a neighbour is the label of a vertex beside the group on the last level
  have hdisjoint : base.group label (label y) \ base.group place (place v) = base.group label (label y) := by
    refine Finset.sdiff_eq_self_of_disjoint (Finset.disjoint_left.2 fun a ha ha' => hc ?_)
    obtain ⟨ha, hay⟩ := mem_group.1 ha
    rw [← hay, h.label_eq a ha, (mem_group.1 ha').2, ← h.label_eq v hv]
  have hne : place x ≠ place y := fun heq => hc (by
    rw [h.label_eq y hylt, ← heq, hxv, ← h.label_eq v hv])
  have hedge : 0 < last.weight (place v) (place y) := by
    rw [← hxv, h.coarsens.weight _ _ hne, cut_group_pos_iff hbase]
    exact ⟨x, y, hw, rfl, rfl⟩
  have hsettled :=
    h.settled (h.coarsens.twoM_eq hbase h.proper ▸ hedges) _ (h.coarsens.place_lt v hv) _ hedge
  rw [h.pull_eq_benefit hbase, h.pull_eq_benefit hbase, ← h.label_eq y hylt, ← h.label_eq v hv,
    hdisjoint] at hsettled
  exact hsettled

end IsOutcome

/-! ## Labels along a pass -/

theorem LinksLabels.joins {label' : Nat → Nat} (h : level.IsProper) (hlinks : level.LinksLabels label)
    (hjoins : Joins level label label') : level.LinksLabels label' := by
  induction hjoins with
  | refl => exact hlinks
  | @tail mid _ _ hstep ih =>
    obtain ⟨v, u, hw, rfl⟩ := hstep
    have hu := h.right_lt_of_weight_pos hw
    -- a vertex with the label that the vertex takes is linked to it
    have hjoin : ∀ b < level.size, mid u = mid b → level.Linked v b := fun b hb hlabel =>
      .head hw (ih u hu b hb hlabel)
    intro a ha b hb hlabel
    by_cases hav : a = v
    · by_cases hbv : b = v
      · rw [hav, hbv]
        exact .refl
      · rw [hav, Function.update_self, Function.update_of_ne hbv] at hlabel
        exact hav ▸ hjoin b hb hlabel
    · rw [Function.update_of_ne hav] at hlabel
      by_cases hbv : b = v
      · rw [hbv, Function.update_self] at hlabel
        exact hbv ▸ (hjoin a ha hlabel.symm).symm h
      · rw [Function.update_of_ne hbv] at hlabel
        exact ih a ha b hb hlabel

end Level

/-- The membership is made on a level that coarsens the graph. -/
structure IsFinal (base : Level) (γ : Rat) (membership : Array Nat) : Prop where
  size : membership.size = base.size
  outcome : ∃ last place labelOf, base.IsOutcome γ (labelIn membership) last place labelOf

theorem IsFinal.linksLabels {base : Level} {γ : Rat} {membership : Array Nat}
    (h : IsFinal base γ membership) (hbase : base.IsProper) : base.LinksLabels (labelIn membership) := by
  obtain ⟨last, place, labelOf, houtcome⟩ := h.outcome
  exact houtcome.base_linksLabels hbase

namespace Descent

variable {base : Level} {γ : Rat} {orders : VisitingOrders} {d : Descent} {community : Array Nat}
  {moved : Bool}

/-- The level coarsens the graph, and vertices of one community are linked. -/
structure IsSound (base : Level) (d : Descent) : Prop extends d.IsProper where
  home_size : d.home.size = base.size
  coarsens : base.Coarsens d.level (labelIn d.home)
  linksLabels : d.level.LinksLabels (labelIn d.community)

theorem isSound_start {membership : Array Nat} (h : base.IsProper) (hsize : membership.size = base.size)
    (hlinks : base.LinksLabels (labelIn membership)) (draw : Nat) :
    (start base membership draw).IsSound base where
  level := h
  community_size := hsize
  home_size := Array.size_range
  coarsens := (Level.Coarsens.refl h).congr h fun _ => labelIn_range
  linksLabels := hlinks

namespace IsSound

variable (h : d.IsSound base)
include h

/-- Moving keeps the communities linked, and settles the vertices in the order. -/
theorem moves (hmoves : d.Moves (exactGain γ) orders community moved) :
    community.size = d.level.size ∧ d.level.LinksLabels (labelIn community) ∧
      (d.level.twoM ≠ 0 →
        ∀ v ∈ orders d.draw d.level.size, d.level.IsSettled γ (labelIn community) v) := by
  obtain ⟨community', moved', hmoves', -, hsize, hjoins, hsettled⟩ := h.exists_moves γ orders
  obtain ⟨rfl, rfl⟩ := Prod.mk.inj (hmoves.unique hmoves')
  have hlinks : d.level.LinksLabels (labelIn (renumber d.community)) := fun v hv u hu hlabel =>
    h.linksLabels v hv u hu
      ((labelIn_renumber_eq_iff (h.community_size ▸ hv) (h.community_size ▸ hu)).1 hlabel)
  exact ⟨hsize, hlinks.joins h.level hjoins, hsettled⟩

/-- The community of a piece is that of its vertices. -/
theorem labelIn_communityOf (hsize : community.size = d.level.size) {v : Nat} (hv : v < d.level.size) :
    labelIn (d.communityOf community) (labelIn (placesOf d.level community) v) = labelIn community v := by
  obtain ⟨piece, hpiece, hmem⟩ := Partition.exists_getElem?_placeOf (mem_flatten_pieces h.level hsize hv)
  rw [← labelIn_placesOf hv] at hpiece
  have hhead : piece.headD 0 ∈ piece := by
    cases piece with
    | nil => cases hmem
    | cons x rest => exact List.mem_cons_self
  obtain ⟨hlt, hplace⟩ := (mem_piece_iff h.level hsize hpiece).1 hhead
  have hwithin := (labelIn_placesOf_eq_iff h.level hsize hv hlt).1 hplace.symm
  rw [labelIn, communityOf, List.getElem?_toArray, List.getElem?_map, hpiece]
  exact hwithin.label_eq

theorem next (hbase : base.IsProper) (hsize : community.size = d.level.size)
    (hlinks : d.level.LinksLabels (labelIn community)) : (d.next community moved).IsSound base where
  toIsProper := h.toIsProper.next hsize
  home_size := Array.size_map.trans h.home_size
  coarsens := (h.coarsens.trans hbase h.level (coarsens_aggregated h.level hsize)).congr hbase fun v hv =>
    labelIn_map (h.home_size ▸ hv) _
  linksLabels p hp q hq hlabel := by
    have hcoarsens := coarsens_aggregated h.level hsize
    obtain ⟨v, hv, rfl⟩ := hcoarsens.exists_place p hp
    obtain ⟨u, hu, rfl⟩ := hcoarsens.exists_place q hq
    have heq : labelIn community v = labelIn community u :=
      (h.labelIn_communityOf hsize hv).symm.trans (hlabel.trans (h.labelIn_communityOf hsize hu))
    exact Level.within_const_iff.1
      (hcoarsens.within_coarse h.level (Level.within_const_iff.2 (hlinks v hv u hu heq)))

end IsSound

/-- What the last level is like when every vertex is visited. -/
theorem EndsIn.isFinal {count : Nat} {result : Array Nat × Bool × Nat}
    (hends : d.EndsIn (exactGain γ) orders count result) (hbase : base.IsProper) (h : d.IsSound base)
    (horders : ∀ draw n, (orders draw n).Perm (List.range n)) : IsFinal base γ result.1 := by
  induction hends with
  | @last d community moved hmoves hlast =>
    obtain ⟨hsize, hlinks, hsettled⟩ := h.moves hmoves
    refine ⟨Array.size_map.trans h.home_size, d.level, labelIn d.home, labelIn community,
      h.level, h.coarsens, fun v hv => labelIn_map (h.home_size ▸ hv) _,
      (length_pieces h.level hsize).2 hlast, fun hedges p hp => ?_, hlinks⟩
    exact hsettled hedges p ((horders _ _).mem_iff.2 (List.mem_range.2 hp))
  | next hmoves _ _ ih =>
    obtain ⟨hsize, hlinks, -⟩ := h.moves hmoves
    exact ih (h.next hbase hsize hlinks)

theorem isFinal_run (hbase : base.IsProper) (horders : ∀ draw n, (orders draw n).Perm (List.range n))
    {membership : Array Nat} (hsize : membership.size = base.size)
    (hlinks : base.LinksLabels (labelIn membership)) (draw : Nat) :
    IsFinal base γ ((start base membership draw).run (exactGain γ) orders (base.size + 1)).1 := by
  have hsound := isSound_start hbase hsize hlinks draw
  obtain ⟨count, result, -, hends, hrun⟩ := hsound.exists_endsIn γ orders (Nat.lt_succ_self _)
  exact hrun ▸ hends.isFinal hbase hsound horders

end Descent

section Passes

variable {base : Level} {γ : Rat} {orders : VisitingOrders}

theorem runPasses_succ (fuel : Nat) (membership : Array Nat) (draw : Nat) :
    runPasses (exactGain γ) orders base (fuel + 1) membership draw =
      let pass := (Descent.start base membership draw).run (exactGain γ) orders (base.size + 1)
      if pass.2.1 then runPasses (exactGain γ) orders base fuel pass.1 pass.2.2 else pass.1 := rfl

/-- However many passes there are, the last one gives the membership. -/
theorem isFinal_runPasses (hbase : base.IsProper) (horders : ∀ draw n, (orders draw n).Perm (List.range n))
    (fuel : Nat) {membership : Array Nat} (hsize : membership.size = base.size)
    (hlinks : base.LinksLabels (labelIn membership)) (draw : Nat) :
    IsFinal base γ (runPasses (exactGain γ) orders base (fuel + 1) membership draw) := by
  induction fuel generalizing membership draw with
  | zero =>
    rw [runPasses_succ]
    dsimp only
    split <;> exact Descent.isFinal_run hbase horders hsize hlinks draw
  | succ fuel ih =>
    have hpass := Descent.isFinal_run (γ := γ) hbase horders hsize hlinks draw
    rw [runPasses_succ]
    dsimp only
    split
    · exact ih hpass.size (hpass.linksLabels hbase) _
    · exact hpass

end Passes

/-! ## Parts -/

/-- The piece is made up of what paths in the part lead to from one of its vertices. -/
def Level.IsPiece (level : Level) (part : List Nat) (piece : Finset Nat) : Prop :=
  ∃ v ∈ part, ∀ u, u ∈ piece ↔ ReflTransGen (fun a b => 0 < level.weight a b ∧ b ∈ part) v u

/-- The parts that the labels of an array make. -/
def partsOf (membership : Array Nat) : List (List Nat) := Partition.parts ⟨membership.toList⟩

theorem isDivision_partsOf (membership : Array Nat) : IsDivision membership.size (partsOf membership) :=
  Partition.isDivision_parts ⟨membership.toList⟩

/-- A path out of a set has a first step that leaves it. -/
theorem exists_leaving {α : Type} {r : α → α → Prop} {s : Set α} {a b : α} (h : ReflTransGen r a b)
    (ha : a ∈ s) (hb : b ∉ s) : ∃ x ∈ s, ∃ y ∉ s, r x y := by
  induction h with
  | refl => exact absurd ha hb
  | @tail x y _ hstep ih =>
    by_cases hx : x ∈ s
    · exact ⟨x, hx, y, hb, hstep⟩
    · exact ih hx

section Parts

variable {base : Level} {γ : Rat} {membership : Array Nat} {part other : List Nat}
  {piece : Finset Nat} {i j : Nat}

theorem mem_part_iff (hpart : part ∈ partsOf membership) (hi : i ∈ part) :
    j ∈ part ↔ j < membership.size ∧ labelIn membership j = labelIn membership i := by
  have hdivision := isDivision_partsOf membership
  have hlt : i < membership.size := hdivision.lt_of_mem hpart hi
  have hget : ∀ k, (Partition.labels ⟨membership.toList⟩)[k]? = membership[k]? :=
    fun _ => Array.getElem?_toList
  rw [hdivision.mem_part_iff hpart hi, partsOf, Partition.samePart_parts_iff, hget, hget,
    Array.getElem?_eq_getElem hlt, labelIn, labelIn, Array.getElem?_eq_getElem hlt]
  by_cases hj : j < membership.size
  · rw [Array.getElem?_eq_getElem hj, Option.some_inj, eq_comm]
    exact ⟨fun h => ⟨hj, h.2⟩, fun h => ⟨hlt, h.2⟩⟩
  · rw [Array.getElem?_eq_none (Nat.not_lt.1 hj)]
    exact iff_of_false (fun h => Option.some_ne_none _ h.2) fun h => hj h.1

theorem toFinset_part (hsize : membership.size = base.size)
    (hpart : part ∈ partsOf membership) (hi : i ∈ part) :
    part.toFinset = base.group (labelIn membership) (labelIn membership i) := by
  ext j
  rw [List.mem_toFinset, mem_part_iff hpart hi, Level.mem_group, hsize]

/-- Paths in a part are paths along its label. -/
theorem reflTransGen_part_iff (hsize : membership.size = base.size) (hbase : base.IsProper)
    (hpart : part ∈ partsOf membership) (hi : i ∈ part) :
    ReflTransGen (fun a b => 0 < base.weight a b ∧ b ∈ part) i j ↔
      base.Within (labelIn membership) i j := by
  constructor
  · intro hpath
    induction hpath with
    | refl => exact .refl
    | tail _ hstep ih =>
      exact ih.tail ⟨hstep.1, ((mem_part_iff hpart hi).1 hstep.2).2.trans ih.label_eq.symm⟩
  · intro hwithin
    induction hwithin with
    | refl => exact .refl
    | @tail a b hprefix hstep ih =>
      have hlabel := hstep.2.trans (Level.Within.label_eq hprefix)
      exact ih.tail ⟨hstep.1, (mem_part_iff hpart hi).2
        ⟨hsize ▸ hbase.right_lt_of_weight_pos hstep.1, hlabel⟩⟩

/-- The pieces of a part are the groups of the last level. -/
theorem eq_group_of_isPiece {last : Level} {place labelOf : Nat → Nat} (hsize : membership.size = base.size)
    (hbase : base.IsProper) (h : base.IsOutcome γ (labelIn membership) last place labelOf)
    (hpart : part ∈ partsOf membership) (hi : i ∈ part)
    (hpiece : ∀ u, u ∈ piece ↔ ReflTransGen (fun a b => 0 < base.weight a b ∧ b ∈ part) i u) :
    piece = base.group place (place i) := by
  have hlt : i < base.size := hsize ▸ ((mem_part_iff hpart hi).1 hi).1
  ext u
  rw [hpiece, reflTransGen_part_iff hsize hbase hpart hi, Level.mem_group]
  constructor
  · intro hwithin
    have hu := hwithin.lt hbase hlt
    exact ⟨hu, ((h.within_iff hbase hlt hu).1 hwithin).symm⟩
  · rintro ⟨hu, hplace⟩
    exact (h.within_iff hbase hlt hu).2 hplace.symm

/-- No edge leads from a piece to the rest of its part. -/
theorem cut_piece_rest (hpiece : base.IsPiece part piece) : base.cut piece (part.toFinset \ piece) = 0 := by
  obtain ⟨v, -, hmem⟩ := hpiece
  by_contra hcut
  obtain ⟨x, hx, y, hy, hw⟩ := Level.cut_pos_iff.1 (Nat.pos_of_ne_zero hcut)
  obtain ⟨hypart, hypiece⟩ := Finset.mem_sdiff.1 hy
  exact hypiece ((hmem y).2 (((hmem x).1 hx).tail ⟨hw, List.mem_toFinset.1 hypart⟩))

variable (hfinal : IsFinal base γ membership) (hbase : base.IsProper) (hpart : part ∈ partsOf membership)
  (hpiece : base.IsPiece part piece)
include hfinal hbase hpart hpiece

/-- A piece does not gain more than the least gain from joining an adjacent part. -/
theorem benefit_piece_le (hedges : base.twoM ≠ 0) (hother : other ∈ partsOf membership) (hne : other ≠ part)
    (hcut : 0 < base.cut piece other.toFinset) :
    base.benefit γ piece other.toFinset ≤ base.benefit γ piece (part.toFinset \ piece) + leastGain := by
  have hdivision := isDivision_partsOf membership
  obtain ⟨last, place, labelOf, houtcome⟩ := hfinal.outcome
  obtain ⟨v, hv, hmem⟩ := hpiece
  obtain rfl := eq_group_of_isPiece hfinal.size hbase houtcome hpart hv hmem
  obtain ⟨-, -, y, hy, -⟩ := Level.cut_pos_iff.1 hcut
  have hy := List.mem_toFinset.1 hy
  rw [toFinset_part hfinal.size hother hy] at hcut ⊢
  rw [toFinset_part hfinal.size hpart hv]
  refine houtcome.benefit_le hbase hedges (hfinal.size ▸ ((mem_part_iff hpart hv).1 hv).1)
    (fun heq => hne ?_) hcut
  have hyp : y ∈ part := (mem_part_iff hpart hv).2 ⟨((mem_part_iff hother hy).1 hy).1, heq⟩
  exact hdivision.eq_of_mem hother hpart hy hyp

/-- A piece that is not all of its part has an edge to another one. -/
theorem exists_adjacent_part (hne : piece ≠ part.toFinset) :
    ∃ other ∈ partsOf membership, other ≠ part ∧ 0 < base.cut piece other.toFinset := by
  have hdivision := isDivision_partsOf membership
  obtain ⟨v, hv, hmem⟩ := hpiece
  have hsub : piece ⊆ part.toFinset := fun u hu => by
    rw [List.mem_toFinset]
    cases (hmem u).1 hu with
    | refl => exact hv
    | tail _ hstep => exact hstep.2
  obtain ⟨j, hj, hjpiece⟩ := Finset.exists_of_ssubset (hsub.ssubset_of_ne hne)
  have hlt : ∀ {k}, k ∈ part → k < base.size := fun hk =>
    hfinal.size ▸ ((mem_part_iff hpart hv).1 hk).1
  have hj := List.mem_toFinset.1 hj
  have hlinked : base.Linked v j := hfinal.linksLabels hbase v (hlt hv) j (hlt hj)
    ((mem_part_iff hpart hv).1 hj).2.symm
  obtain ⟨x, hx, y, hy, hw⟩ := exists_leaving (s := (piece : Set Nat)) hlinked ((hmem v).2 .refl) hjpiece
  have hylt := hbase.right_lt_of_weight_pos hw
  rw [← hfinal.size] at hylt
  obtain ⟨other, hother, hyother⟩ := hdivision.exists_part hylt
  refine ⟨other, hother, ?_, Level.cut_pos_iff.2 ⟨x, hx, y, List.mem_toFinset.2 hyother, hw⟩⟩
  rintro rfl
  exact hy ((hmem y).2 (((hmem x).1 hx).tail ⟨hw, hyother⟩))

/-- What keeps a piece in a part that it has no edge to is the difference of the volumes. -/
theorem volume_of_piece (hedges : base.twoM ≠ 0) (hother : other ∈ partsOf membership) (hne : other ≠ part)
    (hcut : 0 < base.cut piece other.toFinset) :
    0 < γ * (base.volume other.toFinset - base.volume (part.toFinset \ piece)) := by
  have hle := benefit_piece_le hfinal hbase hpart hpiece hedges hother hne hcut
  rw [Level.benefit, Level.benefit, cut_piece_rest hpiece] at hle
  have hleast : leastGain < 1 := by
    unfold leastGain
    norm_num
  have hcut' : (1 : Rat) ≤ base.cut piece other.toFinset := by exact_mod_cast hcut
  have hproduct : 0 < (base.volume piece / base.twoM : Rat) *
      (γ * (base.volume other.toFinset - base.volume (part.toFinset \ piece))) := by
    have hsplit : (base.volume piece / base.twoM : Rat) *
        (γ * (base.volume other.toFinset - base.volume (part.toFinset \ piece))) =
          γ * base.volume piece * base.volume other.toFinset / base.twoM -
            γ * base.volume piece * base.volume (part.toFinset \ piece) / base.twoM := by
      ring
    rw [hsplit]
    push_cast at hle
    linarith
  have hnonneg : 0 ≤ (base.volume piece / base.twoM : Rat) :=
    div_nonneg (Nat.cast_nonneg _) (Nat.cast_nonneg _)
  exact pos_of_mul_pos_right hproduct hnonneg

end Parts

/-- The parts share out the constraints, and each of them is inside a component of the graph. A part may fall
into several pieces. Then every piece has edges to other parts, and none of these is better for it than the rest
of its own part by more than the least gain. As the edges speak for the other part, it is the degrees that keep
the piece where it is: with a positive resolution the other part has the greater volume, with a negative one the
smaller, and with resolution zero there is no such part, so that all parts are connected. -/
theorem communities_settled (circuit : Circuit) (keep : Nat → Bool) (γ : Rat) (orders : VisitingOrders)
    (horders : ∀ draw n, (orders draw n).Perm (List.range n)) (iterations : Nat) :
    let graph := Level.ofGraph (.restricted circuit keep)
    let parts := (communities (exactGain γ) orders (.restricted circuit keep) iterations).parts
    IsDivision circuit.nConstraints parts ∧
    (∀ part ∈ parts, ∀ i ∈ part, ∀ j ∈ part, graph.Linked i j) ∧
    ∀ part ∈ parts, ∀ piece, graph.IsPiece part piece →
      (∀ other ∈ parts, other ≠ part → 0 < graph.cut piece other.toFinset →
        graph.benefit γ piece other.toFinset ≤
          graph.benefit γ piece (part.toFinset \ piece) + leastGain ∧
        0 < γ * (graph.volume other.toFinset - graph.volume (part.toFinset \ piece))) ∧
      (piece ≠ part.toFinset →
        ∃ other ∈ parts, other ≠ part ∧ 0 < graph.cut piece other.toFinset) := by
  intro graph parts
  have hbase : graph.IsProper := isProper_restricted circuit keep
  have hsize : graph.size = circuit.nConstraints := size_restricted circuit keep
  have hstart : graph.LinksLabels (labelIn (Array.range graph.size)) := fun v hv u hu hlabel => by
    rw [labelIn_range hv, labelIn_range hu] at hlabel
    exact hlabel ▸ .refl
  obtain ⟨passes, hpasses⟩ := Nat.exists_eq_add_one_of_ne_zero
    (Nat.ne_of_gt (Nat.lt_of_lt_of_le Nat.one_pos (Nat.le_max_right iterations 1)))
  have hfinal := isFinal_runPasses (γ := γ) hbase horders passes Array.size_range hstart 0
  rw [← hpasses] at hfinal
  have hdivision : IsDivision circuit.nConstraints parts :=
    (hfinal.size.trans hsize) ▸ isDivision_partsOf _
  refine ⟨hdivision, fun part hpart i hi j hj => ?_, fun part hpart piece hpiece =>
    ⟨fun other hother hne hcut => ?_, exists_adjacent_part hfinal hbase hpart hpiece⟩⟩
  · exact hfinal.linksLabels hbase i (hsize ▸ hdivision.lt_of_mem hpart hi) j
      (hsize ▸ hdivision.lt_of_mem hpart hj) ((mem_part_iff hpart hi).1 hj).2.symm
  · have hedges : graph.twoM ≠ 0 := by
      obtain ⟨x, -, y, -, hw⟩ := Level.cut_pos_iff.1 hcut
      have hx := Level.IsProper.lt_of_weight_pos hw
      have hdegree := hw.trans_le (Level.weight_le_degree_ofGraph _ x y)
      rw [hbase.twoM_eq_sum]
      exact (Finset.sum_pos_iff.2 ⟨x, Finset.mem_range.2 hx, hdegree⟩).ne'
    exact ⟨benefit_piece_le hfinal hbase hpart hpiece hedges hother hne hcut,
      volume_of_piece hfinal hbase hpart hpiece hedges hother hne hcut⟩

namespace Sample

/-- The sum of the signals is zero. -/
def zeroSum (signals : List Signal) : Constraint := .r1cs (.ofInts ⟨101⟩ [] [] (signals.map (·, 1)))

/-- A hub, two constraints that share a signal with it alone, and three that share several with it and with
each other. -/
def hub : Circuit where
  field := ⟨101⟩
  dialect := .r1cs
  nSignals := 23
  constraints := #[zeroSum [1, 2, 3, 4, 5, 6, 7, 8, 9, 10, 11, 12, 13], zeroSum [1], zeroSum [2],
    zeroSum [3, 4, 5, 14, 15, 16, 17, 18, 19], zeroSum [6, 7, 8, 14, 15, 16, 20, 21, 22],
    zeroSum [9, 10, 11, 12, 13, 17, 18, 19, 20, 21, 22]]
  inputs := .ofList [1]
  outputs := .ofList [2]
  nSignals_pos := by decide
  inputs_declarable := by decide
  outputs_declarable := by decide
  inputs_disjoint_outputs := by decide
  constraints_wellFormed := by decide +kernel

/-- Vertices are visited from the first to the last. -/
def ascendingOrders : VisitingOrders := fun _ n => List.range n

theorem parts_hub :
    (communities (exactGain (11 / 10)) ascendingOrders (.restricted hub fun _ => true) 2).parts =
      [[0, 3, 4, 5], [1, 2]] := by
  decide +kernel

/-- The hub has left its former community for the other three, and nothing joins what is left. -/
theorem eq_of_path {u : Nat} (h : ReflTransGen (fun a b =>
    0 < (Level.ofGraph (.restricted hub fun _ => true)).weight a b ∧ b ∈ [1, 2]) 1 u) : u = 1 := by
  cases h.cases_head with
  | inl heq => exact heq.symm
  | inr hstep =>
    obtain ⟨c, ⟨hw, hc⟩, -⟩ := hstep
    have hnone : ∀ c ∈ [1, 2], (Level.ofGraph (.restricted hub fun _ => true)).weight 1 c = 0 := by
      decide +kernel
    exact absurd (hnone c hc) hw.ne'

end Sample

open Sample in
/-- The two constraints beside the hub are one part without an edge inside it: for each of them the part of the
hub is worse, as its degrees make up for the edge to it. -/
theorem communities_settled_hub :
    let graph := Level.ofGraph (.restricted hub fun _ => true)
    (∀ draw n, (ascendingOrders draw n).Perm (List.range n)) ∧ graph.Linked 1 2 ∧ graph.IsPiece [1, 2] {1} ∧
      graph.benefit (11 / 10) {1} [0, 3, 4, 5].toFinset ≤
        graph.benefit (11 / 10) {1} ([1, 2].toFinset \ {1}) + leastGain ∧
      (0 : Rat) < 11 / 10 *
        (graph.volume [0, 3, 4, 5].toFinset - graph.volume ([1, 2].toFinset \ {1})) := by
  intro graph
  obtain ⟨-, hlinked, hpieces⟩ := communities_settled hub (fun _ => true) (11 / 10) ascendingOrders
    (fun _ _ => List.Perm.refl _) 2
  rw [parts_hub] at hlinked hpieces
  have hpiece : graph.IsPiece [1, 2] {1} := by
    refine ⟨1, by decide, fun u => ?_⟩
    rw [Finset.mem_singleton]
    exact ⟨fun hu => hu ▸ .refl, eq_of_path⟩
  have hcut : 0 < graph.cut {1} [0, 3, 4, 5].toFinset := by decide +kernel
  refine ⟨fun _ _ => List.Perm.refl _, hlinked [1, 2] (by decide) 1 (by decide) 2 (by decide), hpiece, ?_⟩
  exact (hpieces [1, 2] (by decide) {1} hpiece).1 [0, 3, 4, 5] (by decide) (by decide) hcut

open Sample in
/-- A part need not be connected. -/
theorem exists_disconnected_part : (∀ draw n, (ascendingOrders draw n).Perm (List.range n)) ∧
    ∃ part ∈ (communities (exactGain (11 / 10)) ascendingOrders (.restricted hub fun _ => true) 2).parts,
      ∃ i ∈ part, ∃ j ∈ part, ¬ReflTransGen (fun a b =>
        0 < (Level.ofGraph (.restricted hub fun _ => true)).weight a b ∧ b ∈ part) i j := by
  rw [parts_hub]
  refine ⟨fun _ _ => List.Perm.refl _, [1, 2], by decide, 1, by decide, 2, by decide, fun hpath => ?_⟩
  exact absurd (eq_of_path hpath) (by decide)

end CircuitEquiv.Modularity
