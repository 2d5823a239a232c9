-- SUMMARY: Folding joins exactly the classes that near matches connect and maps every member from the least representative.
import CircuitEquiv.NodeClasses.Folding
import CircuitEquiv.Proofs.Data.DisjointSets
import CircuitEquiv.Proofs.NodeClasses.PartialWitness

/-!
# Folding near matches

The matches that are used relate the same representatives as all matches do, because a match is left out
only when it joins what is joined already. The search from a leader follows used matches both ways, keeps a
mapping from the leader for everything it finds, and finds all that is connected.
-/

namespace CircuitEquiv.Folding

open Relation (EqvGen)
open UnionFind (Generates)

variable {W : NodeId → NodeId → Mapping → Prop} {near rest : List NearMatch} {links : Links}
  {u start : UnionFind NodeId} {id lead x y : NodeId} {m : Mapping} {known : List NodeId}

/-! ## Links -/

/-- A match joins the two nodes. -/
def Joins (near : List NearMatch) (a b : NodeId) : Prop := ∃ m ∈ near, m.left = a ∧ m.right = b

/-- A match that is used joins the two nodes. -/
def Linked (links : Links) (a b : NodeId) : Prop := (a, b) ∈ links.keys

/-- Nodes connected by a chain of matches. -/
abbrev Chained (near : List NearMatch) : NodeId → NodeId → Prop := EqvGen (Joins near)

/-- What holds while matches of known nodes are looked at one after the other: those that are used
generate the same sets as all of them. -/
structure Covers (known : List NodeId) (near : List NearMatch) (u : UnionFind NodeId) (links : Links) :
    Prop where
  keys : ∀ x, x ∈ u.roots.keys ↔ x ∈ known
  joins : Generates (Joins near) u
  linked : Generates (Linked links) u
  used : ∀ a b m, links.get? (a, b) = some m → ∃ n ∈ near, n.left = a ∧ n.right = b ∧ n.mapping = m

/-- The state after a match is looked at. -/
def linkNext (state : UnionFind NodeId × Links) (n : NearMatch) : UnionFind NodeId × Links :=
  if state.1.rootOf n.left = state.1.rootOf n.right then
    (((state.1.find n.left).2.find n.right).2, state.2)
  else
    ((((state.1.find n.left).2.find n.right).2.union n.left n.right).2,
      state.2.insert (n.left, n.right) n.mapping)

theorem link_eq (near : List NearMatch) (start : UnionFind NodeId) :
    link near start = near.foldl linkNext (start, .empty) := by
  unfold link
  congr 1
  funext state n
  obtain ⟨u, links⟩ := state
  simp only [linkNext, UnionFind.same_eq, beq_iff_eq]

theorem joins_append {n : NearMatch} :
    Joins (near ++ [n]) x y ↔ Joins near x y ∨ x = n.left ∧ y = n.right := by
  simp only [Joins, List.mem_append, List.mem_singleton, or_and_right, exists_or, exists_eq_left,
    eq_comm (a := x), eq_comm (a := y)]

theorem linked_insert {n : NearMatch} : Linked (links.insert (n.left, n.right) m) x y ↔
    Linked links x y ∨ x = n.left ∧ y = n.right := by
  simp only [Linked, SortedMap.mem_keys_iff, SortedMap.get?_insert]
  by_cases h : (x, y) = (n.left, n.right)
  · simp [Prod.mk.inj h]
  · rw [if_neg h]
    rw [Prod.mk.injEq] at h
    simp [h]

theorem Covers.linkNext (h : Covers known near u links) {n : NearMatch} (hl : n.left ∈ known)
    (hr : n.right ∈ known) :
    Covers known (near ++ [n]) (linkNext (u, links) n).1 (linkNext (u, links) n).2 := by
  have hused : ∀ a b m, links.get? (a, b) = some m →
      ∃ n' ∈ near ++ [n], n'.left = a ∧ n'.right = b ∧ n'.mapping = m := fun a b m hm => by
    obtain ⟨n', hn', heq⟩ := h.used a b m hm
    exact ⟨n', List.mem_append_left _ hn', heq⟩
  have hkeys : ∀ x, x = n.right ∨ x = n.left ∨ x ∈ u.roots.keys ↔ x ∈ known := fun x => by
    rw [h.keys]
    refine ⟨?_, fun hx => Or.inr (Or.inr hx)⟩
    rintro (rfl | rfl | hx) <;> assumption
  unfold Folding.linkNext
  dsimp only
  split
  · rename_i heq
    refine ⟨fun x => ?_, ?_, (h.linked.find _).find _, hused⟩
    · rw [UnionFind.mem_keys_find, UnionFind.mem_keys_find, hkeys]
    · exact (((h.joins.find _).find _).of_rootOf_eq (by
        simpa only [UnionFind.rootOf_find] using heq)).congr fun x y => joins_append.symm
  · refine ⟨fun x => ?_, ?_, ?_, fun a b m hm => ?_⟩
    · rw [UnionFind.mem_keys_union, UnionFind.mem_keys_find, UnionFind.mem_keys_find, hkeys]
      refine ⟨?_, fun hx => Or.inr (Or.inr hx)⟩
      rintro (rfl | rfl | hx) <;> assumption
    · exact (((h.joins.find _).find _).union _ _).congr fun x y => joins_append.symm
    · exact (((h.linked.find _).find _).union _ _).congr fun x y => linked_insert.symm
    · rw [SortedMap.get?_insert] at hm
      split at hm
      · rename_i heq
        cases heq
        exact ⟨n, List.mem_append_right _ List.mem_cons_self, rfl, rfl, Option.some.inj hm⟩
      · exact hused a b m hm

theorem Covers.foldl (h : Covers known near u links)
    (hrest : ∀ n ∈ rest, n.left ∈ known ∧ n.right ∈ known) :
    Covers known (near ++ rest) (rest.foldl Folding.linkNext (u, links)).1
      (rest.foldl Folding.linkNext (u, links)).2 := by
  induction rest generalizing near u links with
  | nil => rwa [List.append_nil]
  | cons n rest ih =>
    obtain ⟨hl, hr⟩ := hrest n List.mem_cons_self
    have hnext := ih (h.linkNext hl hr) fun n hn => hrest n (List.mem_cons_of_mem _ hn)
    rwa [List.append_assoc] at hnext

/-- The sets before any match is looked at. -/
theorem generates_start (ids : List NodeId) :
    Generates (fun _ _ => False) (ids.foldl (fun u id => (u.find id).2) UnionFind.empty) ∧
      ∀ x, x ∈ (ids.foldl (fun u id => (u.find id).2) UnionFind.empty).roots.keys ↔ x ∈ ids := by
  have hfold : ∀ (ids : List NodeId) (u : UnionFind NodeId), Generates (fun _ _ => False) u →
      Generates (fun _ _ => False) (ids.foldl (fun u id => (u.find id).2) u) ∧
        ∀ x, x ∈ (ids.foldl (fun u id => (u.find id).2) u).roots.keys ↔ x ∈ ids ∨ x ∈ u.roots.keys := by
    intro ids
    induction ids with
    | nil => exact fun u hu => ⟨hu, fun x => by simp⟩
    | cons id rest ih =>
      intro u hu
      obtain ⟨hgenerates, hkeys⟩ := ih _ (hu.find id)
      refine ⟨hgenerates, fun x => ?_⟩
      rw [List.foldl_cons, hkeys, UnionFind.mem_keys_find, List.mem_cons]
      tauto
  obtain ⟨hgenerates, hkeys⟩ := hfold ids _ Generates.empty
  exact ⟨hgenerates, fun x => (hkeys x).trans (or_iff_left List.not_mem_nil)⟩

theorem covers_link (ids : List NodeId) (hnear : ∀ n ∈ near, n.left ∈ ids ∧ n.right ∈ ids) :
    Covers ids near (link near (ids.foldl (fun u id => (u.find id).2) UnionFind.empty)).1
      (link near (ids.foldl (fun u id => (u.find id).2) UnionFind.empty)).2 := by
  obtain ⟨hgenerates, hkeys⟩ := generates_start ids
  have hstart : Covers ids [] (ids.foldl (fun u id => (u.find id).2) UnionFind.empty) .empty := by
    refine ⟨hkeys, hgenerates.congr fun x y => ?_, hgenerates.congr fun x y => ?_, fun a b m h => nomatch h⟩
    · exact ⟨False.elim, fun ⟨_, h, _⟩ => nomatch h⟩
    · exact ⟨False.elim, fun h => nomatch h⟩
  rw [link_eq]
  exact hstart.foldl hnear

/-! ## Searching from a leader -/

/-- The other ends of the links of a node, with mappings that lead there. -/
def neighbours (links : Links) (id : NodeId) : List (NodeId × Mapping) :=
  links.entries.filterMap (step? id)

/-- What the search keeps: the stack, and the mappings from the leader. -/
abbrev Search := List NodeId × SortedMap NodeId Mapping

/-- Puts a neighbour on the stack if it was not found before. -/
def reach (id lead : NodeId) (via : Mapping) (s : Search) (next : NodeId × Mapping) : Search :=
  if s.2.contains next.1 then s
  else (next.1 :: s.1, s.2.insert next.1 (if id = lead then next.2 else via.andThen next.2))

theorem explore_cons (links : Links) (lead : NodeId) (fuel : Nat) (id : NodeId) (stack : List NodeId)
    (found : SortedMap NodeId Mapping) :
    explore links lead (fuel + 1) (id :: stack) found =
      explore links lead fuel
        ((neighbours links id).foldl (reach id lead (found.getD id .empty)) (stack, found)).1
        ((neighbours links id).foldl (reach id lead (found.getD id .empty)) (stack, found)).2 := rfl

theorem mem_neighbours : x ∈ (neighbours links id).map (·.1) ↔ Linked links id x ∨ Linked links x id := by
  simp only [neighbours, List.mem_map, List.mem_filterMap, Linked, SortedMap.keys, step?]
  constructor
  · rintro ⟨⟨y, n⟩, ⟨⟨⟨l, r⟩, m⟩, he, hstep⟩, rfl⟩
    dsimp only at hstep ⊢
    split at hstep
    · rename_i hl
      cases hstep
      exact Or.inl ⟨_, he, by rw [hl]⟩
    · split at hstep
      · rename_i hr
        cases hstep
        exact Or.inr ⟨_, he, by rw [hr]⟩
      · cases hstep
  · rintro (⟨⟨k, m⟩, he, rfl⟩ | ⟨⟨k, m⟩, he, rfl⟩)
    · exact ⟨(x, m), ⟨_, he, if_pos rfl⟩, rfl⟩
    · by_cases hx : x = id
      · exact ⟨(id, m), ⟨_, he, if_pos hx⟩, hx.symm⟩
      · exact ⟨(x, m.inverse), ⟨_, he, by rw [if_neg hx, if_pos rfl]⟩, rfl⟩

/-- What looking at neighbours does to the search. -/
structure Reaches (next : List (NodeId × Mapping)) (s t : Search) : Prop where
  found : ∀ x, x ∈ t.2.keys ↔ x ∈ s.2.keys ∨ x ∈ next.map (·.1)
  stack : ∀ x, x ∈ t.1 ↔ x ∈ s.1 ∨ x ∈ next.map (·.1) ∧ x ∉ s.2.keys
  length : t.1.length + s.2.keys.length = s.1.length + t.2.keys.length

theorem reaches_refl (s : Search) : Reaches [] s s where
  found _ := (or_iff_left List.not_mem_nil).symm
  stack _ := (or_iff_left fun h => List.not_mem_nil h.1).symm
  length := rfl

theorem reaches_foldl (id lead : NodeId) (via : Mapping) (next : List (NodeId × Mapping)) (s : Search) :
    Reaches next s (next.foldl (reach id lead via) s) := by
  induction next generalizing s with
  | nil => exact reaches_refl s
  | cons e next ih =>
    have hnext := ih (reach id lead via s e)
    rw [List.foldl_cons]
    by_cases h : e.1 ∈ s.2.keys
    · rw [show reach id lead via s e = s from if_pos (SortedMap.contains_iff.2 h)] at hnext ⊢
      refine ⟨fun x => ?_, fun x => ?_, hnext.length⟩
      · rw [hnext.found, List.map_cons, List.mem_cons]
        exact ⟨Or.imp_right Or.inr, by rintro (hx | rfl | hx) <;> simp [*]⟩
      · rw [hnext.stack, List.map_cons, List.mem_cons]
        exact ⟨Or.imp_right fun hx => ⟨Or.inr hx.1, hx.2⟩,
          by rintro (hx | ⟨rfl | hx, hx'⟩) <;> simp_all⟩
    · have hreach : reach id lead via s e =
          (e.1 :: s.1, s.2.insert e.1 (if id = lead then e.2 else via.andThen e.2)) :=
        if_neg fun hc => h (SortedMap.contains_iff.1 hc)
      rw [hreach] at hnext ⊢
      refine ⟨fun x => ?_, fun x => ?_, ?_⟩
      · rw [hnext.found, SortedMap.mem_keys_insert, List.map_cons, List.mem_cons, or_assoc, or_left_comm]
      · rw [hnext.stack, SortedMap.mem_keys_insert, List.map_cons, List.mem_cons, List.mem_cons]
        by_cases hx : x = e.1
        · simp [hx, h]
        · simp [hx]
      · have hlength := hnext.length
        rw [SortedMap.length_keys_insert h, List.length_cons] at hlength
        omega

/-- Every mapping that is found witnesses a common part with the leader. -/
def IsLed (W : NodeId → NodeId → Mapping → Prop) (lead : NodeId) (found : SortedMap NodeId Mapping) : Prop :=
  ∀ x m, found.get? x = some m → x = lead ∨ W lead x m

/-- Witnesses can be turned round and put one after the other. -/
structure Composes (W : NodeId → NodeId → Mapping → Prop) : Prop where
  inverse : ∀ {a b m}, W a b m → W b a m.inverse
  andThen : ∀ {a b c m n}, W a b m → W b c n → W a c (m.andThen n)

/-- All links are witnesses. -/
def Witnessed (W : NodeId → NodeId → Mapping → Prop) (links : Links) : Prop :=
  ∀ a b m, links.get? (a, b) = some m → W a b m

theorem witness_of_mem_neighbours (hW : Composes W) (hlinks : Witnessed W links) {e : NodeId × Mapping}
    (he : e ∈ neighbours links id) : W id e.1 e.2 := by
  obtain ⟨⟨⟨a, b⟩, n⟩, hentry, hstep⟩ := List.mem_filterMap.1 he
  have hwitness := hlinks a b n (SortedMap.get?_eq_some_iff.2 hentry)
  unfold step? at hstep
  dsimp only at hstep
  split at hstep
  · rename_i hl
    cases hstep
    exact hl ▸ hwitness
  · split at hstep
    · rename_i hr
      cases hstep
      exact hr ▸ hW.inverse hwitness
    · cases hstep

theorem IsLed.foldl (hW : Composes W) {via : Mapping} (hvia : id = lead ∨ W lead id via)
    {next : List (NodeId × Mapping)} (hnext : ∀ e ∈ next, W id e.1 e.2) {s : Search} (h : IsLed W lead s.2) :
    IsLed W lead (next.foldl (reach id lead via) s).2 := by
  induction next generalizing s with
  | nil => exact h
  | cons e next ih =>
    refine ih (fun e he => hnext e (List.mem_cons_of_mem _ he)) ?_
    have he := hnext e List.mem_cons_self
    unfold reach
    split
    · exact h
    · intro x m hm
      rw [SortedMap.get?_insert] at hm
      split at hm
      · rename_i hx
        obtain rfl := Option.some.inj hm
        right
        split
        · rename_i hid
          rw [hx, ← hid]
          exact he
        · rename_i hid
          rw [hx]
          exact hW.andThen (hvia.resolve_left hid) he
      · exact h x m hm

/-- What holds while the search runs: what is found stays among the given nodes, is mapped from the leader,
and has its neighbours found unless it waits on the stack. -/
structure IsSearch (W : NodeId → NodeId → Mapping → Prop) (nodes : List NodeId) (links : Links)
    (lead : NodeId) (s : Search) : Prop where
  stack : ∀ x ∈ s.1, x ∈ s.2.keys
  found : ∀ x ∈ s.2.keys, x ∈ nodes
  closed : ∀ x ∈ s.2.keys, x ∉ s.1 → ∀ y ∈ (neighbours links x).map (·.1), y ∈ s.2.keys
  led : IsLed W lead s.2

theorem IsSearch.visit {nodes stack : List NodeId} {found : SortedMap NodeId Mapping} (hW : Composes W)
    (hlinks : Witnessed W links) (hnodes : ∀ x ∈ nodes, ∀ y ∈ (neighbours links x).map (·.1), y ∈ nodes)
    (h : IsSearch W nodes links lead (id :: stack, found)) :
    IsSearch W nodes links lead
      ((neighbours links id).foldl (reach id lead (found.getD id .empty)) (stack, found)) := by
  obtain ⟨hfound, hstack, -⟩ :=
    reaches_foldl id lead (found.getD id .empty) (neighbours links id) (stack, found)
  have hid : id ∈ found.keys := h.stack id List.mem_cons_self
  refine ⟨fun x hx => ?_, fun x hx => ?_, fun x hx hx' y hy => ?_, ?_⟩
  · rw [hfound]
    exact ((hstack x).1 hx).imp (fun hx => h.stack x (List.mem_cons_of_mem _ hx)) And.left
  · exact ((hfound x).1 hx).elim (h.found x) (hnodes id (h.found id hid) x)
  · rw [hfound]
    rw [hstack, not_or, not_and, not_not] at hx'
    -- whatever was found just now waits on the stack
    have hold : x ∈ found.keys := ((hfound x).1 hx).elim (fun hx => hx) hx'.2
    by_cases hx : x = id
    · exact Or.inr (hx ▸ hy)
    · exact Or.inl (h.closed x hold (by simp [hx, hx'.1]) y hy)
  · refine IsLed.foldl (s := (stack, found)) hW ?_ (fun e => witness_of_mem_neighbours hW hlinks) h.led
    obtain ⟨m, hm⟩ := SortedMap.mem_keys_iff.1 hid
    rw [SortedMap.getD, hm]
    exact h.led id m hm

/-- Where the search ends nothing waits: the fuel covers every node that is not found yet, and those on the
stack. -/
theorem IsSearch.explore {nodes : List NodeId} (hW : Composes W)
    (hlinks : Witnessed W links) (hnodes : ∀ x ∈ nodes, ∀ y ∈ (neighbours links x).map (·.1), y ∈ nodes)
    (fuel : Nat) {stack : List NodeId} {found : SortedMap NodeId Mapping}
    (h : IsSearch W nodes links lead (stack, found))
    (hfuel : stack.length + nodes.length ≤ fuel + found.keys.length) :
    IsSearch W nodes links lead ([], explore links lead fuel stack found) ∧
      ∀ x ∈ found.keys, x ∈ (explore links lead fuel stack found).keys := by
  induction fuel generalizing stack found with
  | zero =>
    have hle : found.keys.length ≤ nodes.length :=
      (List.subperm_of_subset found.nodup_keys h.found).length_le
    obtain rfl : stack = [] := List.length_eq_zero_iff.1 (by omega)
    exact ⟨h, fun x hx => hx⟩
  | succ fuel ih =>
    cases stack with
    | nil => exact ⟨h, fun x hx => hx⟩
    | cons id stack =>
      obtain ⟨hfound, -, hlength⟩ :=
        reaches_foldl id lead (found.getD id .empty) (neighbours links id) (stack, found)
      rw [explore_cons]
      rw [List.length_cons] at hfuel
      obtain ⟨hsearch, hkeys⟩ := ih (h.visit hW hlinks hnodes) (by dsimp only at hlength; omega)
      exact ⟨hsearch, fun x hx => hkeys x ((hfound x).2 (Or.inl hx))⟩

/-- Where nothing waits, connected nodes are found together. -/
theorem IsSearch.mem_keys_iff {nodes : List NodeId} {found : SortedMap NodeId Mapping}
    (h : IsSearch W nodes links lead ([], found)) (hxy : EqvGen (Linked links) x y) :
    x ∈ found.keys ↔ y ∈ found.keys := by
  induction hxy with
  | rel x y hxy =>
    exact ⟨fun hx => h.closed x hx List.not_mem_nil y (mem_neighbours.2 (Or.inl hxy)),
      fun hy => h.closed y hy List.not_mem_nil x (mem_neighbours.2 (Or.inr hxy))⟩
  | refl => rfl
  | symm _ _ _ ih => exact ih.symm
  | trans _ _ _ _ _ ih ih' => exact ih.trans ih'

/-- The search from a leader finds whatever links connect with it, with witnesses. -/
theorem explore_spec {nodes : List NodeId} (hW : Composes W) (hlinks : Witnessed W links)
    (hnodes : ∀ x ∈ nodes, ∀ y, Linked links x y ∨ Linked links y x → y ∈ nodes) (hlead : lead ∈ nodes)
    (hx : EqvGen (Linked links) lead x) (hne : x ≠ lead) :
    ∃ m, (explore links lead nodes.length [lead] (SortedMap.empty.insert lead .empty)).get? x = some m ∧
      W lead x m := by
  have hsearch : IsSearch W nodes links lead ([lead], SortedMap.empty.insert lead .empty) := by
    have hkeys : ∀ x, x ∈ (SortedMap.empty.insert lead Mapping.empty).keys ↔ x = lead := fun x => by
      rw [SortedMap.mem_keys_insert]
      exact or_iff_left List.not_mem_nil
    refine ⟨fun x hx => ?_, fun x hx => ?_, fun x hx hx' => ?_, fun x m hm => ?_⟩
    · exact (hkeys x).2 (List.mem_singleton.1 hx)
    · rwa [(hkeys x).1 hx]
    · exact absurd (List.mem_singleton.2 ((hkeys x).1 hx)) hx'
    · exact Or.inl ((hkeys x).1 (SortedMap.mem_keys_iff.2 ⟨m, hm⟩))
  have hfuel : [lead].length + nodes.length ≤
      nodes.length + (SortedMap.empty.insert lead Mapping.empty).keys.length := by
    rw [SortedMap.length_keys_insert List.not_mem_nil, List.length_singleton]
    exact (Nat.add_comm _ _).le
  obtain ⟨hend, hkeep⟩ := hsearch.explore hW hlinks
    (fun x hx y hy => hnodes x hx y (mem_neighbours.1 hy)) nodes.length hfuel
  have hfound : lead ∈ (explore links lead nodes.length [lead] (SortedMap.empty.insert lead .empty)).keys :=
    hkeep lead (SortedMap.mem_keys_insert.2 (Or.inl rfl))
  obtain ⟨m, hm⟩ := SortedMap.mem_keys_iff.1 ((hend.mem_keys_iff hx).1 hfound)
  exact ⟨m, hm, (hend.led x m hm).resolve_left hne⟩

end CircuitEquiv.Folding
