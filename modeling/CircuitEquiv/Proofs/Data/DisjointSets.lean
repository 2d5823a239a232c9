-- SUMMARY: Disjoint sets are the classes of the least equivalence that relates the keys of every union.
import CircuitEquiv.Data.UnionFind
import CircuitEquiv.Proofs.Data.Ordered
import Mathlib.Data.Finset.Card
import Mathlib.Logic.Relation

/-!
# Disjoint sets

Two keys are in one set when they have one root. Asking for a key changes no root, and a union makes one
set of two. So after any unions the sets are the classes of the least equivalence that relates the keys of
every union. The sizes count the members of the sets, and the tracked roots are the roots.
-/

namespace CircuitEquiv.UnionFind

open Relation (EqvGen)

variable {α : Type} [Ord α] {u : UnionFind α} {a b x y big small : α}

/-! ## Roots -/

/-- The root of a key; a key that is not known is its own root. -/
def rootOf (u : UnionFind α) (x : α) : α := u.roots.getD x x

/-- Roots are known, and their own roots. -/
structure IsValid (u : UnionFind α) : Prop where
  mem : ∀ x ∈ u.roots.keys, u.rootOf x ∈ u.roots.keys
  idem : ∀ x, u.rootOf (u.rootOf x) = u.rootOf x

theorem isValid_empty : IsValid (empty : UnionFind α) :=
  ⟨fun _ h => absurd h List.not_mem_nil, fun _ => rfl⟩

theorem rootOf_eq_of_get? {r : α} (h : u.roots.get? x = some r) : u.rootOf x = r := by
  rw [rootOf, SortedMap.getD, h, Option.getD_some]

/-! ## The generated equivalence -/

/-- The sets are the classes of the least equivalence that contains a relation. -/
structure Generates (r : α → α → Prop) (u : UnionFind α) : Prop where
  isValid : u.IsValid
  rootOf_eq_iff : ∀ x y, u.rootOf x = u.rootOf y ↔ EqvGen r x y

namespace Generates

variable {r r' : α → α → Prop}

theorem congr (h : Generates r u) (hr : ∀ x y, r x y ↔ r' x y) : Generates r' u := by
  obtain rfl : r = r' := funext fun x => funext fun y => propext (hr x y)
  exact h

theorem empty : Generates (fun _ _ => False) (empty : UnionFind α) where
  isValid := isValid_empty
  rootOf_eq_iff x y := by
    refine ⟨fun h => ?_, fun h => ?_⟩
    · cases (show x = y from h)
      exact .refl x
    · induction h with
      | rel _ _ h => exact h.elim
      | refl => rfl
      | symm _ _ _ ih => exact ih.symm
      | trans _ _ _ _ _ ih ih' => exact ih.trans ih'

theorem tracked : Generates (fun _ _ => False) (tracked : UnionFind α) where
  isValid := ⟨fun _ h => absurd h List.not_mem_nil, fun _ => rfl⟩
  rootOf_eq_iff := Generates.empty.rootOf_eq_iff

/-- What relates the keys of a pair that is added. -/
theorem eqvGen_of_pair (h : Generates r u) {x' y' : α} (hpair : EqvGen r' x' y')
    (hmono : ∀ x y, r x y → r' x y) (hx : u.rootOf x = u.rootOf x') (hy : u.rootOf y = u.rootOf y') :
    EqvGen r' x y :=
  .trans _ _ _ (((h.rootOf_eq_iff x x').1 hx).mono hmono)
    (.trans _ _ _ hpair (.symm _ _ (((h.rootOf_eq_iff y y').1 hy).mono hmono)))

/-- A pair of keys of one set adds nothing to the relation. -/
theorem of_rootOf_eq (h : Generates r u) (heq : u.rootOf a = u.rootOf b) :
    Generates (fun x y => r x y ∨ x = a ∧ y = b) u where
  isValid := h.isValid
  rootOf_eq_iff x y := by
    rw [h.rootOf_eq_iff]
    refine ⟨fun hxy => hxy.mono fun _ _ => Or.inl, fun hxy => ?_⟩
    induction hxy with
    | rel x y hxy =>
      rcases hxy with hxy | ⟨rfl, rfl⟩
      · exact .rel _ _ hxy
      · exact (h.rootOf_eq_iff x y).1 heq
    | refl => exact .refl _
    | symm _ _ _ ih => exact ih.symm
    | trans _ _ _ _ _ ih ih' => exact ih.trans _ _ _ ih'

end Generates

/-! ## Lookups -/

section Lookup

variable [Std.LawfulEqOrd α]

theorem rootOf_of_not_mem (h : x ∉ u.roots.keys) : u.rootOf x = x := by
  rw [rootOf, SortedMap.getD, SortedMap.get?_eq_none_iff.2 h, Option.getD_none]

theorem get?_roots (h : x ∈ u.roots.keys) : u.roots.get? x = some (u.rootOf x) := by
  obtain ⟨r, hr⟩ := SortedMap.mem_keys_iff.1 h
  rw [hr, rootOf_eq_of_get? hr]

end Lookup

variable [Std.TransOrd α] [Std.LawfulEqOrd α]

/-! ## Asking for keys -/

@[simp]
theorem fst_find : (u.find a).1 = u.rootOf a := by
  unfold find
  split
  · rename_i r hr
    exact (rootOf_eq_of_get? hr).symm
  · rename_i hnone
    exact (rootOf_of_not_mem (SortedMap.get?_eq_none_iff.1 hnone)).symm

theorem find_of_mem (h : a ∈ u.roots.keys) : (u.find a).2 = u := by
  rw [UnionFind.find, get?_roots h]

theorem find_of_not_mem (h : a ∉ u.roots.keys) : (u.find a).2 =
    ⟨u.roots.insert a a, u.sizes.insert a 1, u.representatives.map (·.insert a)⟩ := by
  rw [UnionFind.find, SortedMap.get?_eq_none_iff.2 h]

variable [DecidableEq α]

theorem get?_roots_find :
    (u.find a).2.roots.get? x = if x = a then some (u.rootOf a) else u.roots.get? x := by
  unfold find
  split
  · rename_i r hr
    split
    · rename_i hx
      rw [hx, hr, rootOf_eq_of_get? hr]
    · rfl
  · rename_i hnone
    rw [SortedMap.get?_insert, rootOf_of_not_mem (SortedMap.get?_eq_none_iff.1 hnone)]

@[simp]
theorem rootOf_find : (u.find a).2.rootOf x = u.rootOf x := by
  rw [rootOf, SortedMap.getD, get?_roots_find]
  split
  · rename_i hx
    rw [hx, Option.getD_some]
  · rfl

@[simp]
theorem mem_keys_find : x ∈ (u.find a).2.roots.keys ↔ x = a ∨ x ∈ u.roots.keys := by
  rw [SortedMap.mem_keys_iff, SortedMap.mem_keys_iff, get?_roots_find]
  split <;> simp [*]

theorem IsValid.find (h : u.IsValid) (a : α) : (u.find a).2.IsValid where
  mem x hx := by
    rw [rootOf_find, mem_keys_find]
    by_cases hmem : x ∈ u.roots.keys
    · exact Or.inr (h.mem x hmem)
    · rw [rootOf_of_not_mem hmem]
      exact mem_keys_find.1 hx
  idem x := by rw [rootOf_find, rootOf_find, h.idem]

/-! ## Unions -/

theorem get?_roots_absorb : (u.absorb big small).roots.get? x =
    (u.roots.get? x).map fun root => if root = small then big else root := SortedMap.get?_mapValues ..

theorem mem_keys_absorb : x ∈ (u.absorb big small).roots.keys ↔ x ∈ u.roots.keys := by
  simp only [SortedMap.mem_keys_iff, get?_roots_absorb, Option.map_eq_some_iff]
  exact ⟨fun ⟨_, r, hr, _⟩ => ⟨r, hr⟩, fun ⟨r, hr⟩ => ⟨_, r, hr, rfl⟩⟩

theorem rootOf_absorb (hsmall : small ∈ u.roots.keys) :
    (u.absorb big small).rootOf x = if u.rootOf x = small then big else u.rootOf x := by
  by_cases hx : x ∈ u.roots.keys
  · exact rootOf_eq_of_get? (by rw [get?_roots_absorb, get?_roots hx, Option.map_some])
  · rw [rootOf_of_not_mem fun h => hx (mem_keys_absorb.1 h), rootOf_of_not_mem hx,
      if_neg fun heq : x = small => hx (heq ▸ hsmall)]

theorem IsValid.absorb (h : u.IsValid) (hbig : big ∈ u.roots.keys) (hroot : u.rootOf big = big)
    (hsmall : small ∈ u.roots.keys) (hne : big ≠ small) : (u.absorb big small).IsValid where
  mem x hx := by
    rw [rootOf_absorb hsmall, mem_keys_absorb]
    split
    · exact hbig
    · exact h.mem x (mem_keys_absorb.1 hx)
  idem x := by
    simp only [rootOf_absorb hsmall]
    by_cases hx : u.rootOf x = small
    · rw [if_pos hx, hroot, if_neg hne]
    · rw [if_neg hx, h.idem, if_neg hx]

/-- Only the keys of the two sets get one root. -/
theorem rootOf_absorb_eq_iff (hsmall : small ∈ u.roots.keys) :
    (u.absorb big small).rootOf x = (u.absorb big small).rootOf y ↔ u.rootOf x = u.rootOf y ∨
      u.rootOf x = big ∧ u.rootOf y = small ∨ u.rootOf x = small ∧ u.rootOf y = big := by
  rw [rootOf_absorb hsmall, rootOf_absorb hsmall]
  by_cases hx : u.rootOf x = small <;> by_cases hy : u.rootOf y = small <;>
    simp only [hx, hy, if_true, if_false] <;> grind

theorem union_eq (u : UnionFind α) (a b : α) : u.union a b =
    if u.rootOf a = u.rootOf b then (u.rootOf a, ((u.find a).2.find b).2)
    else if ((u.find a).2.find b).2.size (u.rootOf a) ≥ ((u.find a).2.find b).2.size (u.rootOf b) then
      (u.rootOf a, ((u.find a).2.find b).2.absorb (u.rootOf a) (u.rootOf b))
    else (u.rootOf b, ((u.find a).2.find b).2.absorb (u.rootOf b) (u.rootOf a)) := by
  have hb : ((u.find a).2.find b).1 = u.rootOf b := by rw [fst_find, rootOf_find]
  rw [← hb, ← fst_find]
  rfl

theorem same_eq (u : UnionFind α) (a b : α) :
    u.same a b = (u.rootOf a == u.rootOf b, ((u.find a).2.find b).2) := by
  have hb : ((u.find a).2.find b).1 = u.rootOf b := by rw [fst_find, rootOf_find]
  rw [← hb, ← fst_find]
  rfl

theorem IsValid.rootOf_mem_find (h : u.IsValid) :
    u.rootOf a ∈ ((u.find a).2.find b).2.roots.keys ∧ u.rootOf b ∈ ((u.find a).2.find b).2.roots.keys := by
  have hmem := ((h.find a).find b).mem
  simp only [rootOf_find, mem_keys_find] at hmem ⊢
  exact ⟨hmem a (Or.inr (Or.inl rfl)), hmem b (Or.inl rfl)⟩

theorem mem_keys_union : x ∈ (u.union a b).2.roots.keys ↔ x = a ∨ x = b ∨ x ∈ u.roots.keys := by
  have hfind : x ∈ ((u.find a).2.find b).2.roots.keys ↔ x = a ∨ x = b ∨ x ∈ u.roots.keys := by
    rw [mem_keys_find, mem_keys_find, or_left_comm]
  rw [union_eq]
  split
  · exact hfind
  · split <;> rw [mem_keys_absorb, hfind]

theorem IsValid.union (h : u.IsValid) (a b : α) : (u.union a b).2.IsValid := by
  have hfind := (h.find a).find b
  obtain ⟨ha, hb⟩ := @IsValid.rootOf_mem_find _ _ u a b _ _ _ h
  rw [union_eq]
  split
  · exact hfind
  · rename_i hne
    split
    · exact hfind.absorb ha (by simp only [rootOf_find, h.idem]) hb hne
    · exact hfind.absorb hb (by simp only [rootOf_find, h.idem]) ha (Ne.symm hne)

/-- A union makes one set of the sets of the two keys. -/
theorem IsValid.rootOf_union_eq_iff (h : u.IsValid) :
    (u.union a b).2.rootOf x = (u.union a b).2.rootOf y ↔ u.rootOf x = u.rootOf y ∨
      u.rootOf x = u.rootOf a ∧ u.rootOf y = u.rootOf b ∨
        u.rootOf x = u.rootOf b ∧ u.rootOf y = u.rootOf a := by
  obtain ⟨ha, hb⟩ := @IsValid.rootOf_mem_find _ _ u a b _ _ _ h
  rw [union_eq]
  split
  · rename_i heq
    rw [rootOf_find, rootOf_find, rootOf_find, rootOf_find, heq]
    grind
  · split
    · rw [rootOf_absorb_eq_iff hb]
      simp only [rootOf_find]
    · rw [rootOf_absorb_eq_iff ha]
      simp only [rootOf_find]
      exact or_congr_right or_comm

namespace Generates

variable {r : α → α → Prop}

theorem find (h : Generates r u) (a : α) : Generates r (u.find a).2 where
  isValid := h.isValid.find a
  rootOf_eq_iff x y := by rw [rootOf_find, rootOf_find, h.rootOf_eq_iff]

/-- A union adds the pair of its keys to the relation. -/
theorem union (h : Generates r u) (a b : α) :
    Generates (fun x y => r x y ∨ x = a ∧ y = b) (u.union a b).2 where
  isValid := h.isValid.union a b
  rootOf_eq_iff x y := by
    have hpair : EqvGen (fun x y => r x y ∨ x = a ∧ y = b) a b := .rel _ _ (Or.inr ⟨rfl, rfl⟩)
    constructor
    · intro heq
      rcases h.isValid.rootOf_union_eq_iff.1 heq with hxy | ⟨hx, hy⟩ | ⟨hx, hy⟩
      · exact ((h.rootOf_eq_iff x y).1 hxy).mono fun _ _ => Or.inl
      · exact h.eqvGen_of_pair hpair (fun _ _ => Or.inl) hx hy
      · exact h.eqvGen_of_pair (.symm _ _ hpair) (fun _ _ => Or.inl) hx hy
    · intro heq
      induction heq with
      | rel x y hxy =>
        rw [h.isValid.rootOf_union_eq_iff]
        rcases hxy with hxy | ⟨rfl, rfl⟩
        · exact Or.inl ((h.rootOf_eq_iff x y).2 (.rel _ _ hxy))
        · exact Or.inr (Or.inl ⟨rfl, rfl⟩)
      | refl => rfl
      | symm _ _ _ ih => exact ih.symm
      | trans _ _ _ _ _ ih ih' => exact ih.trans ih'

end Generates

/-! ## Groups -/

/-- A group holds the known keys of one set, ascending. -/
theorem mem_values_groups {group : List α} : group ∈ u.groups.values ↔
    ∃ x ∈ u.roots.keys, group = u.roots.keys.filter fun y => u.rootOf y = u.rootOf x := by
  have hroot : ∀ e ∈ u.roots.entries, u.rootOf e.1 = e.2 := fun e he =>
    rootOf_eq_of_get? (SortedMap.get?_eq_some_iff.2 he)
  have hfilter : ∀ r, (u.roots.entries.filter fun e => e.2 = r).map (·.1) =
      u.roots.keys.filter fun y => u.rootOf y = r := by
    intro r
    rw [SortedMap.keys, List.filter_map]
    refine congrArg _ (List.filter_congr fun e he => ?_)
    rw [Function.comp_apply, hroot e he]
  rw [groups, SortedMap.mem_values_groupValues_map]
  constructor
  · rintro ⟨e, he, rfl⟩
    refine ⟨e.1, List.mem_map_of_mem he, ?_⟩
    rw [hroot e he, hfilter]
  · rintro ⟨x, hx, rfl⟩
    obtain ⟨e, he, rfl⟩ := List.mem_map.1 hx
    exact ⟨e, he, by rw [hroot e he, hfilter]⟩

/-- The group of a root holds the known keys with that root, ascending. -/
theorem mem_entries_groups {root : α} {group : List α} (h : (root, group) ∈ u.groups.entries) :
    group = u.roots.keys.filter fun x => u.rootOf x = root := by
  obtain ⟨-, rfl⟩ := SortedMap.mem_entries_groupValues.1 h
  rw [List.filter_map, List.map_map, SortedMap.keys, List.filter_map]
  refine congrArg _ (List.filter_congr fun e he => ?_)
  show decide (e.2 = root) = decide (u.rootOf e.1 = root)
  rw [rootOf_eq_of_get? (SortedMap.get?_eq_some_iff.2 he)]

theorem exists_mem_groups (hx : x ∈ u.roots.keys) : ∃ group ∈ u.groups.values, x ∈ group :=
  ⟨_, mem_values_groups.2 ⟨x, hx, rfl⟩, List.mem_filter.2 ⟨hx, decide_eq_true rfl⟩⟩

/-- With a key, a group holds just the known keys of its set. -/
theorem mem_group_iff {group : List α} (hgroup : group ∈ u.groups.values) (hx : x ∈ group) :
    y ∈ group ↔ y ∈ u.roots.keys ∧ u.rootOf y = u.rootOf x := by
  obtain ⟨z, -, rfl⟩ := mem_values_groups.1 hgroup
  rw [List.mem_filter, decide_eq_true_iff] at hx ⊢
  rw [hx.2]

omit [Std.LawfulEqOrd α] [DecidableEq α] in
/-- Every known key is in one group, and only once. -/
theorem flatten_groups_perm (u : UnionFind α) : u.groups.values.flatten.Perm u.roots.keys := by
  have hperm := SortedMap.flatten_values_groupValues_perm (u.roots.entries.map fun e => (e.2, e.1))
  rw [List.map_map] at hperm
  exact hperm

/-! ## Counting -/

/-- The known keys with a root. -/
def members (u : UnionFind α) (root : α) : Finset α :=
  u.roots.keys.toFinset.filter fun x => u.rootOf x = root

omit [Std.TransOrd α] [Std.LawfulEqOrd α] in
theorem mem_members : x ∈ u.members y ↔ x ∈ u.roots.keys ∧ u.rootOf x = y := by
  rw [members, Finset.mem_filter, List.mem_toFinset]

/-- The size of a root is the number of its keys, and the tracked roots are the roots. -/
structure IsCounted (u : UnionFind α) : Prop where
  size : ∀ x ∈ u.roots.keys, u.rootOf x = x → u.sizes.get? x = some (u.members x).card
  representatives : ∀ s, u.representatives = some s →
    ∀ x, x ∈ s ↔ x ∈ u.roots.keys ∧ u.rootOf x = x

omit [Std.TransOrd α] [Std.LawfulEqOrd α] in
theorem isCounted_empty : IsCounted (empty : UnionFind α) where
  size _ h := absurd h List.not_mem_nil
  representatives _ h := nomatch h

omit [Std.TransOrd α] [Std.LawfulEqOrd α] in
theorem isCounted_tracked : IsCounted (tracked : UnionFind α) where
  size _ h := absurd h List.not_mem_nil
  representatives s h x := by
    cases h
    exact ⟨fun hx => absurd hx SortedSet.not_mem_empty, fun hx => absurd hx.1 List.not_mem_nil⟩

/-- A new key is the only one of its set. -/
theorem members_find (h : u.IsValid) (hnew : a ∉ u.roots.keys) :
    (u.find a).2.members x = if x = a then {a} else u.members x := by
  ext y
  rw [mem_members, mem_keys_find, rootOf_find]
  by_cases hx : x = a
  · rw [if_pos hx, Finset.mem_singleton, hx]
    constructor
    · rintro ⟨rfl | hy, hroot⟩
      · rfl
      · exact absurd (hroot ▸ h.mem y hy) hnew
    · rintro rfl
      exact ⟨Or.inl rfl, rootOf_of_not_mem hnew⟩
  · rw [if_neg hx, mem_members]
    refine and_congr_left fun hroot => or_iff_right ?_
    rintro rfl
    exact hx (hroot.symm.trans (rootOf_of_not_mem hnew))

theorem IsCounted.find (h : u.IsCounted) (hu : u.IsValid) (a : α) : (u.find a).2.IsCounted := by
  by_cases hmem : a ∈ u.roots.keys
  · rwa [find_of_mem hmem]
  · constructor
    · intro x hx hroot
      rw [mem_keys_find] at hx
      rw [rootOf_find] at hroot
      rw [members_find hu hmem, find_of_not_mem hmem, SortedMap.get?_insert]
      by_cases hxa : x = a
      · rw [if_pos hxa, if_pos hxa, Finset.card_singleton]
      · rw [if_neg hxa, if_neg hxa]
        exact h.size x (hx.resolve_left hxa) hroot
    · intro s hs x
      rw [find_of_not_mem hmem] at hs
      obtain ⟨t, ht, rfl⟩ := Option.map_eq_some_iff.1 hs
      rw [SortedSet.mem_insert, mem_keys_find, rootOf_find, h.representatives t ht]
      constructor
      · rintro (rfl | ⟨hx, hroot⟩)
        · exact ⟨Or.inl rfl, rootOf_of_not_mem hmem⟩
        · exact ⟨Or.inr hx, hroot⟩
      · rintro ⟨rfl | hx, hroot⟩
        · exact Or.inl rfl
        · exact Or.inr ⟨hx, hroot⟩

/-- The set of the root that survives takes in the other one. -/
theorem members_absorb (hsmall : small ∈ u.roots.keys) (hx : x ≠ small) :
    (u.absorb big small).members x = if x = big then u.members big ∪ u.members small else u.members x := by
  ext y
  rw [mem_members, mem_keys_absorb, rootOf_absorb hsmall]
  by_cases hxbig : x = big
  · rw [if_pos hxbig, Finset.mem_union, mem_members, mem_members, hxbig, ← and_or_left]
    refine and_congr_right fun _ => ?_
    by_cases hy : u.rootOf y = small <;> simp [hy]
  · rw [if_neg hxbig, mem_members]
    refine and_congr_right fun _ => ?_
    by_cases hy : u.rootOf y = small
    · rw [if_pos hy, hy]
      exact ⟨fun h => absurd h.symm hxbig, fun h => absurd h.symm hx⟩
    · rw [if_neg hy]

theorem IsCounted.absorb (h : u.IsCounted) (hbig : big ∈ u.roots.keys) (hbigroot : u.rootOf big = big)
    (hsmall : small ∈ u.roots.keys) (hsmallroot : u.rootOf small = small) (hne : big ≠ small) :
    (u.absorb big small).IsCounted := by
  have hroots : ∀ x, (u.absorb big small).rootOf x = x ↔ x ≠ small ∧ u.rootOf x = x := by
    intro x
    rw [rootOf_absorb hsmall]
    by_cases hx : u.rootOf x = small
    · rw [if_pos hx]
      refine ⟨?_, fun ⟨hxsmall, hroot⟩ => absurd (hroot.symm.trans hx) hxsmall⟩
      rintro rfl
      exact absurd (hbigroot.symm.trans hx) hne
    · rw [if_neg hx, and_iff_right_of_imp]
      rintro - rfl
      exact hx hsmallroot
  constructor
  · intro x hx hroot
    rw [mem_keys_absorb] at hx
    obtain ⟨hxsmall, hroot⟩ := (hroots x).1 hroot
    have hget : (u.absorb big small).sizes.get? x =
        if x = big then some (u.size big + u.size small) else u.sizes.get? x := by
      show ((u.sizes.insert big _).erase small).get? x = _
      rw [SortedMap.get?_erase, if_neg hxsmall, SortedMap.get?_insert]
    rw [hget, members_absorb hsmall hxsmall]
    by_cases hxbig : x = big
    · have hdisjoint : Disjoint (u.members big) (u.members small) := by
        refine Finset.disjoint_left.2 fun y hy hy' => hne ?_
        exact (mem_members.1 hy).2.symm.trans (mem_members.1 hy').2
      rw [if_pos hxbig, if_pos hxbig, Finset.card_union_of_disjoint hdisjoint, UnionFind.size,
        UnionFind.size, SortedMap.getD, SortedMap.getD, h.size big hbig hbigroot,
        h.size small hsmall hsmallroot, Option.getD_some, Option.getD_some]
    · rw [if_neg hxbig, if_neg hxbig]
      exact h.size x hx hroot
  · intro s hs x
    obtain ⟨t, ht, rfl⟩ := Option.map_eq_some_iff.1 hs
    rw [SortedSet.erase, SortedSet.mem_filter, h.representatives t ht, mem_keys_absorb, hroots,
      decide_eq_true_iff]
    tauto

theorem IsCounted.union (h : u.IsCounted) (hu : u.IsValid) (a b : α) : (u.union a b).2.IsCounted := by
  have hfind := (h.find hu a).find (hu.find a) b
  obtain ⟨ha, hb⟩ := @IsValid.rootOf_mem_find _ _ u a b _ _ _ hu
  have hroot : ∀ x, ((u.find a).2.find b).2.rootOf (u.rootOf x) = u.rootOf x := fun x => by
    rw [rootOf_find, rootOf_find, hu.idem]
  rw [union_eq]
  split
  · exact hfind
  · rename_i hne
    split
    · exact hfind.absorb ha (hroot a) hb (hroot b) hne
    · exact hfind.absorb hb (hroot b) ha (hroot a) (Ne.symm hne)

/-! ## Answers of unions -/

omit [Ord α] [Std.TransOrd α] [Std.LawfulEqOrd α] [DecidableEq α] in
/-- Relations generate one equivalence if each is part of what the other one generates. -/
theorem eqvGen_congr {r r' : α → α → Prop} (h : ∀ x y, r x y → EqvGen r' x y)
    (h' : ∀ x y, r' x y → EqvGen r x y) : EqvGen r x y ↔ EqvGen r' x y := by
  constructor
  · exact fun hxy => (EqvGen.is_equivalence r').eqvGen_iff.1 (hxy.mono h)
  · exact fun hxy => (EqvGen.is_equivalence r).eqvGen_iff.1 (hxy.mono h')

/-- A union answers with the root that its keys have afterwards. -/
theorem IsValid.fst_union (h : u.IsValid) (a b : α) : (u.union a b).1 = (u.union a b).2.rootOf a := by
  obtain ⟨ha, hb⟩ := @IsValid.rootOf_mem_find _ _ u a b _ _ _ h
  rw [union_eq]
  split
  · rw [rootOf_find, rootOf_find]
  · rename_i hne
    split
    · rw [rootOf_absorb hb, rootOf_find, rootOf_find, if_neg hne]
    · rw [rootOf_absorb ha, rootOf_find, rootOf_find, if_pos rfl]

/-- The sets are the classes of the generated equivalence, counted and tracked, over the known keys. -/
structure Tracks (tracked : Bool) (known : α → Prop) (r : α → α → Prop) (u : UnionFind α) : Prop where
  generates : Generates r u
  isCounted : u.IsCounted
  isSome : u.representatives.isSome = tracked
  mem_keys : ∀ x, x ∈ u.roots.keys ↔ known x

namespace Tracks

variable {tracked : Bool} {known known' : α → Prop} {r r' : α → α → Prop}

omit [Std.TransOrd α] [Std.LawfulEqOrd α] in
theorem congr (h : Tracks tracked known r u) (hknown : ∀ x, known x ↔ known' x)
    (hr : ∀ x y, EqvGen r x y ↔ EqvGen r' x y) : Tracks tracked known' r' u where
  generates := ⟨h.generates.isValid, fun x y => (h.generates.rootOf_eq_iff x y).trans (hr x y)⟩
  isCounted := h.isCounted
  isSome := h.isSome
  mem_keys x := (h.mem_keys x).trans (hknown x)

theorem find (h : Tracks tracked known r u) (a : α) :
    Tracks tracked (fun x => x = a ∨ known x) r (u.find a).2 where
  generates := h.generates.find a
  isCounted := h.isCounted.find h.generates.isValid a
  isSome := by
    rw [← h.isSome]
    by_cases hmem : a ∈ u.roots.keys
    · rw [find_of_mem hmem]
    · rw [find_of_not_mem hmem, Option.isSome_map]
  mem_keys x := mem_keys_find.trans (or_congr_right (h.mem_keys x))

theorem union (h : Tracks tracked known r u) (a b : α) :
    Tracks tracked (fun x => x = a ∨ x = b ∨ known x) (fun x y => r x y ∨ x = a ∧ y = b)
      (u.union a b).2 where
  generates := h.generates.union a b
  isCounted := h.isCounted.union h.generates.isValid a b
  isSome := by
    rw [← ((h.find a).find b).isSome, union_eq]
    split
    · rfl
    · split <;> exact Option.isSome_map
  mem_keys x := mem_keys_union.trans (or_congr_right (or_congr_right (h.mem_keys x)))

/-- Joining keys one after the other with the root of a known one relates them all to it. -/
theorem foldl_union (rest : List α) {first root : α} (h : Tracks tracked known r u)
    (hfirst : known first) (hroot : u.rootOf first = root) :
    let next := rest.foldl (fun (root, u) key => UnionFind.union u root key) (root, u)
    next.1 = next.2.rootOf first ∧ Tracks tracked (fun x => x ∈ rest ∨ known x)
      (fun x y => r x y ∨ x = first ∧ y ∈ rest) next.2 := by
  induction rest generalizing u root known r with
  | nil =>
    exact ⟨hroot.symm, h.congr (fun x => by simp) fun x y =>
      eqvGen_congr (fun x y hxy => .rel _ _ (Or.inl hxy)) fun x y hxy => .rel _ _ (by simpa using hxy)⟩
  | cons key rest ih =>
    have hnext := h.union root key
    have hvalid := h.generates.isValid
    have hmem : known root := by
      rw [← h.mem_keys, ← hroot]
      exact hvalid.mem first ((h.mem_keys first).2 hfirst)
    have hlinked : EqvGen r first root := (h.generates.rootOf_eq_iff first root).1 (by
      rw [← hroot, hvalid.idem])
    have hroot' : (u.union root key).2.rootOf first = (u.union root key).1 := by
      rw [hvalid.fst_union, hnext.generates.rootOf_eq_iff]
      exact hlinked.mono fun _ _ => Or.inl
    have hrelated : Tracks tracked (fun x => x = key ∨ known x)
        (fun x y => r x y ∨ x = first ∧ y = key) (u.union root key).2 := by
      refine hnext.congr (fun x => or_iff_right_of_imp fun hx => Or.inr (hx ▸ hmem)) fun x y =>
        eqvGen_congr (fun x y hxy => ?_) fun x y hxy => ?_
      · rcases hxy with hxy | ⟨rfl, rfl⟩
        · exact .rel _ _ (Or.inl hxy)
        · exact .trans _ _ _ (.symm _ _ (hlinked.mono fun _ _ => Or.inl)) (.rel _ _ (Or.inr ⟨rfl, rfl⟩))
      · rcases hxy with hxy | ⟨rfl, rfl⟩
        · exact .rel _ _ (Or.inl hxy)
        · exact .trans _ _ _ (hlinked.mono fun _ _ => Or.inl) (.rel _ _ (Or.inr ⟨rfl, rfl⟩))
    obtain ⟨hlast, htracks⟩ := ih hrelated (Or.inr hfirst) hroot'
    refine ⟨hlast, htracks.congr (fun x => ?_) fun x y =>
      eqvGen_congr (fun x y hxy => .rel _ _ ?_) fun x y hxy => .rel _ _ ?_⟩
    · rw [List.mem_cons, or_left_comm, or_assoc]
    · rw [List.mem_cons]
      tauto
    · rw [List.mem_cons] at hxy
      tauto

/-- Joining listed keys relates them to one another, and answers with their root. -/
theorem unionAll (h : Tracks tracked known r u) (keys : List α) :
    (∀ first ∈ keys, (u.unionAll keys).1 = some ((u.unionAll keys).2.rootOf first)) ∧
      Tracks tracked (fun x => x ∈ keys ∨ known x) (fun x y => r x y ∨ x ∈ keys ∧ y ∈ keys)
        (u.unionAll keys).2 := by
  cases keys with
  | nil =>
    exact ⟨fun _ hx => absurd hx List.not_mem_nil, h.congr (fun x => by simp) fun x y =>
      eqvGen_congr (fun x y hxy => .rel _ _ (Or.inl hxy)) fun x y hxy => .rel _ _ (by simpa using hxy)⟩
  | cons first rest =>
    have hfind : u.find first = (u.rootOf first, (u.find first).2) := Prod.ext fst_find rfl
    obtain ⟨hroot, htracks⟩ := (h.find first).foldl_union rest (Or.inl rfl) rootOf_find
    have hall : u.unionAll (first :: rest) =
        (some (rest.foldl (fun (root, u) key => UnionFind.union u root key)
            (u.rootOf first, (u.find first).2)).1,
          (rest.foldl (fun (root, u) key => UnionFind.union u root key)
            (u.rootOf first, (u.find first).2)).2) := by
      rw [← hfind]
      rfl
    have hrelated : ∀ z ∈ first :: rest, EqvGen (fun x y => r x y ∨ x = first ∧ y ∈ rest) first z :=
      fun z hz => by
        rcases List.mem_cons.1 hz with rfl | hz
        · exact .refl _
        · exact .rel _ _ (Or.inr ⟨rfl, hz⟩)
    rw [hall]
    refine ⟨fun z hz => ?_, htracks.congr (fun x => ?_) fun x y =>
      eqvGen_congr (fun x y hxy => .rel _ _ ?_) fun x y hxy => ?_⟩
    · rw [hroot, (htracks.generates.rootOf_eq_iff first z).2 (hrelated z hz)]
    · rw [List.mem_cons, or_left_comm, or_assoc]
    · rcases hxy with hxy | ⟨rfl, hy⟩
      · exact Or.inl hxy
      · exact Or.inr ⟨List.mem_cons_self, List.mem_cons_of_mem _ hy⟩
    · rcases hxy with hxy | ⟨hx, hy⟩
      · exact .rel _ _ (Or.inl hxy)
      · exact .trans _ _ _ (.symm _ _ (hrelated x hx)) (hrelated y hy)

end Tracks

end CircuitEquiv.UnionFind
