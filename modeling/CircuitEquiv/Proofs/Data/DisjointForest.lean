-- SUMMARY: A forest with path compression answers every sequence of calls by the generated equivalence.
import CircuitEquiv.Data.DisjointForest
import CircuitEquiv.Proofs.Data.DisjointSets
import Mathlib.Data.Set.Card

/-!
# Forests of disjoint sets

A climb leaves no key twice, so it ends at a root after at most as many steps as there are keys. Pointing
the keys of a climb at its root changes no root, and hanging a root below another one moves just the keys
of its set. A forest so keeps representing a table of roots, and gives the answers of the table: keys are
together if the unions made so far relate them.
-/

namespace CircuitEquiv.DisjointForest

open Relation (EqvGen)

variable {α : Type} [Ord α] {parents parents' last : SortedMap α α} {x y r s a b big small : α}
  {l l' : List α} {fuel : Nat}

/-! ## Climbing -/

/-- The climb from a key to its root, with the keys that it leaves. -/
inductive Climbs (parents : SortedMap α α) : α → List α → α → Prop
  | root {r : α} (h : parent parents r = r) : Climbs parents r [] r
  | step {x r : α} {l : List α} (h : parent parents x ≠ x)
      (rest : Climbs parents (parent parents x) l r) : Climbs parents x (x :: l) r

namespace Climbs

theorem parent_root (h : Climbs parents x l r) : parent parents r = r := by
  induction h with
  | root h => exact h
  | step _ _ ih => exact ih

theorem parent_ne (h : Climbs parents x l r) (hy : y ∈ l) : parent parents y ≠ y := by
  induction h with
  | root => cases hy
  | step h _ ih =>
    rcases List.mem_cons.1 hy with rfl | hy
    · exact h
    · exact ih hy

theorem root_not_mem (h : Climbs parents x l r) : r ∉ l := fun hr => h.parent_ne hr h.parent_root

theorem mem_or_eq (h : Climbs parents x l r) : x ∈ l ∨ x = r := by
  cases h with
  | root => exact Or.inr rfl
  | step => exact Or.inl List.mem_cons_self

/-- A key has one climb. -/
theorem unique (h : Climbs parents x l r) (h' : Climbs parents x l' s) : l = l' ∧ r = s := by
  induction h generalizing l' with
  | root h =>
    cases h' with
    | root => exact ⟨rfl, rfl⟩
    | step hne => exact absurd h hne
  | step h _ ih =>
    cases h' with
    | root heq => exact absurd heq h
    | step _ rest =>
      obtain ⟨rfl, rfl⟩ := ih rest
      exact ⟨rfl, rfl⟩

/-- The climb from a key that is left is no longer. -/
theorem of_mem (h : Climbs parents x l r) (hy : y ∈ l) :
    ∃ l', l'.length ≤ l.length ∧ Climbs parents y l' r := by
  induction h with
  | root => cases hy
  | step h rest ih =>
    rcases List.mem_cons.1 hy with rfl | hy
    · exact ⟨_, Nat.le_refl _, .step h rest⟩
    · obtain ⟨l', hle, hl'⟩ := ih hy
      exact ⟨l', hle.trans (Nat.le_succ _), hl'⟩

/-- A climb that came back to a key would never end. -/
theorem nodup (h : Climbs parents x l r) : l.Nodup := by
  induction h with
  | root => exact .nil
  | step h rest ih =>
    refine List.nodup_cons.2 ⟨fun hx => ?_, ih⟩
    obtain ⟨l', hle, hl'⟩ := rest.of_mem hx
    -- the key would have a second climb that is shorter
    have heq := congrArg List.length (hl'.unique (.step h rest)).1
    rw [List.length_cons] at heq
    omega

theorem congr (h : Climbs parents x l r)
    (hparent : ∀ y, y = r ∨ y ∈ l → parent parents' y = parent parents y) : Climbs parents' x l r := by
  induction h with
  | root h => exact .root ((hparent _ (Or.inl rfl)).trans h)
  | @step x r l h rest ih =>
    have hx := hparent x (Or.inr List.mem_cons_self)
    refine .step (hx ▸ h) (hx ▸ ih fun y hy => hparent y (hy.imp_right (List.mem_cons_of_mem _)))

theorem mem_keys [Std.LawfulEqOrd α] (h : Climbs parents x l r) (hy : y ∈ l) : y ∈ parents.keys := by
  by_contra hmem
  refine h.parent_ne hy ?_
  rw [parent, SortedMap.getD, SortedMap.get?_eq_none_iff.2 hmem, Option.getD_none]

/-- A climb takes no more steps than there are keys. -/
theorem length_le [Std.LawfulEqOrd α] (h : Climbs parents x l r) : l.length ≤ parents.size := by
  have hle := (List.subperm_of_subset h.nodup fun y hy => h.mem_keys hy).length_le
  rwa [SortedMap.keys, List.length_map] at hle

variable [DecidableEq α]

theorem climb_eq (h : Climbs parents x l r) (hfuel : l.length ≤ fuel) : climb parents fuel x = r := by
  induction h generalizing fuel with
  | root h =>
    cases fuel with
    | zero => rfl
    | succ fuel => rw [climb, if_pos h]
  | step h _ ih =>
    cases fuel with
    | zero => exact absurd hfuel (Nat.not_succ_le_zero _)
    | succ fuel => rw [climb, if_neg h, ih (Nat.le_of_succ_le_succ hfuel)]

end Climbs

/-! ## Compressing -/

section Compress

variable [Std.TransOrd α]

/-- The keys from one up to the root are pointed at the root, one after the other. -/
inductive Compresses (root : α) : SortedMap α α → α → SortedMap α α → Prop
  | done {parents : SortedMap α α} : Compresses root parents root parents
  | step {parents last : SortedMap α α} {x : α} (h : x ≠ root)
      (rest : Compresses root (parents.insert x root) (parent parents x) last) :
      Compresses root parents x last

variable [Std.LawfulEqOrd α] [DecidableEq α]

theorem parent_insert : parent (parents.insert x r) y = if y = x then r else parent parents y := by
  rw [parent, SortedMap.getD, SortedMap.get?_insert]
  split <;> rfl

/-- Compressing comes to an end, and just the keys of the climb get the root as their parent. -/
theorem Climbs.compress (h : Climbs parents x l r) (hfuel : l.length ≤ fuel) :
    Compresses r parents x (compress r fuel parents x) ∧
      ∀ y, (DisjointForest.compress r fuel parents x).get? y =
        if y ∈ l then some r else parents.get? y := by
  induction l generalizing parents x fuel with
  | nil =>
    cases h with
    | root h =>
      have hstop : DisjointForest.compress r fuel parents r = parents := by
        cases fuel with
        | zero => rfl
        | succ fuel => exact if_pos rfl
      rw [hstop]
      exact ⟨.done, fun y => rfl⟩
  | cons z rest ih =>
    obtain ⟨fuel, rfl⟩ : ∃ n, fuel = n + 1 := ⟨fuel - 1, by rw [List.length_cons] at hfuel; omega⟩
    have hnodup := List.nodup_cons.1 h.nodup
    have hne : z ≠ r := fun heq => h.root_not_mem (heq ▸ List.mem_cons_self)
    cases h with
    | step hstep hrest =>
      have hkept : Climbs (parents.insert z r) (parent parents z) rest r :=
        hrest.congr fun y hy => by
          rw [parent_insert, if_neg]
          rintro rfl
          exact hy.elim hne hnodup.1
      obtain ⟨hends, hget⟩ := ih hkept (Nat.le_of_succ_le_succ hfuel)
      have hunfold : DisjointForest.compress r (fuel + 1) parents z =
          DisjointForest.compress r fuel (parents.insert z r) (parent parents z) := if_neg hne
      rw [hunfold]
      refine ⟨.step hne hends, fun y => ?_⟩
      rw [hget, SortedMap.get?_insert]
      by_cases hy : y ∈ rest
      · simp [hy]
      · by_cases hyz : y = z <;> simp [hy, hyz]

/-- A climb after a root was hung below another one ends at that one instead. -/
theorem Climbs.hang (hbig : parent parents big = big) (hsmall : parent parents small = small)
    (hne : big ≠ small) (h : Climbs parents x l r) :
    ∃ l', Climbs (parents.insert small big) x l' (if r = small then big else r) := by
  have hparent : ∀ y, y ≠ small → parent (parents.insert small big) y = parent parents y :=
    fun y hy => parent_insert.trans (if_neg hy)
  have hmoved : parent (parents.insert small big) small = big := parent_insert.trans (if_pos rfl)
  induction h with
  | @root r hr =>
    by_cases hrsmall : r = small
    · rw [if_pos hrsmall, hrsmall]
      refine ⟨[small], .step (fun heq => hne (hmoved.symm.trans heq)) ?_⟩
      rw [hmoved]
      exact .root ((hparent big hne).trans hbig)
    · rw [if_neg hrsmall]
      exact ⟨[], .root ((hparent r hrsmall).trans hr)⟩
  | @step y r l hy _ ih =>
    obtain ⟨l', hl'⟩ := ih
    have hyne : y ≠ small := fun heq => hy (heq ▸ hsmall)
    exact ⟨_, .step (by rwa [hparent y hyne]) (by rwa [hparent y hyne])⟩

end Compress

/-- A climb ends where it did after the keys of another one were pointed at their root. -/
theorem Climbs.of_compressed [DecidableEq α] {k : List α} {t : α} (hl : Climbs parents x l r)
    (hget : ∀ z, parents'.get? z = if z ∈ l then some r else parents.get? z)
    (h : Climbs parents y k t) : ∃ k', Climbs parents' y k' t := by
  have hparent : ∀ z, parent parents' z = if z ∈ l then r else parent parents z := fun z => by
    rw [parent, SortedMap.getD, hget]
    split <;> rfl
  induction h with
  | @root t ht =>
    have hmem : t ∉ l := fun hmem => hl.parent_ne hmem ht
    exact ⟨[], .root (by rw [hparent, if_neg hmem, ht])⟩
  | @step z t k hz hrest ih =>
    by_cases hmem : z ∈ l
    · obtain ⟨_, -, hlz⟩ := hl.of_mem hmem
      -- a key has one climb, so this one ends at the same root
      obtain ⟨-, rfl⟩ := hlz.unique (.step hz hrest)
      have hzr : parent parents' z = r := by rw [hparent, if_pos hmem]
      have hne : z ≠ r := fun heq => hl.root_not_mem (heq ▸ hmem)
      refine ⟨[z], .step (by rw [hzr]; exact hne.symm) ?_⟩
      rw [hzr]
      exact .root (by rw [hparent, if_neg hl.root_not_mem, hl.parent_root])
    · obtain ⟨k', hk'⟩ := ih
      have hsame : parent parents' z = parent parents z := by rw [hparent, if_neg hmem]
      exact ⟨_, .step (by rwa [hsame]) (by rwa [hsame])⟩

/-! ## Representation -/

/-- The forest represents a table of roots: every climb ends at the root in the table, and the sizes of the
roots and the tracked roots are those of the table. -/
structure Represents (d : DisjointForest α) (u : UnionFind α) : Prop where
  mem_keys : ∀ x, x ∈ d.parents.keys ↔ x ∈ u.roots.keys
  climbs : ∀ x, ∃ l, Climbs d.parents x l (u.rootOf x)
  sizes : ∀ x ∈ u.roots.keys, u.rootOf x = x → d.sizes.get? x = u.sizes.get? x
  representatives : d.representatives = u.representatives

variable {d : DisjointForest α} {u : UnionFind α}

theorem represents_empty : Represents (empty false : DisjointForest α) UnionFind.empty where
  mem_keys _ := Iff.rfl
  climbs _ := ⟨[], .root rfl⟩
  sizes _ h := absurd h List.not_mem_nil
  representatives := rfl

theorem represents_tracked : Represents (empty true : DisjointForest α) UnionFind.tracked where
  mem_keys _ := Iff.rfl
  climbs _ := ⟨[], .root rfl⟩
  sizes _ h := absurd h List.not_mem_nil
  representatives := rfl

theorem Represents.parent_eq (h : Represents d u) (hx : u.rootOf x = x) : parent d.parents x = x := by
  obtain ⟨l, hl⟩ := h.climbs x
  exact hx ▸ hl.parent_root

theorem Represents.size_eq (h : Represents d u) (hmem : x ∈ u.roots.keys) (hx : u.rootOf x = x) :
    d.size x = u.size x := by
  rw [size, UnionFind.size, SortedMap.getD, SortedMap.getD, h.sizes x hmem hx]

variable [Std.TransOrd α] [Std.LawfulEqOrd α]

namespace Represents

variable [DecidableEq α]

/-- Hanging a root below another one represents moving the keys of its set. -/
theorem hang (h : Represents d u) (hbig : big ∈ u.roots.keys) (hbigroot : u.rootOf big = big)
    (hsmall : small ∈ u.roots.keys) (hsmallroot : u.rootOf small = small) (hne : big ≠ small) :
    Represents (d.hang big small) (u.absorb big small) where
  mem_keys x := by
    refine SortedMap.mem_keys_insert.trans ?_
    rw [UnionFind.mem_keys_absorb, h.mem_keys]
    exact or_iff_right_of_imp fun hx => hx ▸ hsmall
  climbs x := by
    obtain ⟨l, hl⟩ := h.climbs x
    rw [UnionFind.rootOf_absorb hsmall]
    exact hl.hang (h.parent_eq hbigroot) (h.parent_eq hsmallroot) hne
  sizes x hx hroot := by
    rw [UnionFind.mem_keys_absorb] at hx
    rw [UnionFind.rootOf_absorb hsmall] at hroot
    have hxne : x ≠ small := fun heq => by
      rw [heq, hsmallroot, if_pos rfl] at hroot
      exact hne hroot
    show (d.sizes.insert big _).get? x = ((u.sizes.insert big _).erase small).get? x
    rw [SortedMap.get?_erase, if_neg hxne, SortedMap.get?_insert, SortedMap.get?_insert,
      h.size_eq hbig hbigroot, h.size_eq hsmall hsmallroot]
    by_cases hxbig : x = big
    · rw [if_pos hxbig, if_pos hxbig]
    · rw [if_neg hxbig, if_neg hxbig]
      refine h.sizes x hx ?_
      by_cases hsmallx : u.rootOf x = small
      · rw [if_pos hsmallx] at hroot
        exact absurd hroot.symm hxbig
      · rwa [if_neg hsmallx] at hroot
  representatives := by
    show d.representatives.map _ = u.representatives.map _
    rw [h.representatives]

/-- A key that is not known becomes a set of its own in both. -/
theorem insert (h : Represents d u) (key : α) : Represents (d.insert key) (u.find key).2 := by
  cases hget : u.roots.get? key with
  | some r =>
    have hknown : key ∈ u.roots.keys := SortedMap.mem_keys_iff.2 ⟨r, hget⟩
    have hd : d.insert key = d := if_pos (SortedMap.contains_iff.2 ((h.mem_keys key).2 hknown))
    have hu : (u.find key).2 = u := by
      rw [UnionFind.find, hget]
    rwa [hd, hu]
  | none =>
    have hnew : key ∉ u.roots.keys := SortedMap.get?_eq_none_iff.1 hget
    have hd : d.insert key = ⟨d.parents.insert key key, d.sizes.insert key 1,
        d.representatives.map (·.insert key)⟩ :=
      if_neg fun hcontains => hnew ((h.mem_keys key).1 (SortedMap.contains_iff.1 hcontains))
    have hu : (u.find key).2 = ⟨u.roots.insert key key, u.sizes.insert key 1,
        u.representatives.map (·.insert key)⟩ := by
      rw [UnionFind.find, hget]
    have hself : parent d.parents key = key := h.parent_eq (UnionFind.rootOf_of_not_mem hnew)
    rw [hd]
    exact {
      mem_keys := fun x => by
        rw [UnionFind.mem_keys_find]
        exact SortedMap.mem_keys_insert.trans (or_congr_right (h.mem_keys x))
      climbs := fun x => by
        obtain ⟨l, hl⟩ := h.climbs x
        rw [UnionFind.rootOf_find]
        refine ⟨l, hl.congr fun y _ => parent_insert.trans ?_⟩
        by_cases hy : y = key
        · rw [if_pos hy, hy, hself]
        · rw [if_neg hy]
      sizes := fun x hx hroot => by
        rw [UnionFind.mem_keys_find] at hx
        rw [UnionFind.rootOf_find] at hroot
        rw [hu]
        show (d.sizes.insert key 1).get? x = (u.sizes.insert key 1).get? x
        rw [SortedMap.get?_insert, SortedMap.get?_insert]
        by_cases hxkey : x = key
        · rw [if_pos hxkey, if_pos hxkey]
        · rw [if_neg hxkey, if_neg hxkey]
          exact h.sizes x (hx.resolve_left hxkey) hroot
      representatives := by
        rw [hu]
        show d.representatives.map _ = u.representatives.map _
        rw [h.representatives] }

omit [Std.TransOrd α] in
/-- Pointing the keys of a climb at its root changes no root. -/
theorem compress (h : Represents d u) (hl : Climbs d.parents x l r)
    (hget : ∀ y, parents'.get? y = if y ∈ l then some r else d.parents.get? y) :
    Represents { d with parents := parents' } u where
  mem_keys y := by
    rw [← h.mem_keys, SortedMap.mem_keys_iff, SortedMap.mem_keys_iff]
    show (∃ v, parents'.get? y = some v) ↔ _
    rw [hget]
    by_cases hy : y ∈ l
    · simpa [hy] using SortedMap.mem_keys_iff.1 (hl.mem_keys hy)
    · simp [hy]
  climbs y := by
    obtain ⟨k, hk⟩ := h.climbs y
    exact hl.of_compressed hget hk
  sizes := h.sizes
  representatives := h.representatives

/-- What a call of `find` does: both of its loops come to an end, and just the keys of the climb get a new
parent. -/
theorem find_ends (h : Represents d u) (key : α) : ∃ l last,
    Climbs (d.insert key).parents key l (u.rootOf key) ∧
      Compresses (u.rootOf key) (d.insert key).parents key last ∧
      d.find key = (u.rootOf key, { d.insert key with parents := last }) ∧
      ∀ y, last.get? y = if y ∈ l then some (u.rootOf key) else (d.insert key).parents.get? y := by
  obtain ⟨l, hl⟩ := (h.insert key).climbs key
  rw [UnionFind.rootOf_find] at hl
  obtain ⟨hends, hget⟩ := hl.compress hl.length_le
  refine ⟨l, _, hl, hends, ?_, hget⟩
  rw [find, hl.climb_eq hl.length_le]

theorem find (h : Represents d u) (key : α) :
    (d.find key).1 = u.rootOf key ∧ Represents (d.find key).2 (u.find key).2 := by
  obtain ⟨l, last, hl, -, heq, hget⟩ := h.find_ends key
  rw [heq]
  exact ⟨rfl, (h.insert key).compress hl hget⟩

/-- Both answer a union by the same root. -/
theorem union (h : Represents d u) (hu : u.IsValid) (a b : α) :
    (d.union a b).1 = (u.union a b).1 ∧ Represents (d.union a b).2 (u.union a b).2 := by
  obtain ⟨ha, hrep⟩ := h.find a
  obtain ⟨hb, hrep⟩ := hrep.find b
  rw [UnionFind.rootOf_find] at hb
  obtain ⟨hamem, hbmem⟩ := @UnionFind.IsValid.rootOf_mem_find _ _ u a b _ _ _ hu
  have haroot : ((u.find a).2.find b).2.rootOf (u.rootOf a) = u.rootOf a := by
    rw [UnionFind.rootOf_find, UnionFind.rootOf_find, hu.idem]
  have hbroot : ((u.find a).2.find b).2.rootOf (u.rootOf b) = u.rootOf b := by
    rw [UnionFind.rootOf_find, UnionFind.rootOf_find, hu.idem]
  have hunion : d.union a b =
      if (d.find a).1 = ((d.find a).2.find b).1 then ((d.find a).1, ((d.find a).2.find b).2)
      else if ((d.find a).2.find b).2.size (d.find a).1 ≥
          ((d.find a).2.find b).2.size ((d.find a).2.find b).1 then
        ((d.find a).1, ((d.find a).2.find b).2.hang (d.find a).1 ((d.find a).2.find b).1)
      else (((d.find a).2.find b).1,
        ((d.find a).2.find b).2.hang ((d.find a).2.find b).1 (d.find a).1) := rfl
  rw [hunion, UnionFind.union_eq, ha, hb, hrep.size_eq hamem haroot,
    hrep.size_eq hbmem hbroot]
  split
  · exact ⟨rfl, hrep⟩
  · rename_i hne
    split
    · exact ⟨rfl, hrep.hang hamem haroot hbmem hbroot hne⟩
    · exact ⟨rfl, hrep.hang hbmem hbroot hamem haroot (Ne.symm hne)⟩

/-- Joining one key after the other to a set. -/
theorem foldl_union (h : Represents d u) (hu : u.IsValid) (keys : List α) (root : α) :
    (keys.foldl (fun (root, d) key => DisjointForest.union d root key) (root, d)).1 =
        (keys.foldl (fun (root, u) key => UnionFind.union u root key) (root, u)).1 ∧
      Represents (keys.foldl (fun (root, d) key => DisjointForest.union d root key) (root, d)).2
        (keys.foldl (fun (root, u) key => UnionFind.union u root key) (root, u)).2 := by
  induction keys generalizing root d u with
  | nil => exact ⟨rfl, h⟩
  | cons key rest ih =>
    obtain ⟨hroot, hrep⟩ := h.union hu root key
    have hnext := ih hrep (hu.union root key) (d.union root key).1
    rw [hroot] at hnext
    have hstep : d.union root key = ((u.union root key).1, (d.union root key).2) :=
      Prod.ext hroot rfl
    simp only [List.foldl_cons]
    rw [hstep]
    exact hnext

theorem unionAll (h : Represents d u) (hu : u.IsValid) (keys : List α) :
    (d.unionAll keys).1 = (u.unionAll keys).1 ∧
      Represents (d.unionAll keys).2 (u.unionAll keys).2 := by
  cases keys with
  | nil => exact ⟨rfl, h⟩
  | cons first rest =>
    obtain ⟨hroot, hrep⟩ := h.find first
    obtain ⟨hnext, hrep⟩ := hrep.foldl_union (hu.find first) rest (u.rootOf first)
    have hd : d.find first = (u.rootOf first, (d.find first).2) := Prod.ext hroot rfl
    have hu : u.find first = (u.rootOf first, (u.find first).2) := Prod.ext UnionFind.fst_find rfl
    show some (rest.foldl _ (d.find first)).1 = some (rest.foldl _ (u.find first)).1 ∧
      Represents (rest.foldl _ (d.find first)).2 (rest.foldl _ (u.find first)).2
    rw [hd, hu]
    exact ⟨congrArg some hnext, hrep⟩

theorem same (h : Represents d u) (a b : α) :
    (d.same a b).1 = (u.same a b).1 ∧ Represents (d.same a b).2 (u.same a b).2 := by
  obtain ⟨ha, hrep⟩ := h.find a
  obtain ⟨hb, hrep⟩ := hrep.find b
  rw [UnionFind.rootOf_find] at hb
  rw [UnionFind.same_eq]
  exact ⟨by rw [← ha, ← hb]; rfl, hrep⟩

theorem findAll (h : Represents d u) {keys : List α} (hkeys : ∀ x ∈ keys, x ∈ u.roots.keys) :
    (d.findAll keys).1 = keys.map u.rootOf ∧ Represents (d.findAll keys).2 u := by
  induction keys generalizing d with
  | nil => exact ⟨rfl, h⟩
  | cons key rest ih =>
    obtain ⟨hkey, hrest⟩ := List.forall_mem_cons.1 hkeys
    obtain ⟨hroot, hrep⟩ := h.find key
    have hknown : (u.find key).2 = u := by rw [UnionFind.find, UnionFind.get?_roots hkey]
    rw [hknown] at hrep
    obtain ⟨hroots, hrep⟩ := ih hrep hrest
    exact ⟨by rw [List.map_cons, ← hroot, ← hroots]; rfl, hrep⟩

omit [DecidableEq α] in
theorem keys_eq (h : Represents d u) : d.parents.keys = u.roots.keys := by
  have hset := SortedSet.ext (s := d.parents.keySet) (t := u.roots.keySet) h.mem_keys
  exact congrArg SortedSet.toList hset

/-- Both list the same groups. -/
theorem groups (h : Represents d u) :
    d.groups.1 = u.groups ∧ Represents d.groups.2 u := by
  obtain ⟨hroots, hrep⟩ := h.findAll fun x hx => (h.mem_keys x).1 hx
  refine ⟨?_, hrep⟩
  show SortedMap.groupValues ((d.findAll d.parents.keys).1.zip d.parents.keys) = _
  rw [hroots, h.keys_eq, UnionFind.groups, ← List.map_prod_right_eq_zip, SortedMap.keys, List.map_map]
  refine congrArg _ (List.map_congr_left fun e he => ?_)
  exact Prod.ext (UnionFind.rootOf_eq_of_get? (SortedMap.get?_eq_some_iff.2 he)) rfl

/-- A second call of `find` for a key changes nothing: the key is a root or just below it. -/
theorem find_find (h : Represents d u) (key : α) : (d.find key).2.find key = d.find key := by
  obtain ⟨l, last, hl, -, heq, hget⟩ := h.find_ends key
  have hrep := (h.find key).2
  obtain ⟨l', last', hl', -, heq', hget'⟩ := hrep.find_ends key
  have hknown : (d.find key).2.insert key = (d.find key).2 := by
    refine if_pos (SortedMap.contains_iff.2 ((hrep.mem_keys key).2 ?_))
    exact UnionFind.mem_keys_find.2 (Or.inl rfl)
  rw [UnionFind.rootOf_find] at heq' hl' hget'
  have hparents : (d.find key).2.parents = last := by rw [heq]
  rw [hknown] at heq' hl' hget'
  rw [hparents] at hl' hget'
  -- the key is the root now or has it as its parent, so the second climb leaves the key at most
  have hdirect : ∀ y ∈ l', last.get? y = some (u.rootOf key) := by
    intro y hy
    rcases hl.mem_or_eq with hmem | hroot
    · have hkey : parent last key = u.rootOf key := by
        rw [parent, SortedMap.getD, hget, if_pos hmem, Option.getD_some]
      have hone : Climbs last key [key] (u.rootOf key) := by
        refine .step (fun heq => hl.root_not_mem ?_) ?_
        · rwa [← hkey, heq]
        · rw [hkey]
          exact .root hl'.parent_root
      rw [(hl'.unique hone).1, List.mem_singleton] at hy
      rw [hy, hget, if_pos hmem]
    · have hnone : Climbs last key [] key := .root (by
        have hparent := hl'.parent_root
        rwa [← hroot] at hparent)
      rw [(hl'.unique hnone).1] at hy
      cases hy
  have hlast : last' = last := SortedMap.ext_get? fun y => by
    rw [hget']
    split
    · rw [hdirect y ‹_›]
    · rfl
  rw [heq', hlast, heq]

end Represents

/-! ## Calls -/

variable [DecidableEq α]

/-- A call on a forest. -/
inductive Call (α : Type) where
  | find (key : α)
  | union (a b : α)
  | unionAll (keys : List α)
  | same (a b : α)
  | representatives
  | groups

namespace Call

/-- The forest after a call. -/
def run (d : DisjointForest α) : Call α → DisjointForest α
  | find key => (d.find key).2
  | union a b => (d.union a b).2
  | unionAll keys => (d.unionAll keys).2
  | same a b => (d.same a b).2
  | representatives => d
  | groups => d.groups.2

/-- The keys that a call names, which are known afterwards. -/
def keys : Call α → List α
  | find key => [key]
  | union a b | same a b => [a, b]
  | unionAll keys => keys
  | representatives | groups => []

/-- The keys that a call joins. -/
def joined : Call α → List α
  | union a b => [a, b]
  | unionAll keys => keys
  | find _ | same _ _ | representatives | groups => []

end Call

/-- The forest after calls on one without keys. -/
def afterCalls (tracked : Bool) (calls : List (Call α)) : DisjointForest α :=
  calls.foldl Call.run (empty tracked)

/-- Some call names the key. -/
def Known (calls : List (Call α)) (x : α) : Prop := ∃ call ∈ calls, x ∈ call.keys

/-- Some call joins the keys. -/
def Joined (calls : List (Call α)) (x y : α) : Prop := ∃ call ∈ calls, x ∈ call.joined ∧ y ∈ call.joined

variable {tracked : Bool} {known : α → Prop} {related : α → α → Prop}

/-- A call keeps a represented table counted and tracked, and joins the sets of the keys that it names
for that. -/
theorem exists_represents_run (h : Represents d u) (ht : u.Tracks tracked known related) (call : Call α) :
    ∃ u', Represents (call.run d) u' ∧ u'.Tracks tracked (fun x => x ∈ call.keys ∨ known x)
      fun x y => related x y ∨ x ∈ call.joined ∧ y ∈ call.joined := by
  have hnothing : ∀ x y, EqvGen related x y ↔
      EqvGen (fun x y => related x y ∨ x ∈ ([] : List α) ∧ y ∈ ([] : List α)) x y := fun x y =>
    UnionFind.eqvGen_congr (fun x y hxy => .rel _ _ (Or.inl hxy))
      fun x y hxy => .rel _ _ (hxy.resolve_right fun hx => absurd hx.1 List.not_mem_nil)
  have hpair : ∀ a b x : α, (x = a ∨ x = b ∨ known x) ↔ x ∈ [a, b] ∨ known x := fun a b x => by
    simp [or_assoc]
  cases call with
  | find key =>
    exact ⟨_, (h.find key).2, (ht.find key).congr (fun x => by simp [Call.keys]) hnothing⟩
  | union a b =>
    refine ⟨_, (h.union ht.generates.isValid a b).2, (ht.union a b).congr (hpair a b) fun x y =>
      UnionFind.eqvGen_congr (fun x y hxy => .rel _ _ (hxy.imp_right ?_)) fun x y hxy => ?_⟩
    · rintro ⟨rfl, rfl⟩
      exact ⟨List.mem_cons_self, List.mem_cons_of_mem _ List.mem_cons_self⟩
    · have hab : EqvGen (fun x y => related x y ∨ x = a ∧ y = b) a b := .rel _ _ (Or.inr ⟨rfl, rfl⟩)
      rcases hxy with hxy | ⟨hx, hy⟩
      · exact .rel _ _ (Or.inl hxy)
      · simp only [Call.joined, List.mem_cons, List.not_mem_nil, or_false] at hx hy
        rcases hx with rfl | rfl <;> rcases hy with rfl | rfl
        · exact .refl _
        · exact hab
        · exact .symm _ _ hab
        · exact .refl _
  | unionAll keys => exact ⟨_, (h.unionAll ht.generates.isValid keys).2, (ht.unionAll keys).2⟩
  | same a b =>
    refine ⟨_, (h.same a b).2, ?_⟩
    rw [UnionFind.same_eq]
    refine ((ht.find a).find b).congr (fun x => ?_) hnothing
    rw [or_left_comm]
    exact hpair a b x
  | representatives => exact ⟨_, h, ht.congr (fun x => by simp [Call.keys]) hnothing⟩
  | groups => exact ⟨_, h.groups.2, ht.congr (fun x => by simp [Call.keys]) hnothing⟩

theorem exists_represents_afterCalls (tracked : Bool) (calls : List (Call α)) :
    ∃ u, Represents (afterCalls tracked calls) u ∧ u.Tracks tracked (Known calls) (Joined calls) := by
  have hrun : ∀ (calls : List (Call α)) {d : DisjointForest α} {u : UnionFind α} {known : α → Prop}
      {related : α → α → Prop}, Represents d u → u.Tracks tracked known related →
      ∃ u', Represents (calls.foldl Call.run d) u' ∧ u'.Tracks tracked (fun x => Known calls x ∨ known x)
        fun x y => related x y ∨ Joined calls x y := by
    intro calls
    induction calls with
    | nil =>
      exact fun h ht => ⟨_, h, ht.congr (fun x => by simp [Known]) fun x y =>
        UnionFind.eqvGen_congr (fun x y hxy => .rel _ _ (Or.inl hxy))
          fun x y hxy => .rel _ _ (hxy.resolve_right fun ⟨_, hcall, _⟩ => absurd hcall List.not_mem_nil)⟩
    | cons call rest ih =>
      intro d u known related h ht
      obtain ⟨u', h', ht'⟩ := exists_represents_run h ht call
      obtain ⟨last, hlast, htlast⟩ := ih h' ht'
      refine ⟨last, hlast, htlast.congr (fun x => ?_) fun x y =>
        UnionFind.eqvGen_congr (fun x y hxy => .rel _ _ ?_) fun x y hxy => .rel _ _ ?_⟩
      · rw [Known, Known, List.exists_mem_cons_iff, or_left_comm, or_assoc]
      · rwa [Joined, List.exists_mem_cons_iff, ← or_assoc]
      · rwa [Joined, List.exists_mem_cons_iff, ← or_assoc] at hxy
  have hstart : ∃ u, Represents (empty tracked : DisjointForest α) u ∧
      u.Tracks tracked (fun _ => False) fun _ _ => False := by
    cases tracked with
    | false => exact ⟨_, represents_empty, .empty, UnionFind.isCounted_empty, rfl, fun _ =>
        ⟨fun hx => absurd hx List.not_mem_nil, False.elim⟩⟩
    | true => exact ⟨_, represents_tracked, .tracked, UnionFind.isCounted_tracked, rfl, fun _ =>
        ⟨fun hx => absurd hx List.not_mem_nil, False.elim⟩⟩
  obtain ⟨u, h, ht⟩ := hstart
  obtain ⟨u', h', ht'⟩ := hrun calls h ht
  exact ⟨u', h', ht'.congr (fun x => iff_of_eq (or_false _)) fun x y =>
    UnionFind.eqvGen_congr (fun x y hxy => .rel _ _ (hxy.resolve_left id))
      fun x y hxy => .rel _ _ (Or.inr hxy)⟩

/-! ## Answers -/

/-- A forest that answers every call by the classes of a relation on the known keys. -/
structure Answers (tracked : Bool) (known : α → Prop) (related : α → α → Prop) (d : DisjointForest α) :
    Prop where
  /-- The loops of `find` come to an end at a root. -/
  find_ends : ∀ key, ∃ l root last, Climbs (d.insert key).parents key l root ∧
    Compresses root (d.insert key).parents key last ∧
    d.find key = (root, { d.insert key with parents := last })
  /-- Calling `find` again changes nothing. -/
  find_find : ∀ key, (d.find key).2.find key = d.find key
  /-- A root is its own root. -/
  find_root : ∀ key, ((d.find key).2.find (d.find key).1).1 = (d.find key).1
  same_iff : ∀ a b, (d.same a b).1 = true ↔ related a b
  /-- A root is known and belongs to the class it stands for. -/
  root_mem : ∀ key, (d.find key).1 ∈ (d.find key).2.parents.keys ∧ related key (d.find key).1
  /-- A class has one root. -/
  root_eq_iff : ∀ a b, (d.find a).1 = (d.find b).1 ↔ related a b
  /-- A union answers with the root of the joined class. -/
  union_root : ∀ a b, (d.union a b).1 = ((d.union a b).2.find a).1 ∧
    (d.union a b).1 = ((d.union a b).2.find b).1
  unionAll_nil : d.unionAll [] = (none, d)
  unionAll_root : ∀ keys, ∀ key ∈ keys, (d.unionAll keys).1 = some ((d.unionAll keys).2.find key).1
  /-- The size stored for a root counts its class. -/
  size_eq : ∀ root, known root → (d.find root).1 = root →
    d.sizes.get? root = some {x | known x ∧ related root x}.ncard
  mem_keys : ∀ x, x ∈ d.parents.keys ↔ known x
  /-- Every known key is in one group, and only once. -/
  groups_perm : d.groups.1.values.flatten.Perm d.parents.keys
  /-- A group is ascending, under the root of its members. -/
  groups_sorted : ∀ e ∈ d.groups.1.entries, e.2.Pairwise (fun x y => compare x y = .lt) ∧
    ∀ x ∈ e.2, (d.find x).1 = e.1
  isSome_representatives : d.representatives.isSome = tracked
  /-- The tracked roots are the roots. -/
  mem_representatives : ∀ s, d.representatives = some s → ∀ x, x ∈ s ↔ known x ∧ (d.find x).1 = x

/-- What a forest answers that represents a counted and tracked table. -/
theorem Represents.answers (h : Represents d u) (ht : u.Tracks tracked known related) :
    Answers tracked known (EqvGen related) d where
  find_ends key := by
    obtain ⟨l, last, hl, hlast, heq, -⟩ := h.find_ends key
    exact ⟨l, _, last, hl, hlast, heq⟩
  find_find := h.find_find
  find_root key := by
    obtain ⟨hroot, hrep⟩ := h.find key
    rw [(hrep.find _).1, UnionFind.rootOf_find, hroot, ht.generates.isValid.idem]
  same_iff a b := by
    rw [(h.same a b).1, UnionFind.same_eq, beq_iff_eq, ht.generates.rootOf_eq_iff]
  root_mem key := by
    obtain ⟨hroot, hrep⟩ := h.find key
    have hvalid := ht.generates.isValid
    rw [hroot, hrep.mem_keys]
    refine ⟨?_, (ht.generates.rootOf_eq_iff _ _).1 (hvalid.idem key).symm⟩
    have hmem := (hvalid.find key).mem key (UnionFind.mem_keys_find.2 (Or.inl rfl))
    rwa [UnionFind.rootOf_find] at hmem
  root_eq_iff a b := by rw [(h.find a).1, (h.find b).1, ht.generates.rootOf_eq_iff]
  union_root a b := by
    have hvalid := ht.generates.isValid
    obtain ⟨hroot, hrep⟩ := h.union hvalid a b
    rw [hroot, (hrep.find a).1, (hrep.find b).1, hvalid.fst_union]
    refine ⟨rfl, ((ht.union a b).generates.rootOf_eq_iff a b).2 ?_⟩
    exact .rel _ _ (Or.inr ⟨rfl, rfl⟩)
  unionAll_nil := rfl
  unionAll_root keys key hkey := by
    obtain ⟨hroot, hrep⟩ := h.unionAll ht.generates.isValid keys
    rw [hroot, (hrep.find key).1, (ht.unionAll keys).1 key hkey]
  size_eq root hknown hroot := by
    rw [(h.find root).1] at hroot
    have hmem := (ht.mem_keys root).2 hknown
    have hclass : {x | known x ∧ EqvGen related root x} = (u.members root : Set α) := by
      ext x
      rw [Set.mem_ofPred_eq, Finset.mem_coe, UnionFind.mem_members, ht.mem_keys,
        ← ht.generates.rootOf_eq_iff, hroot, eq_comm]
    rw [h.sizes root hmem hroot, ht.isCounted.size root hmem hroot, hclass, Set.ncard_coe_finset]
  mem_keys x := (h.mem_keys x).trans (ht.mem_keys x)
  groups_perm := by
    rw [h.groups.1, h.keys_eq]
    exact UnionFind.flatten_groups_perm u
  groups_sorted := by
    rintro ⟨root, group⟩ he
    rw [h.groups.1] at he
    obtain rfl := UnionFind.mem_entries_groups he
    refine ⟨(List.pairwise_map.2 u.roots.sorted).filter _, fun x hx => ?_⟩
    rw [(h.find x).1]
    exact of_decide_eq_true (List.mem_filter.1 hx).2
  isSome_representatives := by rw [h.representatives, ht.isSome]
  mem_representatives s hs x := by
    rw [h.representatives] at hs
    rw [ht.isCounted.representatives s hs, ht.mem_keys, (h.find x).1]

/-- After any calls a forest answers by the least equivalence that relates the joined keys, over the keys
that were named. -/
theorem answers_afterCalls (tracked : Bool) (calls : List (Call α)) :
    Answers tracked (Known calls) (EqvGen (Joined calls)) (afterCalls tracked calls) := by
  obtain ⟨u, h, ht⟩ := exists_represents_afterCalls tracked calls
  exact h.answers ht

namespace Sample

/-- Two pairs that are joined, and a key on its own. -/
def pairs : List (Call Nat) := [.union 1 2, .union 3 4, .union 2 4, .find 7]

end Sample

open Sample in
/-- The joined pairs are one class of four keys, and the key on its own is another one. -/
theorem answers_afterCalls_pairs :
    EqvGen (Joined pairs) 1 4 ∧ ¬EqvGen (Joined pairs) 3 7 ∧
      (afterCalls true pairs).sizes.get? 1 = some 4 ∧
      {x | Known pairs x ∧ EqvGen (Joined pairs) 1 x}.ncard = 4 ∧
      (afterCalls true pairs).groups.1.entries = [(1, [1, 2, 3, 4]), (7, [7])] := by
  have h := answers_afterCalls true pairs
  have hknown : Known pairs 1 := ⟨_, List.mem_cons_self, List.mem_cons_self⟩
  have hsize : (afterCalls true pairs).sizes.get? 1 = some 4 := by decide +kernel
  refine ⟨(h.same_iff 1 4).1 (by decide +kernel), fun h37 => ?_, hsize, ?_, by decide +kernel⟩
  · exact absurd ((h.same_iff 3 7).2 h37) (by decide +kernel)
  · exact Option.some.inj ((h.size_eq 1 hknown (by decide +kernel)).symm.trans hsize)

end CircuitEquiv.DisjointForest
