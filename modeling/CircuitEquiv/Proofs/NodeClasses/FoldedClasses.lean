-- SUMMARY: Folding keeps every node once, joins exactly the classes connected by near matches, and maps from the least representative.
import CircuitEquiv.Proofs.NodeClasses.Folding

/-!
# Folded classes

Every group of connected representatives makes one class, so the members are those of all classes in the
group, and the classes that come out hold each node as often as those that go in. The least representative
of a group leads. A node of an absorbed class is mapped through the representative of that class, which the
search from the leader has found.
-/

namespace CircuitEquiv.Folding

open NodeClasses (AreReduced Contents IsPartialWitness)
open Relation (EqvGen)

variable {W : NodeId → NodeId → Mapping → Prop} {near : List NearMatch} {links : Links}
  {classes : List NodeClass} {c c' f : NodeClass} {a id lead : NodeId} {rest : List NodeId}

/-! ## Classes by their representatives -/

/-- The classes under their representatives. -/
def classOf (classes : List NodeClass) : SortedMap NodeId NodeClass :=
  SortedMap.ofList (classes.map fun c => (c.representative, c))

/-- The class that a node leads. -/
def classAt (classes : List NodeClass) (id : NodeId) : NodeClass := (classOf classes).getD id (.single id)

/-- No node occurs twice in the classes. -/
def AreDisjoint (classes : List NodeClass) : Prop := (classes.flatMap NodeClass.members).Nodup

theorem mem_keys_classOf : id ∈ (classOf classes).keys ↔ ∃ c ∈ classes, c.representative = id := by
  rw [classOf, SortedMap.mem_keys_ofList, List.map_map]
  exact List.mem_map

theorem representatives_sublist (classes : List NodeClass) :
    (classes.map (·.representative)).Sublist (classes.flatMap NodeClass.members) := by
  induction classes with
  | nil => exact .slnil
  | cons c rest ih =>
    rw [List.map_cons, List.flatMap_cons]
    exact ((List.nil_sublist _).cons_cons c.representative).append ih

namespace AreDisjoint

variable (h : AreDisjoint classes)

include h

theorem nodup_keys : ((classes.map fun c => (c.representative, c)).map (·.1)).Nodup := by
  rw [List.map_map]
  exact h.sublist (representatives_sublist classes)

theorem classAt_representative (hc : c ∈ classes) : classAt classes c.representative = c := by
  have hget : (classOf classes).get? c.representative = some c :=
    (SortedMap.get?_ofList_of_nodup h.nodup_keys).2 (List.mem_map_of_mem hc)
  rw [classAt, SortedMap.getD, hget, Option.getD_some]

theorem keys_perm : (classOf classes).keys.Perm (classes.map (·.representative)) := by
  have hperm := (SortedMap.entries_ofList_perm h.nodup_keys).map (·.1)
  rwa [List.map_map] at hperm

theorem flatMap_classAt_perm :
    ((classOf classes).keys.flatMap fun id => (classAt classes id).members).Perm
      (classes.flatMap NodeClass.members) := by
  refine (h.keys_perm.flatMap_right _).trans (.of_eq ?_)
  rw [List.flatMap_map]
  exact List.flatMap_congr fun c hc => congrArg _ (h.classAt_representative hc)

theorem eq_of_mem_members (hc : c ∈ classes) (hc' : c' ∈ classes) (ha : a ∈ c.members)
    (ha' : a ∈ c'.members) : c = c' := by
  by_contra hne
  have : Std.Symm (Function.onFun List.Disjoint NodeClass.members) := ⟨fun _ _ hxy => hxy.symm⟩
  exact (List.nodup_flatMap.1 h).2.forall hc hc' hne ha ha'

end AreDisjoint

/-! ## Groups -/

theorem members_attach (m : Mapping) (c : NodeClass) : (attach m c).map (·.1) = c.members := by
  rw [attach, List.map_cons, List.map_map]
  rfl

/-- The mappings that the search from a leader finds, where so many nodes are connected with it. -/
def foundFrom (links : Links) (lead : NodeId) (n : Nat) : SortedMap NodeId Mapping :=
  explore links lead n [lead] (SortedMap.empty.insert lead .empty)

/-- The class of a group. -/
def joined (classes : List NodeClass) (links : Links) (lead : NodeId) (rest : List NodeId) : NodeClass where
  representative := (classAt classes lead).representative
  others := (classAt classes lead).others ++ rest.flatMap fun id =>
    attach ((foundFrom links lead (lead :: rest).length).getD id .empty) (classAt classes id)

theorem foldGroup_cons : foldGroup (classOf classes) links (lead :: rest) =
    some (joined classes links lead rest) := rfl

theorem members_joined : (joined classes links lead rest).members =
    (lead :: rest).flatMap fun id => (classAt classes id).members := by
  rw [joined, NodeClass.members, List.map_append, List.map_flatMap, List.flatMap_cons]
  simp only [members_attach]
  rfl

/-- The classes of groups have the members of all classes in the groups. -/
theorem flatMap_foldGroup (groups : List (List NodeId)) :
    (groups.filterMap (foldGroup (classOf classes) links)).flatMap NodeClass.members =
      groups.flatten.flatMap fun id => (classAt classes id).members := by
  induction groups with
  | nil => rfl
  | cons group rest ih =>
    rw [List.flatten_cons, List.flatMap_append, ← ih]
    cases group with
    | nil => rfl
    | cons lead others =>
      rw [List.filterMap_cons_some foldGroup_cons, List.flatMap_cons, members_joined]

/-- A class where every mapping that is there witnesses a common part with the representative. -/
def IsWitnessed (W : NodeId → NodeId → Mapping → Prop) (c : NodeClass) : Prop :=
  ∀ e ∈ c.others, ∀ m, e.2 = some m → W c.representative e.1 m

theorem witness_of_mem_attach (hW : Composes W) {m : Mapping} (hm : W lead c.representative m)
    (hc : IsWitnessed W c) {e : NodeId × Option Mapping} (he : e ∈ attach m c) {n : Mapping}
    (hn : e.2 = some n) : W lead e.1 n := by
  rcases List.mem_cons.1 he with rfl | he
  · obtain rfl := Option.some.inj hn
    exact hm
  · obtain ⟨e, he', rfl⟩ := List.mem_map.1 he
    obtain ⟨n', hn', rfl⟩ := Option.map_eq_some_iff.1 hn
    exact hW.andThen hm (hc e he' n' hn')

/-- A group is what links connect with its least node, and every node of it leads a class. -/
structure IsGroup (classes : List NodeClass) (links : Links) (lead : NodeId) (rest : List NodeId) : Prop where
  leads : ∀ x ∈ lead :: rest, ∃ c ∈ classes, c.representative = x
  least : ∀ x ∈ rest, lead < x
  closed : ∀ x ∈ lead :: rest, ∀ y, Linked links x y ∨ Linked links y x → y ∈ lead :: rest
  connected : ∀ x ∈ lead :: rest, EqvGen (Linked links) lead x

namespace IsGroup

variable (hgroup : IsGroup classes links lead rest) (h : AreDisjoint classes)

include hgroup h

theorem classAt_mem (hid : id ∈ lead :: rest) :
    classAt classes id ∈ classes ∧ (classAt classes id).representative = id := by
  obtain ⟨c, hc, rfl⟩ := hgroup.leads id hid
  rw [h.classAt_representative hc]
  exact ⟨hc, rfl⟩

theorem representative_joined : (joined classes links lead rest).representative = lead :=
  (hgroup.classAt_mem h List.mem_cons_self).2

/-- The members of absorbed classes are mapped through their representatives. -/
theorem isWitnessed_joined (hW : Composes W) (hlinks : Witnessed W links)
    (hclasses : ∀ c ∈ classes, IsWitnessed W c) : IsWitnessed W (joined classes links lead rest) := by
  intro e he m hm
  rw [hgroup.representative_joined h]
  rcases List.mem_append.1 he with he | he
  · obtain ⟨hlead, hrepresentative⟩ := hgroup.classAt_mem h List.mem_cons_self
    have hwitness := hclasses _ hlead e he m hm
    rwa [hrepresentative] at hwitness
  · obtain ⟨x, hx, he⟩ := List.mem_flatMap.1 he
    obtain ⟨hclass, hrepresentative⟩ := hgroup.classAt_mem h (List.mem_cons_of_mem _ hx)
    obtain ⟨n, hn, hwitness⟩ := explore_spec hW hlinks hgroup.closed List.mem_cons_self
      (hgroup.connected x (List.mem_cons_of_mem _ hx)) (hgroup.least x hx).ne'
    rw [foundFrom, SortedMap.getD, hn, Option.getD_some] at he
    rw [← hrepresentative] at hwitness
    exact witness_of_mem_attach hW hwitness (hclasses _ hclass) he hm

/-- The class has all mappings where the classes that it is made of have them. -/
theorem isSome_joined (hsome : ∀ c ∈ classes, ∀ e ∈ c.others, e.2.isSome) :
    ∀ e ∈ (joined classes links lead rest).others, e.2.isSome := by
  intro e he
  rcases List.mem_append.1 he with he | he
  · exact hsome _ (hgroup.classAt_mem h List.mem_cons_self).1 e he
  · obtain ⟨x, hx, he⟩ := List.mem_flatMap.1 he
    rcases List.mem_cons.1 he with rfl | he
    · rfl
    · obtain ⟨e', he', rfl⟩ := List.mem_map.1 he
      rw [Option.isSome_map]
      exact hsome _ (hgroup.classAt_mem h (List.mem_cons_of_mem _ hx)).1 e' he'

end IsGroup

/-! ## Folding -/

/-- The sets that near matches join, and the matches that are used. -/
def linkClasses (classes : List NodeClass) (near : List NearMatch) : UnionFind NodeId × Links :=
  link near ((classOf classes).keys.foldl (fun u id => (u.find id).2) UnionFind.empty)

theorem fold_perm (classes : List NodeClass) (near : List NearMatch) : (fold classes near).Perm
    ((linkClasses classes near).1.groups.values.filterMap
      (foldGroup (classOf classes) (linkClasses classes near).2)) := List.mergeSort_perm _ _

/-- Near matches are between representatives. -/
def AreBetween (classes : List NodeClass) (near : List NearMatch) : Prop :=
  ∀ n ∈ near, n.left ∈ classes.map (·.representative) ∧ n.right ∈ classes.map (·.representative)

theorem AreBetween.mem_keys (hnear : AreBetween classes near) : ∀ n ∈ near,
    n.left ∈ (classOf classes).keys ∧ n.right ∈ (classOf classes).keys := fun n hn => by
  rw [mem_keys_classOf, mem_keys_classOf, ← List.mem_map, ← List.mem_map]
  exact hnear n hn

theorem covers_linkClasses (hnear : AreBetween classes near) :
    Covers (classOf classes).keys near (linkClasses classes near).1 (linkClasses classes near).2 :=
  covers_link _ hnear.mem_keys

/-- Links are between nodes of one set. -/
theorem rootOf_eq_of_linked (hnear : AreBetween classes near) {x y : NodeId}
    (hxy : Linked (linkClasses classes near).2 x y) :
    x ∈ (linkClasses classes near).1.roots.keys ∧ y ∈ (linkClasses classes near).1.roots.keys ∧
      (linkClasses classes near).1.rootOf x = (linkClasses classes near).1.rootOf y := by
  have hcovers := covers_linkClasses hnear
  obtain ⟨m, hm⟩ := SortedMap.mem_keys_iff.1 hxy
  obtain ⟨n, hn, rfl, rfl, -⟩ := hcovers.used x y m hm
  obtain ⟨hl, hr⟩ := hnear.mem_keys n hn
  exact ⟨(hcovers.keys _).2 hl, (hcovers.keys _).2 hr, (hcovers.linked.rootOf_eq_iff _ _).2 (.rel _ _ hxy)⟩

theorem isGroup_of_mem_groups (hnear : AreBetween classes near) {group : List NodeId}
    (hgroup : group ∈ (linkClasses classes near).1.groups.values) :
    ∃ lead rest, group = lead :: rest ∧ IsGroup classes (linkClasses classes near).2 lead rest := by
  have hcovers := covers_linkClasses hnear
  obtain ⟨x, hx, hfilter⟩ := UnionFind.mem_values_groups.1 hgroup
  cases group with
  | nil => exact absurd (decide_eq_true rfl) (List.filter_eq_nil_iff.1 hfilter.symm x hx)
  | cons lead rest =>
    have hmem : ∀ {y z}, y ∈ lead :: rest → _ := fun {y z} hy => UnionFind.mem_group_iff (y := z) hgroup hy
    have hsorted : (lead :: rest).Pairwise (· < ·) := by
      rw [hfilter]
      refine List.Pairwise.filter _ (List.pairwise_map.2 ?_)
      exact (linkClasses classes near).1.roots.sorted.imp fun h => Nat.compare_eq_lt.1 h
    refine ⟨lead, rest, rfl, fun y hy => ?_, (List.pairwise_cons.1 hsorted).1, fun y hy z hlinked => ?_,
      fun y hy => ?_⟩
    · exact mem_keys_classOf.1 ((hcovers.keys y).1 ((hmem hy).1 hy).1)
    · rw [hmem hy]
      rcases hlinked with hlinked | hlinked
      · obtain ⟨-, hz, heq⟩ := rootOf_eq_of_linked hnear hlinked
        exact ⟨hz, heq.symm⟩
      · obtain ⟨hz, -, heq⟩ := rootOf_eq_of_linked hnear hlinked
        exact ⟨hz, heq⟩
    · rw [← hcovers.linked.rootOf_eq_iff]
      exact ((hmem hy).1 List.mem_cons_self).2

theorem exists_isGroup_of_mem_fold (hnear : AreBetween classes near) (hf : f ∈ fold classes near) :
    ∃ lead rest, lead :: rest ∈ (linkClasses classes near).1.groups.values ∧
      IsGroup classes (linkClasses classes near).2 lead rest ∧
      f = joined classes (linkClasses classes near).2 lead rest := by
  obtain ⟨group, hgroup, hfold⟩ := List.mem_filterMap.1 ((fold_perm classes near).mem_iff.1 hf)
  obtain ⟨lead, rest, rfl, hisGroup⟩ := isGroup_of_mem_groups hnear hgroup
  exact ⟨lead, rest, hgroup, hisGroup, (Option.some.inj hfold).symm⟩

/-- A group makes a class. -/
theorem joined_mem_fold (hgroup : lead :: rest ∈ (linkClasses classes near).1.groups.values) :
    joined classes (linkClasses classes near).2 lead rest ∈ fold classes near :=
  (fold_perm classes near).mem_iff.2 (List.mem_filterMap.2 ⟨_, hgroup, foldGroup_cons⟩)

/-- A member of a class is in the class of the group that the representative is in. -/
theorem AreDisjoint.mem_members_joined (h : AreDisjoint classes) (hgroup : IsGroup classes links lead rest)
    (hc : c ∈ classes) (ha : a ∈ c.members) :
    a ∈ (joined classes links lead rest).members ↔ c.representative ∈ lead :: rest := by
  rw [members_joined, List.mem_flatMap]
  constructor
  · rintro ⟨x, hx, hax⟩
    obtain ⟨hclass, hrepresentative⟩ := hgroup.classAt_mem h hx
    rwa [h.eq_of_mem_members hc hclass ha hax, hrepresentative]
  · exact fun hx => ⟨_, hx, by rwa [h.classAt_representative hc]⟩

/-- Representatives come into one group when matches connect them. -/
theorem mem_group_iff_chained (hnear : AreBetween classes near) {group : List NodeId}
    (hgroup : group ∈ (linkClasses classes near).1.groups.values) (hc : c ∈ classes) (hid : id ∈ group) :
    c.representative ∈ group ↔ Chained near id c.representative := by
  have hcovers := covers_linkClasses hnear
  have hknown : c.representative ∈ (linkClasses classes near).1.roots.keys :=
    (hcovers.keys _).2 (mem_keys_classOf.2 ⟨c, hc, rfl⟩)
  rw [UnionFind.mem_group_iff hgroup hid, and_iff_right hknown, eq_comm]
  exact hcovers.joins.rootOf_eq_iff _ _

/-- Nodes come into one class when matches connect their classes. -/
theorem mem_fold_iff_chained (h : AreDisjoint classes) (hnear : AreBetween classes near) (hc : c ∈ classes)
    (hc' : c' ∈ classes) (ha : a ∈ c.members) {b : NodeId} (hb : b ∈ c'.members) :
    (∃ f ∈ fold classes near, a ∈ f.members ∧ b ∈ f.members) ↔
      Chained near c.representative c'.representative := by
  constructor
  · rintro ⟨f, hf, haf, hbf⟩
    obtain ⟨lead, rest, hgroup, hisGroup, rfl⟩ := exists_isGroup_of_mem_fold hnear hf
    exact (mem_group_iff_chained hnear hgroup hc' ((h.mem_members_joined hisGroup hc ha).1 haf)).1
      ((h.mem_members_joined hisGroup hc' hb).1 hbf)
  · intro hchained
    obtain ⟨group, hgroup, hmem⟩ := UnionFind.exists_mem_groups
      (((covers_linkClasses hnear).keys _).2 (mem_keys_classOf.2 ⟨c, hc, rfl⟩))
    have hmem' := (mem_group_iff_chained hnear hgroup hc' hmem).2 hchained
    obtain ⟨lead, rest, rfl, hisGroup⟩ := isGroup_of_mem_groups hnear hgroup
    exact ⟨_, joined_mem_fold hgroup, (h.mem_members_joined hisGroup hc ha).2 hmem,
      (h.mem_members_joined hisGroup hc' hb).2 hmem'⟩

theorem members_fold_perm (h : AreDisjoint classes) (hnear : AreBetween classes near) :
    ((fold classes near).flatMap NodeClass.members).Perm (classes.flatMap NodeClass.members) := by
  have hkeys : (linkClasses classes near).1.roots.keys.Perm (classOf classes).keys :=
    (List.perm_ext_iff_of_nodup (SortedMap.nodup_keys _) (SortedMap.nodup_keys _)).2
      (covers_linkClasses hnear).keys
  refine ((fold_perm classes near).flatMap_right _).trans ?_
  rw [flatMap_foldGroup]
  exact (((UnionFind.flatten_groups_perm _).trans hkeys).flatMap_right _).trans h.flatMap_classAt_perm

/-- What folding the near matches of classes gives: every node is kept once, chains of matches decide which
nodes come together, the least representative of a chain leads, and mappings lead from it to the members. -/
structure IsFolding (W : NodeId → NodeId → Mapping → Prop) (classes : List NodeClass) (near : List NearMatch)
    (folded : List NodeClass) : Prop where
  nodes : (folded.flatMap NodeClass.members).Perm (classes.flatMap NodeClass.members)
  disjoint : AreDisjoint folded
  together : ∀ c ∈ classes, ∀ c' ∈ classes, ∀ a ∈ c.members, ∀ b ∈ c'.members,
    (∃ f ∈ folded, a ∈ f.members ∧ b ∈ f.members) ↔ Chained near c.representative c'.representative
  leads : ∀ f ∈ folded, ∃ c ∈ classes, c.representative = f.representative ∧
    ∀ c' ∈ classes, Chained near c.representative c'.representative → c.representative ≤ c'.representative
  witnessed : ∀ f ∈ folded, IsWitnessed W f
  mapped : (∀ c ∈ classes, ∀ e ∈ c.others, e.2.isSome) → ∀ f ∈ folded, ∀ e ∈ f.others, e.2.isSome

theorem isFolding_fold (hW : Composes W) (h : AreDisjoint classes) (hclasses : ∀ c ∈ classes, IsWitnessed W c)
    (hnear : AreBetween classes near) (hwitness : ∀ n ∈ near, W n.left n.right n.mapping) :
    IsFolding W classes near (fold classes near) := by
  have hcovers := covers_linkClasses hnear
  have hlinks : Witnessed W (linkClasses classes near).2 := fun a b m hm => by
    obtain ⟨n, hn, rfl, rfl, rfl⟩ := hcovers.used a b m hm
    exact hwitness n hn
  have hnodes := members_fold_perm h hnear
  refine ⟨hnodes, hnodes.nodup_iff.2 h, fun c hc c' hc' a ha b hb => ?_, fun f hf => ?_, fun f hf => ?_,
    fun hsome f hf => ?_⟩
  · exact mem_fold_iff_chained h hnear hc hc' ha hb
  · obtain ⟨lead, rest, hgroup, hisGroup, rfl⟩ := exists_isGroup_of_mem_fold hnear hf
    obtain ⟨c, hc, rfl⟩ := hisGroup.leads lead List.mem_cons_self
    refine ⟨c, hc, (hisGroup.representative_joined h).symm, fun c' hc' hchained => ?_⟩
    have hmem := (mem_group_iff_chained hnear hgroup hc' List.mem_cons_self).2 hchained
    rcases List.mem_cons.1 hmem with heq | hmem
    · exact heq.ge
    · exact (hisGroup.least _ hmem).le
  · obtain ⟨lead, rest, -, hgroup, rfl⟩ := exists_isGroup_of_mem_fold hnear hf
    exact hgroup.isWitnessed_joined h hW hlinks hclasses
  · obtain ⟨lead, rest, -, hgroup, rfl⟩ := exists_isGroup_of_mem_fold hnear hf
    exact hgroup.isSome_joined h hsome

/-! ## Partial witnesses -/

namespace Sample

/-- The node `k` holds the square of the signal `2 * k + 1`. -/
def squares : List Constraint := (List.range 6).map fun id => Dag.Sample.square (2 * id + 1) (2 * id + 2)

def squareContents : Contents := fun id k => if k = 0 then squares[id]? else none

/-- From one node to another. -/
def move (a b : NodeId) : Mapping where
  signals := .ofList [(2 * a + 1, 2 * b + 1), (2 * a + 2, 2 * b + 2)]
  constraints := .ofList [(0, 0)]

/-- Two classes of two nodes, and a node alone. -/
def pairs : List NodeClass := [⟨1, [(4, some (move 1 4))]⟩, ⟨2, [(5, some (move 2 5))]⟩, ⟨3, []⟩]

/-- A chain of matches, from the last class to the first. -/
def chain : List NearMatch := [⟨2, 1, 1, 1, move 2 1⟩, ⟨3, 2, 1, 1, move 3 2⟩]

theorem areReduced_squareContents : AreReduced Circuit.Sample.field squareContents := by
  intro id k c hc
  have hall : ∀ c ∈ squares, c.IsReduced Circuit.Sample.field := by decide
  unfold squareContents at hc
  split at hc
  · exact hall c (List.mem_of_getElem? hc)
  · cases hc

theorem isPartialWitness_move : ∀ e ∈ [(1, 4), (2, 5), (2, 1), (3, 2)],
    IsPartialWitness Circuit.Sample.field squareContents e.1 e.2 (move e.1 e.2) := by
  have hzero : ∀ {a b k j}, (move a b).constraints.get? k = some j → k = 0 ∧ j = 0 := fun hk =>
    Prod.mk.inj (List.mem_singleton.1 (SortedMap.mem_of_get?_ofList hk))
  simp only [List.forall_mem_cons]
  refine ⟨?_, ?_, ?_, ?_, fun _ h => nomatch h⟩ <;>
    refine ⟨by decide, by decide, fun k j hk => ?_⟩ <;>
    obtain ⟨rfl, rfl⟩ := hzero hk <;>
    exact ⟨_, _, rfl, rfl, by decide, _, rfl, by decide +kernel⟩

theorem isWitnessed_pairs :
    ∀ c ∈ pairs, IsWitnessed (IsPartialWitness Circuit.Sample.field squareContents) c := by
  simp only [pairs, List.forall_mem_cons, IsWitnessed]
  refine ⟨⟨?_, fun _ h => nomatch h⟩, ⟨?_, fun _ h => nomatch h⟩, (fun _ h => nomatch h),
    fun _ h => nomatch h⟩
  · rintro _ ⟨⟩
    exact isPartialWitness_move (1, 4) (by decide)
  · rintro _ ⟨⟩
    exact isPartialWitness_move (2, 5) (by decide)

theorem isPartialWitness_chain : ∀ n ∈ chain,
    IsPartialWitness Circuit.Sample.field squareContents n.left n.right n.mapping := by
  simp only [chain, List.forall_mem_cons]
  exact ⟨isPartialWitness_move (2, 1) (by decide), isPartialWitness_move (3, 2) (by decide),
    fun _ h => nomatch h⟩

end Sample

/-- The mappings of folded classes are partial witnesses where those of the classes and of the near matches
are. The mapping of a node that a comparison found equivalent is one too. -/
theorem fold_isFolding (F : PrimeField) (hprime : F.modulus.Prime) (contents : Contents)
    (hreduced : AreReduced F contents) (classes : List NodeClass) (hdisjoint : AreDisjoint classes)
    (hclasses : ∀ c ∈ classes, IsWitnessed (IsPartialWitness F contents) c) (near : List NearMatch)
    (hbetween : AreBetween classes near)
    (hnear : ∀ n ∈ near, IsPartialWitness F contents n.left n.right n.mapping) :
    IsFolding (IsPartialWitness F contents) classes near (fold classes near) := by
  have : Fact F.modulus.Prime := ⟨hprime⟩
  have hcomposes : Composes (IsPartialWitness F contents) :=
    ⟨fun h => h.inverse hreduced, fun h h' => h.andThen hreduced h'⟩
  exact isFolding_fold hcomposes hdisjoint hclasses hbetween hnear

open Sample in
/-- All nodes come into one class, and the match from the last to the first is followed backwards. -/
theorem fold_isFolding_chain :
    Circuit.Sample.field.modulus.Prime ∧ AreReduced Circuit.Sample.field squareContents ∧
    AreDisjoint pairs ∧ (∀ c ∈ pairs, IsWitnessed (IsPartialWitness Circuit.Sample.field squareContents) c) ∧
    AreBetween pairs chain ∧
    (∀ n ∈ chain, IsPartialWitness Circuit.Sample.field squareContents n.left n.right n.mapping) ∧
    IsFolding (IsPartialWitness Circuit.Sample.field squareContents) pairs chain (fold pairs chain) ∧
    (fold pairs chain).map (·.members) = [[1, 4, 2, 5, 3]] := by
  have hprime : Circuit.Sample.field.modulus.Prime := by decide
  have hdisjoint : AreDisjoint pairs := by unfold AreDisjoint; decide
  have hbetween : AreBetween pairs chain := by unfold AreBetween; decide
  exact ⟨hprime, areReduced_squareContents, hdisjoint, isWitnessed_pairs, hbetween, isPartialWitness_chain,
    fold_isFolding Circuit.Sample.field hprime squareContents areReduced_squareContents pairs hdisjoint
      isWitnessed_pairs chain hbetween isPartialWitness_chain, by decide +kernel⟩

end CircuitEquiv.Folding
