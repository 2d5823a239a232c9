-- SUMMARY: Splitting groups of nodes by comparison: what one node is placed into, and the classes of all groups.
import CircuitEquiv.Proofs.NodeClasses.NodeComparison

/-!
# Splitting groups

A node joins the first class whose representative it is related to, so nodes of a class are related to
its representative. As long as no comparison is late, no two representatives are related, so related
nodes of a group cannot end in different classes.
-/

namespace CircuitEquiv.NodeClasses

open NotingAttempt (Answers)

variable {timeout : Option Nat} {mayFail : Prop} {R : NodeId → NodeId → Prop} {S : NodeId → Prop}
  {id : NodeId} {group : List NodeId} {groups : List (List NodeId)} {classes after : List NodeClass}

/-- Every node of a class is related to the representative. -/
def AreRelated (R : NodeId → NodeId → Prop) (classes : List NodeClass) : Prop :=
  ∀ c ∈ classes, ∀ id ∈ c.members, R c.representative id

/-- No representative is related to that of a later class. -/
def AreSeparate (R : NodeId → NodeId → Prop) (classes : List NodeClass) : Prop :=
  classes.Pairwise fun c c' => ¬ R c.representative c'.representative

/-! ## Placing nodes -/

section Place

variable {compareTo : NodeId → NodeId → NotingAttempt (Option Mapping)}

/-- A comparison returns a mapping only for related nodes, and none only for unrelated ones, unless it is
late. -/
def Decides (timeout : Option Nat) (mayFail : Prop) (S : NodeId → Prop) (R : NodeId → NodeId → Prop)
    (compareTo : NodeId → NodeId → NotingAttempt (Option Mapping)) : Prop :=
  ∀ a b, S a → S b → Answers timeout mayFail (compareTo a b) fun late found =>
    (found.isSome = true → R a b) ∧ (late = [] → found = none → ¬ R a b)

/-- What placing a node does to classes. -/
structure Placed (R : NodeId → NodeId → Prop) (id : NodeId) (classes : List NodeClass)
    (late : List LateComparison) (after : List NodeClass) : Prop where
  nodes : (after.flatMap (·.members)).Perm (id :: classes.flatMap (·.members))
  representatives : ∀ c ∈ after, c.representative = id ∨
    ∃ c' ∈ classes, c'.representative = c.representative
  related : AreRelated R classes → AreRelated R after
  separate : late = [] → AreSeparate R classes → AreSeparate R after

/-- A node that is in no class opens one. -/
theorem Placed.opens {late : List LateComparison} (hrefl : R id id) :
    Placed R id [] late [⟨id, []⟩] where
  nodes := .refl _
  representatives c hc := by
    rw [List.mem_singleton.1 hc]
    exact Or.inl rfl
  related _ c hc id' hid' := by
    obtain rfl := List.mem_singleton.1 hc
    obtain rfl := List.mem_singleton.1 hid'
    exact hrefl
  separate _ _ := List.pairwise_singleton _ _

/-- A node joins the first class if it is related to the representative. -/
theorem Placed.joins {late : List LateComparison} {c : NodeClass} {m : Option Mapping}
    (hrelated : R c.representative id) :
    Placed R id (c :: classes) late ({ c with others := c.others ++ [(id, m)] } :: classes) where
  nodes := by
    simp only [List.flatMap_cons, NodeClass.members, List.map_append, List.map_cons, List.map_nil,
      ← List.cons_append, List.append_assoc]
    exact List.perm_middle
  representatives c' hc' := by
    rcases List.mem_cons.1 hc' with rfl | hc'
    · exact Or.inr ⟨c, List.mem_cons_self, rfl⟩
    · exact Or.inr ⟨c', List.mem_cons_of_mem _ hc', rfl⟩
  related hclasses c' hc' id' hid' := by
    rcases List.mem_cons.1 hc' with rfl | hc'
    · have hid' : id' ∈ c.members ++ [id] := by simpa [NodeClass.members] using hid'
      rcases List.mem_append.1 hid' with hid' | hid'
      · exact hclasses c List.mem_cons_self id' hid'
      · rw [List.mem_singleton.1 hid']
        exact hrelated
    · exact hclasses c' (List.mem_cons_of_mem _ hc') id' hid'
  separate _ hseparate := by
    rw [AreSeparate, List.pairwise_cons] at hseparate ⊢
    exact hseparate

/-- A node is placed behind a class that it is not related to, as far as was seen. -/
theorem Placed.passes {late late' : List LateComparison} {c : NodeClass}
    (hafter : Placed R id classes late' after) (hunrelated : late = [] → ¬ R c.representative id) :
    Placed R id (c :: classes) (late ++ late') (c :: after) where
  nodes := by
    rw [List.flatMap_cons, List.flatMap_cons]
    exact (hafter.nodes.append_left c.members).trans List.perm_middle
  representatives c' hc' := by
    rcases List.mem_cons.1 hc' with rfl | hc'
    · exact Or.inr ⟨c', List.mem_cons_self, rfl⟩
    · refine (hafter.representatives c' hc').imp_right ?_
      rintro ⟨c'', hc'', heq⟩
      exact ⟨c'', List.mem_cons_of_mem _ hc'', heq⟩
  related hclasses c' hc' := by
    rcases List.mem_cons.1 hc' with rfl | hc'
    · exact hclasses c' List.mem_cons_self
    · exact hafter.related (fun c hc => hclasses c (List.mem_cons_of_mem _ hc)) c' hc'
  separate hnil hseparate := by
    obtain ⟨hlate, hlate'⟩ := List.append_eq_nil_iff.1 hnil
    rw [AreSeparate, List.pairwise_cons] at hseparate ⊢
    refine ⟨fun c' hc' => ?_, hafter.separate hlate' hseparate.2⟩
    rcases hafter.representatives c' hc' with heq | ⟨c'', hc'', heq⟩
    · rw [heq]
      exact hunrelated hlate
    · rw [← heq]
      exact hseparate.1 c'' hc''

theorem answers_place (hdecides : Decides timeout mayFail S R compareTo) (hid : S id)
    (hrefl : R id id) (hclasses : ∀ c ∈ classes, S c.representative) :
    Answers timeout mayFail (place compareTo id classes) (Placed R id classes) := by
  induction classes with
  | nil => exact .pure (.opens hrefl)
  | cons c rest ih =>
    refine .bind (hdecides _ _ (hclasses c List.mem_cons_self) hid) fun late found hfound => ?_
    obtain ⟨hsome, hnone⟩ := hfound
    cases found with
    | some m => exact .pure (.joins (hsome rfl))
    | none =>
      refine .bind (ih fun c' hc' => hclasses c' (List.mem_cons_of_mem _ hc')) fun late' after hafter =>
        .pure ?_
      rw [List.append_nil]
      exact hafter.passes fun hlate => hnone hlate rfl

/-- Placing the nodes of a group, one after the other. -/
theorem answers_foldlM_place (hdecides : Decides timeout mayFail S R compareTo)
    (hrefl : ∀ a, S a → R a a) (hgroup : ∀ id ∈ group, S id)
    (hclasses : ∀ c ∈ classes, S c.representative) :
    Answers timeout mayFail (group.foldlM (fun classes id => place compareTo id classes) classes)
      fun late after => (after.flatMap (·.members)).Perm (group ++ classes.flatMap (·.members)) ∧
        (AreRelated R classes → AreRelated R after) ∧
        (late = [] → AreSeparate R classes → AreSeparate R after) := by
  induction group generalizing classes with
  | nil => exact .pure ⟨.refl _, id, fun _ => id⟩
  | cons id rest ih =>
    have hid := hgroup id List.mem_cons_self
    rw [List.foldlM_cons]
    refine .bind (answers_place hdecides hid (hrefl id hid) hclasses) fun late placed hplaced =>
      (ih (fun id hid => hgroup id (List.mem_cons_of_mem _ hid)) fun c hc => ?_).mono
        fun late' after hafter => ?_
    · rcases hplaced.representatives c hc with heq | ⟨c', hc', heq⟩
      · exact heq ▸ hid
      · exact heq ▸ hclasses c' hc'
    · obtain ⟨hnodes, hrelated, hseparate⟩ := hafter
      refine ⟨?_, fun h => hrelated (hplaced.related h), fun hnil h => ?_⟩
      · exact hnodes.trans ((hplaced.nodes.append_left rest).trans List.perm_middle)
      · obtain ⟨hlate, hlate'⟩ := List.append_eq_nil_iff.1 hnil
        exact hseparate hlate' (hplaced.separate hlate h)

end Place

/-! ## Splitting groups -/

/-- Classes that a group is split into. -/
structure SplitsGroup (R : NodeId → NodeId → Prop) (group : List NodeId) (late : List LateComparison)
    (classes : List NodeClass) : Prop where
  nodes : (classes.flatMap (·.members)).Perm group
  related : AreRelated R classes
  separate : late = [] → AreSeparate R classes

/-- Classes that groups are split into: every class holds related nodes of one group, and related nodes
of a group are in one class unless a comparison was late. -/
structure Splits (R : NodeId → NodeId → Prop) (groups : List (List NodeId))
    (late : List LateComparison) (classes : List NodeClass) : Prop where
  nodes : (classes.flatMap (·.members)).Perm groups.flatten
  related : ∀ c ∈ classes, ∀ a ∈ c.members, ∀ b ∈ c.members, R a b
  grouped : ∀ c ∈ classes, ∃ group ∈ groups, ∀ a ∈ c.members, a ∈ group
  complete : late = [] → ∀ group ∈ groups, ∀ a ∈ group, ∀ b ∈ group, R a b →
    ∃ c ∈ classes, a ∈ c.members ∧ b ∈ c.members

theorem representative_mem_members (c : NodeClass) : c.representative ∈ c.members :=
  List.mem_cons_self

theorem AreSeparate.eq_of_related (h : AreSeparate R classes) {c c' : NodeClass} (hc : c ∈ classes)
    (hc' : c' ∈ classes) (hleads : R c.representative c'.representative)
    (hback : R c'.representative c.representative) : c = c' := by
  obtain ⟨i, hi, rfl⟩ := List.getElem_of_mem hc
  obtain ⟨j, hj, rfl⟩ := List.getElem_of_mem hc'
  have hapart := List.pairwise_iff_getElem.1 h
  rcases Nat.lt_trichotomy i j with hlt | rfl | hlt
  · exact absurd hleads (hapart i j hi hj hlt)
  · rfl
  · exact absurd hback (hapart j i hj hi hlt)

section Laws

variable (hsymm : ∀ a b, S a → S b → R a b → R b a)
  (htrans : ∀ a b c, S a → S b → S c → R a b → R b c → R a c)

include hsymm htrans

theorem SplitsGroup.related_of_mem {late : List LateComparison}
    (h : SplitsGroup R group late classes) (hgroup : ∀ id ∈ group, S id)
    {c : NodeClass} (hc : c ∈ classes) {a b : NodeId} (ha : a ∈ c.members) (hb : b ∈ c.members) :
    R a b := by
  have hS : ∀ id ∈ c.members, S id := fun id hid =>
    hgroup id (h.nodes.mem_iff.1 (List.mem_flatMap.2 ⟨c, hc, hid⟩))
  have hlead := hS _ (representative_mem_members c)
  exact htrans _ _ _ (hS a ha) hlead (hS b hb) (hsymm _ _ hlead (hS a ha) (h.related c hc a ha))
    (h.related c hc b hb)

/-- Related nodes have related representatives, so they are in one class. -/
theorem SplitsGroup.exists_class (h : SplitsGroup R group [] classes) (hgroup : ∀ id ∈ group, S id)
    {a b : NodeId} (ha : a ∈ group) (hb : b ∈ group) (hab : R a b) :
    ∃ c ∈ classes, a ∈ c.members ∧ b ∈ c.members := by
  obtain ⟨c, hc, hac⟩ := List.mem_flatMap.1 (h.nodes.mem_iff.2 ha)
  obtain ⟨c', hc', hbc⟩ := List.mem_flatMap.1 (h.nodes.mem_iff.2 hb)
  have hS : ∀ c ∈ classes, S c.representative := fun c hc =>
    hgroup _ (h.nodes.mem_iff.1 (List.mem_flatMap.2 ⟨c, hc, representative_mem_members c⟩))
  have hleads : R c.representative c'.representative :=
    htrans _ _ _ (hS c hc) (hgroup a ha) (hS c' hc') (h.related c hc a hac)
      (htrans _ _ _ (hgroup a ha) (hgroup b hb) (hS c' hc') hab
        (hsymm _ _ (hS c' hc') (hgroup b hb) (h.related c' hc' b hbc)))
  have hback := hsymm _ _ (hS c hc) (hS c' hc') hleads
  exact ⟨c, hc, hac, (h.separate rfl).eq_of_related hc hc' hleads hback ▸ hbc⟩

/-- The classes of all groups together. -/
theorem splits_flatten {late : List LateComparison} {parts : List (List NodeClass)}
    (hgroups : ∀ group ∈ groups, ∀ id ∈ group, S id)
    (h : groups.Forall₂ (fun group classes =>
      ∃ late', SplitsGroup R group late' classes ∧ (late = [] → late' = [])) parts) :
    Splits R groups late parts.flatten := by
  induction h with
  | nil => exact ⟨.refl _, by simp, by simp, by simp⟩
  | @cons group classes groups parts hfirst _ ih =>
    obtain ⟨late', hsplits, hlate⟩ := hfirst
    have ih := ih fun g hg => hgroups g (List.mem_cons_of_mem _ hg)
    have hgroup := hgroups group List.mem_cons_self
    refine ⟨?_, fun c hc => ?_, fun c hc => ?_, fun hnil g hg a ha b hb hab => ?_⟩
    · rw [List.flatten_cons, List.flatten_cons, List.flatMap_append]
      exact hsplits.nodes.append ih.nodes
    · rcases List.mem_append.1 hc with hc | hc
      · exact fun a ha b hb => hsplits.related_of_mem hsymm htrans hgroup hc ha hb
      · exact ih.related c hc
    · rcases List.mem_append.1 hc with hc | hc
      · exact ⟨group, List.mem_cons_self, fun a ha =>
          hsplits.nodes.mem_iff.1 (List.mem_flatMap.2 ⟨c, hc, ha⟩)⟩
      · obtain ⟨g, hg, hmem⟩ := ih.grouped c hc
        exact ⟨g, List.mem_cons_of_mem _ hg, hmem⟩
    · rcases List.mem_cons.1 hg with rfl | hg
      · obtain rfl := hlate hnil
        obtain ⟨c, hc, hmem⟩ := hsplits.exists_class hsymm htrans hgroup ha hb hab
        exact ⟨c, List.mem_append_left _ hc, hmem⟩
      · obtain ⟨c, hc, hmem⟩ := ih.complete hnil g hg a ha b hb hab
        exact ⟨c, List.mem_append_right _ hc, hmem⟩

end Laws

theorem Splits.perm {late : List LateComparison} {classes' : List NodeClass}
    (h : Splits R groups late classes) (hperm : classes'.Perm classes) : Splits R groups late classes' where
  nodes := (hperm.flatMap_right _).trans h.nodes
  related c hc := h.related c (hperm.mem_iff.1 hc)
  grouped c hc := h.grouped c (hperm.mem_iff.1 hc)
  complete hnil g hg a ha b hb hab := by
    obtain ⟨c, hc, hmem⟩ := h.complete hnil g hg a ha b hb hab
    exact ⟨c, hperm.mem_iff.2 hc, hmem⟩

/-- Splitting groups of live nodes by comparison puts equivalent nodes of a group together. -/
theorem answers_splitByComparison {solve : Solver} {d : Dag} {options : ClassOptions}
    (hsolve : solve.Correct) (hparts : d.HasProperParts) (hfit : FitMemory d options.equivalence)
    (hgroups : ∀ group ∈ groups, ∀ id ∈ group, id ∈ d.live) :
    Answers options.equivalence.timeout (options.equivalence.dumpPath ≠ none)
      (splitByComparison solve d options groups) (Splits d.AreEquivalent groups) := by
  have hdecides : Decides options.equivalence.timeout (options.equivalence.dumpPath ≠ none)
      (· ∈ d.live) d.AreEquivalent (compareNodes solve d options) := fun a b ha hb =>
    answers_compareNodes hsolve hparts hfit ha hb
  have hgroup : ∀ group ∈ groups, Answers options.equivalence.timeout
      (options.equivalence.dumpPath ≠ none)
      (group.foldlM (fun classes id => place (compareNodes solve d options) id classes) [])
      (SplitsGroup d.AreEquivalent group) := fun group hgroup =>
    (answers_foldlM_place hdecides (fun a ha => hparts.areEquivalent_refl ha) (hgroups group hgroup)
      (by simp)).mono fun late classes h => by
        obtain ⟨hnodes, hrelated, hseparate⟩ := h
        rw [List.flatMap_nil, List.append_nil] at hnodes
        exact ⟨hnodes, hrelated (by simp [AreRelated]), fun hnil => hseparate hnil .nil⟩
  unfold splitByComparison
  refine .bind (.mapM hgroup) fun late parts hparted => ?_
  have hsplits : Splits d.AreEquivalent groups late parts.flatten :=
    splits_flatten (S := (· ∈ d.live)) (fun a b ha hb => hparts.areEquivalent_symm ha hb)
      (fun a b c ha hb hc => hparts.areEquivalent_trans ha hb hc) hgroups hparted
  have hperm : (NodeClass.sorted parts.flatten).Perm parts.flatten := List.mergeSort_perm _ _
  refine .pure ?_
  rw [List.append_nil]
  exact hsplits.perm hperm

end CircuitEquiv.NodeClasses
