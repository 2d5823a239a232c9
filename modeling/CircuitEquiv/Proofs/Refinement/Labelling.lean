-- SUMMARY: Reading and changing labellings: which items there are, and what relabelling does to each.
import CircuitEquiv.Refinement.SideGraph
import Mathlib.Data.List.Nodup

/-!
# Labellings

An item is valid in a labelling when it has a label there. Relabelling changes no item's validity,
and it changes the labels of the listed items only.
-/

namespace CircuitEquiv.Labelling

variable {l : Labelling} {i j : Item} {x : ClassLabel}

/-- The labelling has a label for the item. -/
def Valid (l : Labelling) (i : Item) : Prop := i.index < (l[i.side]?.getD #[]).size

/-! ## Single changes -/

theorem getElem?_set (l : Labelling) (i : Item) (x : ClassLabel) (k : Nat) :
    (l.set i x)[k]? =
      if i.side = k then (l[k]?).map fun side => side.setIfInBounds i.index x else l[k]? := by
  rw [set, Array.getElem?_modify]

@[simp]
theorem size_set (l : Labelling) (i : Item) (x : ClassLabel) : (l.set i x).size = l.size := by
  simp [set]

@[simp]
theorem valid_set : (l.set i x).Valid j ↔ l.Valid j := by
  unfold Valid
  rw [getElem?_set]
  split
  · cases l[j.side]? <;> simp
  · rfl

theorem label_set (hi : l.Valid i) : (l.set i x).label j = if j = i then x else l.label j := by
  obtain ⟨side, index⟩ := i
  obtain ⟨side', index'⟩ := j
  unfold Valid at hi
  unfold label
  rw [getElem?_set]
  by_cases hside : side = side'
  · subst hside
    cases hget : l[side]? with
    | none => simp [hget] at hi
    | some labels =>
      have hlt : index < labels.size := by simpa [hget] using hi
      by_cases hindex : index' = index
      · subst hindex
        simp [hlt]
      · have hne : ¬index = index' := fun h => hindex h.symm
        simp [hindex, hne]
  · have hne : ¬(⟨side', index'⟩ : Item) = ⟨side, index⟩ := fun h => hside (congrArg Item.side h).symm
    rw [if_neg hside, if_neg hne]

/-! ## Relabelling -/

theorem valid_foldl_set (items : List Item) :
    (items.foldl (fun l i => l.set i x) l).Valid j ↔ l.Valid j := by
  induction items generalizing l with
  | nil => rfl
  | cons i rest ih => rw [List.foldl_cons, ih, valid_set]

theorem size_foldl_set (items : List Item) :
    (items.foldl (fun l i => l.set i x) l).size = l.size := by
  induction items generalizing l with
  | nil => rfl
  | cons i rest ih => rw [List.foldl_cons, ih, size_set]

theorem label_foldl_set {items : List Item} (h : ∀ i ∈ items, l.Valid i) :
    (items.foldl (fun l i => l.set i x) l).label j = if j ∈ items then x else l.label j := by
  induction items generalizing l with
  | nil => simp
  | cons i rest ih =>
    rw [List.foldl_cons, ih fun k hk => valid_set.2 (h k (List.mem_cons_of_mem i hk)),
      label_set (h i List.mem_cons_self)]
    by_cases hrest : j ∈ rest
    · simp [hrest]
    · simp [hrest]

theorem relabel_cons (l : Labelling) (part : ClassLabel × List Item)
    (parts : List (ClassLabel × List Item)) :
    l.relabel (part :: parts) =
      relabel (part.2.foldl (fun l i => l.set i part.1) l) parts := rfl

@[simp]
theorem valid_relabel (parts : List (ClassLabel × List Item)) :
    (l.relabel parts).Valid j ↔ l.Valid j := by
  induction parts generalizing l with
  | nil => rfl
  | cons part rest ih => rw [relabel_cons, ih, valid_foldl_set]

@[simp]
theorem size_relabel (l : Labelling) (parts : List (ClassLabel × List Item)) :
    (l.relabel parts).size = l.size := by
  induction parts generalizing l with
  | nil => rfl
  | cons part rest ih => rw [relabel_cons, ih, size_foldl_set]

/-- Items that are not listed keep their labels. -/
theorem label_relabel_of_not_mem {parts : List (ClassLabel × List Item)}
    (h : ∀ part ∈ parts, ∀ i ∈ part.2, l.Valid i) (hj : ∀ part ∈ parts, j ∉ part.2) :
    (l.relabel parts).label j = l.label j := by
  induction parts generalizing l with
  | nil => rfl
  | cons part rest ih =>
    have hpart := h part List.mem_cons_self
    rw [relabel_cons, ih fun q hq i hi => (valid_foldl_set part.2).2
      (h q (List.mem_cons_of_mem part hq) i hi), label_foldl_set hpart,
      if_neg (hj part List.mem_cons_self)]
    exact fun q hq => hj q (List.mem_cons_of_mem part hq)

/-- Every listed item gets the label of its list, when no item is listed twice. -/
theorem label_relabel_of_mem {parts : List (ClassLabel × List Item)}
    (h : ∀ part ∈ parts, ∀ i ∈ part.2, l.Valid i)
    (hdisjoint : parts.Pairwise fun p q => ∀ i ∈ p.2, i ∉ q.2) {part : ClassLabel × List Item}
    (hpart : part ∈ parts) (hj : j ∈ part.2) : (l.relabel parts).label j = part.1 := by
  induction parts generalizing l with
  | nil => cases hpart
  | cons first rest ih =>
    have ⟨hfirst, hrest⟩ := List.pairwise_cons.1 hdisjoint
    have hvalid : ∀ q ∈ rest, ∀ i ∈ q.2,
        (first.2.foldl (fun l i => l.set i first.1) l).Valid i := fun q hq i hi =>
      (valid_foldl_set first.2).2 (h q (List.mem_cons_of_mem first hq) i hi)
    rw [relabel_cons]
    rcases List.mem_cons.1 hpart with rfl | hpart
    · rw [label_relabel_of_not_mem hvalid fun q hq => hfirst q hq j hj,
        label_foldl_set (h part List.mem_cons_self), if_pos hj]
    · exact ih hvalid hrest hpart

/-! ## All items -/

theorem mem_items : i ∈ l.items ↔ l.Valid i := by
  obtain ⟨side, index⟩ := i
  simp only [items, List.mem_flatMap, List.mem_map, List.mem_range, Prod.exists,
    List.mem_zipIdx_iff_getElem?, Array.getElem?_toList, Valid]
  constructor
  · rintro ⟨labels, k, hk, index', hlt, heq⟩
    obtain ⟨rfl, rfl⟩ := Item.mk.inj heq
    rwa [hk]
  · intro h
    cases hget : l[side]? with
    | none => simp [hget] at h
    | some labels =>
      rw [hget] at h
      exact ⟨labels, side, hget, index, h, rfl⟩

theorem nodup_items (l : Labelling) : l.items.Nodup := by
  rw [items, List.nodup_flatMap]
  constructor
  · rintro ⟨labels, k⟩ -
    exact List.nodup_range.map fun i j h => congrArg Item.index h
  · have hindices : (l.toList.zipIdx.map Prod.snd).Nodup := by
      rw [List.zipIdx_map_snd]
      exact List.nodup_range'
    refine (List.pairwise_map.1 hindices).imp ?_
    rintro ⟨x, k⟩ ⟨y, k'⟩ hk i hi hi'
    obtain ⟨m, -, rfl⟩ := List.mem_map.1 hi
    obtain ⟨m', -, heq⟩ := List.mem_map.1 hi'
    exact hk (congrArg Item.side heq).symm

/-! ## Constant labellings -/

@[simp]
theorem size_constant (sizes : List Nat) (x : ClassLabel) : (constant sizes x).size = sizes.length := by
  simp [constant]

theorem valid_constant {sizes : List Nat} :
    (constant sizes x).Valid i ↔ i.index < sizes[i.side]?.getD 0 := by
  unfold Valid constant
  simp only [List.getElem?_toArray, List.getElem?_map]
  cases sizes[i.side]? <;> simp

theorem valid_constant_pair {n m : Nat} :
    (constant [n, m] x).Valid i ↔ (i.side = 0 ∧ i.index < n) ∨ (i.side = 1 ∧ i.index < m) := by
  obtain ⟨side, index⟩ := i
  rw [valid_constant]
  match side with
  | 0 => simp
  | 1 => simp
  | side + 2 => simp

theorem label_constant {sizes : List Nat} (h : (constant sizes x).Valid i) :
    (constant sizes x).label i = x := by
  rw [valid_constant] at h
  unfold label constant
  simp only [List.getElem?_toArray, List.getElem?_map]
  cases hget : sizes[i.side]? with
  | none => simp [hget] at h
  | some n =>
    have hlt : i.index < n := by simpa [hget] using h
    simp [hlt]

end CircuitEquiv.Labelling
