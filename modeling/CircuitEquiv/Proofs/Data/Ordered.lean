-- SUMMARY: Looking up entries of sorted maps, maps built from lists, and lists put into ascending order.
import CircuitEquiv.Data.SortedMap
import Mathlib.Data.List.Nodup

/-!
# Ordered data

A sorted map is determined by what it holds under each key, so most facts about maps are facts about
looking up. A list put into ascending order depends on its elements and their multiplicities only.
-/

namespace CircuitEquiv

/-! ## Strict order -/

section Strict

variable {α : Type} [Ord α]

theorem ne_of_compare_lt [Std.LawfulEqOrd α] {a b : α} (h : compare a b = .lt) : a ≠ b := by
  intro heq
  have hself : compare b b = .eq := Std.ReflCmp.compare_self
  rw [heq, hself] at h
  cases h

theorem compare_ne_eq [Std.LawfulEqOrd α] {a b : α} (h : a ≠ b) : compare a b ≠ .eq :=
  fun hc => h (Std.LawfulEqCmp.eq_of_compare hc)

theorem compare_lt_asymm [Std.TransOrd α] {a b : α} (h : compare a b = .lt) :
    compare b a ≠ .lt := by
  intro h'
  have hgt : compare a b = .gt := Std.OrientedCmp.gt_of_lt h'
  rw [h] at hgt
  cases hgt

end Strict

/-! ## Ascending lists -/

section Ascending

variable {α : Type} [Ord α]

theorem ascending_perm (l : List α) : (ascending l).Perm l := List.mergeSort_perm l _

@[simp]
theorem mem_ascending {a : α} {l : List α} : a ∈ ascending l ↔ a ∈ l := (ascending_perm l).mem_iff

theorem perm_of_ascending_eq {l l' : List α} (h : ascending l = ascending l') : l.Perm l' :=
  (ascending_perm l).symm.trans (h ▸ ascending_perm l')

theorem isLE_total [Std.TransOrd α] (a b : α) :
    ((compare a b).isLE || (compare b a).isLE) = true := by
  have hswap : compare b a = (compare a b).swap := Std.OrientedCmp.eq_swap
  rw [hswap]
  cases compare a b <;> rfl

variable [Std.TransOrd α] [Std.LawfulEqOrd α]

theorem eq_of_isLE_isLE {a b : α} (hab : (compare a b).isLE = true) (hba : (compare b a).isLE = true) :
    a = b :=
  Std.LawfulEqCmp.eq_of_compare (Std.OrientedCmp.isLE_antisymm hab hba)

omit [Std.LawfulEqOrd α] in
theorem pairwise_ascending (l : List α) :
    (ascending l).Pairwise (fun a b => (compare a b).isLE = true) := by
  apply List.pairwise_mergeSort
  · intro a b c hab hbc
    exact Std.TransCmp.isLE_trans hab hbc
  · exact isLE_total

/-- Lists with the same elements become the same ascending list. -/
theorem ascending_eq_of_perm {l l' : List α} (h : l.Perm l') : ascending l = ascending l' := by
  have hperm : (ascending l).Perm (ascending l') :=
    (ascending_perm l).trans (h.trans (ascending_perm l').symm)
  exact hperm.eq_of_pairwise (fun a b _ _ hab hba => eq_of_isLE_isLE hab hba)
    (pairwise_ascending l) (pairwise_ascending l')

omit [Std.LawfulEqOrd α] [Ord α] [Std.TransOrd α] in
/-- Numbers without repetition are put into strictly ascending order. -/
theorem pairwise_lt_ascending {l : List Nat} (h : l.Nodup) : (ascending l).Pairwise (· < ·) := by
  have hnodup : (ascending l).Nodup := (ascending_perm l).nodup_iff.2 h
  refine ((pairwise_ascending l).and hnodup).imp fun {a b} hab => ?_
  exact Nat.lt_of_le_of_ne (Nat.isLE_compare.1 hab.1) hab.2

theorem ascendingPair_comm (a b : α) : ascendingPair a b = ascendingPair b a := by
  unfold ascendingPair
  by_cases hab : (compare a b).isLE
  · by_cases hba : (compare b a).isLE
    · rw [eq_of_isLE_isLE hab hba]
    · simp [hab, hba]
  · have := isLE_total a b
    simp_all

end Ascending

theorem nodup_eraseDups {α : Type} [DecidableEq α] : ∀ l : List α, l.eraseDups.Nodup
  | [] => List.nodup_nil
  | a :: rest => by
    rw [List.eraseDups_cons]
    refine List.nodup_cons.2 ⟨fun ha => ?_, nodup_eraseDups _⟩
    have ha := List.of_mem_filter (List.mem_eraseDups.1 ha)
    simp at ha
termination_by l => l.length
decreasing_by exact Nat.lt_succ_of_le (List.length_filter_le _ _)

/-! ## Sets -/

namespace SortedSet

variable {α : Type} [Ord α] [Std.TransOrd α] [Std.LawfulEqOrd α]

omit [Std.TransOrd α] [Std.LawfulEqOrd α] in
theorem isEmpty_eq_false_iff {s : SortedSet α} : s.isEmpty = false ↔ ∃ a, a ∈ s :=
  List.isEmpty_eq_false_iff_exists_mem

omit [Std.TransOrd α] in
theorem nodup_toList (s : SortedSet α) : s.toList.Nodup :=
  s.sorted.imp fun hab => ne_of_compare_lt hab

/-- Sets with the same members are equal. -/
@[ext]
theorem ext {s t : SortedSet α} (h : ∀ a, a ∈ s ↔ a ∈ t) : s = t := by
  obtain ⟨l, hl⟩ := s
  obtain ⟨m, hm⟩ := t
  have hperm : l.Perm m :=
    (List.perm_ext_iff_of_nodup (nodup_toList ⟨l, hl⟩) (nodup_toList ⟨m, hm⟩)).2 h
  have heq : l = m :=
    hperm.eq_of_pairwise (fun a b _ _ hab hba => absurd hba (compare_lt_asymm hab)) hl hm
  subst heq
  rfl

end SortedSet

/-! ## Looking up in maps -/

namespace SortedMap

variable {κ β γ : Type} [Ord κ]

section Lookup

variable [Std.LawfulEqOrd κ]

theorem nodup_keys (m : SortedMap κ β) : m.keys.Nodup := by
  rw [keys, List.Nodup, List.pairwise_map]
  exact m.sorted.imp fun hab => ne_of_compare_lt hab

theorem nodup_entries (m : SortedMap κ β) : m.entries.Nodup := List.Nodup.of_map _ m.nodup_keys

theorem lookupEntry_eq_some_iff {k : κ} {v : β} {l : List (κ × β)} (h : (l.map (·.1)).Nodup) :
    lookupEntry k l = some v ↔ (k, v) ∈ l := by
  induction l with
  | nil => simp [lookupEntry]
  | cons e rest ih =>
    obtain ⟨k', v'⟩ := e
    rw [List.map_cons, List.nodup_cons] at h
    by_cases hk : k = k'
    · subst hk
      have hrest : (k, v) ∉ rest := fun hm => h.1 (List.mem_map.2 ⟨(k, v), hm, rfl⟩)
      simp [lookupEntry, Std.ReflCmp.compare_self, hrest, eq_comm]
    · have hne := compare_ne_eq hk
      have hskip : lookupEntry k ((k', v') :: rest) = lookupEntry k rest := by
        rw [lookupEntry]
        cases hc : compare k k' <;> simp_all
      rw [hskip, ih h.2]
      simp [hk]

/-- A map holds under a key what its entries say. -/
theorem get?_eq_some_iff {m : SortedMap κ β} {k : κ} {v : β} :
    m.get? k = some v ↔ (k, v) ∈ m.entries :=
  lookupEntry_eq_some_iff m.nodup_keys

theorem mem_keys_iff {m : SortedMap κ β} {k : κ} : k ∈ m.keys ↔ ∃ v, m.get? k = some v := by
  simp [keys, get?_eq_some_iff]

theorem get?_eq_none_iff {m : SortedMap κ β} {k : κ} : m.get? k = none ↔ k ∉ m.keys := by
  rw [mem_keys_iff]
  cases m.get? k <;> simp

theorem contains_iff {m : SortedMap κ β} {k : κ} : m.contains k = true ↔ k ∈ m.keys := by
  rw [mem_keys_iff, contains, Option.isSome_iff_exists]

theorem mem_values_iff {m : SortedMap κ β} {v : β} : v ∈ m.values ↔ ∃ k, m.get? k = some v := by
  simp [values, get?_eq_some_iff]

omit [Std.LawfulEqOrd κ] in
theorem values_ne_nil {m : SortedMap κ β} (h : m.isEmpty = false) : m.values ≠ [] := by
  rw [isEmpty, List.isEmpty_eq_false_iff] at h
  simpa [values] using h

theorem getD_of_mem {m : SortedMap κ β} {k : κ} {v d : β} (h : (k, v) ∈ m.entries) :
    m.getD k d = v := by
  rw [getD, get?_eq_some_iff.2 h]
  rfl

theorem get?_filter {m : SortedMap κ β} {p : κ → β → Bool} {k : κ} :
    (m.filter p).get? k = (m.get? k).filter (p k) := by
  apply Option.ext
  intro v
  rw [get?_eq_some_iff, Option.filter_eq_some_iff, get?_eq_some_iff]
  simp [filter]

theorem get?_erase [DecidableEq κ] (m : SortedMap κ β) (k x : κ) :
    (m.erase k).get? x = if x = k then none else m.get? x := by
  rw [erase, get?_filter]
  by_cases h : x = k
  · subst h
    simp [Std.ReflCmp.compare_self]
  · rw [if_neg h]
    cases m.get? x with
    | none => rfl
    | some v => simp [Ne.symm h]

theorem entries_erase [DecidableEq κ] (m : SortedMap κ β) (k : κ) :
    (m.erase k).entries = m.entries.filter (fun e => e.1 ≠ k) := by
  simp only [erase, filter]
  refine List.filter_congr fun e _ => ?_
  by_cases h : e.1 = k
  · simp [h, Std.ReflCmp.compare_self]
  · have hne : ¬k = e.1 := fun hk => h hk.symm
    simp [h, hne]

end Lookup

section Trans

variable [Std.TransOrd κ] [Std.LawfulEqOrd κ]

omit [Std.LawfulEqOrd κ] in
theorem ext_entries_perm {m n : SortedMap κ β} (h : m.entries.Perm n.entries) : m = n := by
  obtain ⟨l, hl⟩ := m
  obtain ⟨l', hl'⟩ := n
  have heq : l = l' :=
    List.Perm.eq_of_pairwise (fun a b _ _ hab hba => absurd hba (compare_lt_asymm hab)) hl hl' h
  subst heq
  rfl

/-- Maps that hold the same under every key are equal. -/
theorem ext_get? {m n : SortedMap κ β} (h : ∀ k, m.get? k = n.get? k) : m = n := by
  have hmem : ∀ e, e ∈ m.entries ↔ e ∈ n.entries := by
    rintro ⟨k, v⟩
    rw [← get?_eq_some_iff, ← get?_eq_some_iff, h]
  exact ext_entries_perm ((List.perm_ext_iff_of_nodup m.nodup_entries n.nodup_entries).2 hmem)

theorem get?_upsert [DecidableEq κ] (m : SortedMap κ β) (k x : κ) (f : Option β → β) :
    (m.upsert k f).get? x = if x = k then some (f (m.get? k)) else m.get? x := by
  by_cases h : x = k
  · subst h
    simp [get?_upsert_self]
  · simp [h, get?_upsert_of_ne]

theorem get?_insert [DecidableEq κ] (m : SortedMap κ β) (k x : κ) (v : β) :
    (m.insert k v).get? x = if x = k then some v else m.get? x := get?_upsert m k x _

/-- A new key adds its entry to the others. -/
theorem get?_insert_eq_some_iff {m : SortedMap κ β} {k x : κ} {v w : β} (h : m.get? k = none) :
    (m.insert k v).get? x = some w ↔ m.get? x = some w ∨ x = k ∧ w = v := by
  classical
  rw [get?_insert]
  by_cases hx : x = k
  · subst hx
    simp [h, eq_comm]
  · simp [hx]

theorem mem_keys_insert {m : SortedMap κ β} {k x : κ} {v : β} :
    x ∈ (m.insert k v).keys ↔ x = k ∨ x ∈ m.keys := by
  classical
  rw [mem_keys_iff, mem_keys_iff, get?_insert]
  split <;> simp [*]

/-- A new key makes the map larger by one. -/
theorem length_keys_insert {m : SortedMap κ β} {k : κ} {v : β} (h : k ∉ m.keys) :
    (m.insert k v).keys.length = m.keys.length + 1 := by
  have hperm : (m.insert k v).keys.Perm (k :: m.keys) :=
    (List.perm_ext_iff_of_nodup (nodup_keys _) (List.nodup_cons.2 ⟨h, m.nodup_keys⟩)).2 fun x => by
      rw [mem_keys_insert, List.mem_cons]
  exact hperm.length_eq

/-! ### Maps of lists -/

theorem get?_ofList_cons [DecidableEq κ] (e : κ × β) (l : List (κ × β)) (k : κ) :
    (ofList (e :: l)).get? k =
      if k = e.1 then some (((ofList l).get? k).getD e.2) else (ofList l).get? k := by
  have : ofList (e :: l) = (ofList l).upsert e.1 (fun later => later.getD e.2) := rfl
  rw [this, get?_upsert]
  split
  · rename_i h
    rw [h]
  · rfl

theorem mem_of_get?_ofList {l : List (κ × β)} {k : κ} {v : β} (h : (ofList l).get? k = some v) :
    (k, v) ∈ l := by
  classical
  induction l generalizing v with
  | nil => simp [ofList] at h
  | cons e rest ih =>
    rw [get?_ofList_cons] at h
    split at h
    · rename_i hk
      cases hget : (ofList rest).get? k with
      | none => simp [hget] at h; simp [hk, ← h]
      | some w => simp [hget] at h; exact List.mem_cons_of_mem _ (ih (h ▸ hget))
    · exact List.mem_cons_of_mem _ (ih h)

theorem mem_keys_ofList {l : List (κ × β)} {k : κ} : k ∈ (ofList l).keys ↔ k ∈ l.map (·.1) := by
  classical
  rw [mem_keys_iff]
  induction l with
  | nil => simp [ofList]
  | cons e rest ih =>
    rw [get?_ofList_cons, List.map_cons, List.mem_cons]
    split
    · rename_i hk
      simp [hk]
    · rename_i hk
      simp [hk, ← ih]

/-- Of a list in which no key occurs twice, the map holds every entry. -/
theorem get?_ofList_of_nodup {l : List (κ × β)} (h : (l.map (·.1)).Nodup) {k : κ} {v : β} :
    (ofList l).get? k = some v ↔ (k, v) ∈ l := by
  refine ⟨mem_of_get?_ofList, fun hm => ?_⟩
  obtain ⟨w, hw⟩ := mem_keys_iff.1 (mem_keys_ofList.2 (List.mem_map_of_mem hm))
  have : w = v := congrArg Prod.snd (List.inj_on_of_nodup_map h (mem_of_get?_ofList hw) hm rfl)
  rw [hw, this]

theorem entries_ofList_perm {l : List (κ × β)} (h : (l.map (·.1)).Nodup) :
    (ofList l).entries.Perm l := by
  refine (List.perm_ext_iff_of_nodup (nodup_entries _) (List.Nodup.of_map _ h)).2 fun e => ?_
  rw [← get?_ofList_of_nodup h, get?_eq_some_iff]

/-! ### Grouping -/

omit [Std.TransOrd κ] [Std.LawfulEqOrd κ] in
theorem flatMap_upsertEntry_perm (k : κ) (v : β) (l : List (κ × List β)) :
    ((upsertEntry k (fun later => v :: later.getD []) l).flatMap (·.2)).Perm (v :: l.flatMap (·.2)) := by
  induction l with
  | nil => exact .refl _
  | cons e rest ih =>
    obtain ⟨k', vs⟩ := e
    rw [upsertEntry]
    split
    · exact .refl _
    · exact .refl _
    · exact (ih.append_left vs).trans List.perm_middle

omit [Std.LawfulEqOrd κ] in
/-- Every value is in one group, as often as it is listed. -/
theorem flatten_values_groupValues_perm (l : List (κ × β)) :
    (groupValues l).values.flatten.Perm (l.map (·.2)) := by
  have hflatten : ∀ m : SortedMap κ (List β), m.values.flatten = m.entries.flatMap (·.2) :=
    fun m => rfl
  rw [hflatten]
  induction l with
  | nil => exact .refl _
  | cons e rest ih => exact (flatMap_upsertEntry_perm e.1 e.2 _).trans (ih.cons e.2)

variable [DecidableEq κ]

theorem get?_groupValues (l : List (κ × β)) (k : κ) :
    (groupValues l).get? k =
      if k ∈ l.map (·.1) then some ((l.filter (fun e => e.1 = k)).map (·.2)) else none := by
  induction l with
  | nil => simp [groupValues]
  | cons e rest ih =>
    have : groupValues (e :: rest) = (groupValues rest).upsert e.1 (fun later => e.2 :: later.getD []) :=
      rfl
    rw [this, get?_upsert]
    by_cases hk : k = e.1
    · subst hk
      by_cases hrest : e.1 ∈ rest.map (·.1)
      · rw [if_pos rfl, ih, if_pos hrest]
        simp
      · have hnil : rest.filter (fun x => x.1 = e.1) = [] := by
          refine List.filter_eq_nil_iff.2 fun x hx hxe => hrest ?_
          rw [← of_decide_eq_true hxe]
          exact List.mem_map_of_mem hx
        rw [if_pos rfl, ih, if_neg hrest]
        simp [hnil]
    · have hne : ¬e.1 = k := fun h => hk h.symm
      rw [if_neg hk, ih]
      simp only [List.map_cons, List.mem_cons, hk, false_or, List.filter_cons, hne, decide_false,
        Bool.false_eq_true, if_false]

theorem mem_keys_groupValues {l : List (κ × β)} {k : κ} :
    k ∈ (groupValues l).keys ↔ k ∈ l.map (·.1) := by
  rw [mem_keys_iff, get?_groupValues]
  split <;> simp [*]

theorem getD_groupValues (l : List (κ × β)) (k : κ) :
    (groupValues l).getD k [] = (l.filter (fun e => e.1 = k)).map (·.2) := by
  rw [getD, get?_groupValues]
  split
  · rfl
  · rename_i h
    symm
    rw [Option.getD_none, List.map_eq_nil_iff, List.filter_eq_nil_iff]
    intro x hx hxk
    exact h (of_decide_eq_true hxk ▸ List.mem_map_of_mem hx)

theorem mem_entries_groupValues {l : List (κ × β)} {k : κ} {vs : List β} :
    (k, vs) ∈ (groupValues l).entries ↔
      k ∈ l.map (·.1) ∧ vs = (l.filter (fun e => e.1 = k)).map (·.2) := by
  rw [← get?_eq_some_iff, get?_groupValues]
  split <;> simp [*, eq_comm]

/-- The members of a list by a key: every group consists of the members with the key of one of them. -/
theorem mem_values_groupValues_map {α : Type} {l : List α} {key : α → κ} {value : α → β}
    {vs : List β} : vs ∈ (groupValues (l.map fun a => (key a, value a))).values ↔
      ∃ a ∈ l, vs = (l.filter fun b => key b = key a).map value := by
  rw [mem_values_iff]
  simp only [get?_eq_some_iff, mem_entries_groupValues, List.map_map, List.filter_map, List.mem_map]
  constructor
  · rintro ⟨_, ⟨a, ha, rfl⟩, rfl⟩
    exact ⟨a, ha, rfl⟩
  · rintro ⟨a, ha, rfl⟩
    exact ⟨_, ⟨a, ha, rfl⟩, rfl⟩

theorem groupValues_map_snd {α : Type} (f : α → β) (l : List (κ × α)) :
    groupValues (l.map fun e => (e.1, f e.2)) = (groupValues l).mapValues fun _ values => values.map f := by
  refine ext_get? fun k => ?_
  rw [get?_mapValues, get?_groupValues, get?_groupValues]
  simp only [List.map_map, Function.comp_def, List.filter_map]
  split <;> simp

/-- The values of each key in ascending order depend on the entries and their multiplicities only. -/
theorem ascending_groupValues_eq_of_perm [Ord β] [Std.TransOrd β] [Std.LawfulEqOrd β]
    {l l' : List (κ × β)} (h : l.Perm l') :
    (groupValues l).mapValues (fun _ values => ascending values) =
      (groupValues l').mapValues fun _ values => ascending values := by
  apply ext_get?
  intro k
  rw [get?_mapValues, get?_mapValues, get?_groupValues, get?_groupValues]
  have hkeys : k ∈ l.map (·.1) ↔ k ∈ l'.map (·.1) := (h.map _).mem_iff
  by_cases hk : k ∈ l.map (·.1)
  · rw [if_pos hk, if_pos (hkeys.1 hk), Option.map_some, Option.map_some,
      ascending_eq_of_perm ((h.filter _).map _)]
  · rw [if_neg hk, if_neg fun hk' => hk (hkeys.2 hk')]

end Trans

end SortedMap

end CircuitEquiv
