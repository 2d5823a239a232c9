-- SUMMARY: Finite sets kept as strictly ascending lists, so that equal sets are equal values.
import CircuitEquiv.Data.Order

/-!
# Sorted sets

A finite set is the strictly ascending list of its members. Two sets with the same members are the
same value, and every traversal is in ascending order.
-/

namespace CircuitEquiv

/-- A finite set, stored as the strictly ascending list of its members. -/
structure SortedSet (α : Type) [Ord α] where
  toList : List α
  sorted : toList.Pairwise (fun a b => compare a b = .lt)

namespace SortedSet

variable {α : Type} [Ord α]

instance [DecidableEq α] : DecidableEq (SortedSet α) := fun s t =>
  decidable_of_iff (s.toList = t.toList) ⟨fun h => by cases s; cases t; cases h; rfl, fun h => h ▸ rfl⟩

instance : Membership α (SortedSet α) := ⟨fun s a => a ∈ s.toList⟩

instance [DecidableEq α] (a : α) (s : SortedSet α) : Decidable (a ∈ s) :=
  inferInstanceAs (Decidable (a ∈ s.toList))

instance : Ord (SortedSet α) := ⟨fun s t => compare s.toList t.toList⟩

theorem mem_def {a : α} {s : SortedSet α} : a ∈ s ↔ a ∈ s.toList := Iff.rfl

-- ---------------------------------------------------------------------------
-- Insertion
-- ---------------------------------------------------------------------------

/-- Puts `a` into an ascending list, unless it is there. -/
def insertAscending (a : α) : List α → List α
  | [] => [a]
  | b :: rest =>
    match compare a b with
    | .lt => a :: b :: rest
    | .eq => b :: rest
    | .gt => b :: insertAscending a rest

theorem mem_insertAscending_imp {a x : α} {l : List α} (h : x ∈ insertAscending a l) :
    x = a ∨ x ∈ l := by
  induction l with
  | nil => simpa [insertAscending] using h
  | cons b rest ih =>
    simp only [insertAscending] at h
    split at h
    · simpa using h
    · exact Or.inr h
    · rcases List.mem_cons.1 h with h | h
      · exact Or.inr (by simp [h])
      · rcases ih h with h | h
        · exact Or.inl h
        · exact Or.inr (by simp [h])

theorem mem_insertAscending [Std.LawfulEqOrd α] {a x : α} {l : List α} :
    x ∈ insertAscending a l ↔ x = a ∨ x ∈ l := by
  refine ⟨mem_insertAscending_imp, fun h => ?_⟩
  induction l with
  | nil => simpa [insertAscending] using h
  | cons b rest ih =>
    simp only [insertAscending]
    split
    · simpa using h
    · rename_i hc
      rcases h with h | h
      · have := Std.LawfulEqCmp.eq_of_compare hc
        simp [h, this]
      · exact h
    · rcases h with h | h
      · exact List.mem_cons_of_mem _ (ih (Or.inl h))
      · rcases List.mem_cons.1 h with h | h
        · simp [h]
        · exact List.mem_cons_of_mem _ (ih (Or.inr h))

theorem pairwise_insertAscending [Std.TransOrd α] (a : α) {l : List α}
    (h : l.Pairwise (fun a b => compare a b = .lt)) :
    (insertAscending a l).Pairwise (fun a b => compare a b = .lt) := by
  induction l with
  | nil => simp [insertAscending]
  | cons b rest ih =>
    have ⟨hb, hrest⟩ := List.pairwise_cons.1 h
    simp only [insertAscending]
    split
    · rename_i hc
      refine List.pairwise_cons.2 ⟨fun x hx => ?_, h⟩
      rcases List.mem_cons.1 hx with hx | hx
      · exact hx ▸ hc
      · exact Std.TransCmp.lt_trans hc (hb x hx)
    · exact h
    · rename_i hc
      refine List.pairwise_cons.2 ⟨fun x hx => ?_, ih hrest⟩
      rcases mem_insertAscending_imp hx with hx | hx
      · rw [hx]
        exact Std.OrientedCmp.lt_of_gt hc
      · exact hb x hx

-- ---------------------------------------------------------------------------
-- Operations
-- ---------------------------------------------------------------------------

/-- The set without members. -/
def empty : SortedSet α := ⟨[], .nil⟩

instance : EmptyCollection (SortedSet α) := ⟨empty⟩

instance : Inhabited (SortedSet α) := ⟨empty⟩

/-- The number of members. -/
def size (s : SortedSet α) : Nat := s.toList.length

def isEmpty (s : SortedSet α) : Bool := s.toList.isEmpty

/-- The least member. -/
def min? (s : SortedSet α) : Option α := s.toList.head?

/-- The greatest member. -/
def max? (s : SortedSet α) : Option α := s.toList.getLast?

/-- Keeps the members that satisfy `p`. -/
def filter (s : SortedSet α) (p : α → Bool) : SortedSet α :=
  ⟨s.toList.filter p, s.sorted.filter p⟩

/-- The members of `s` that are in `t`. -/
def inter [DecidableEq α] (s t : SortedSet α) : SortedSet α := s.filter (· ∈ t)

/-- The members of `s` that are not in `t`. -/
def sdiff [DecidableEq α] (s t : SortedSet α) : SortedSet α := s.filter (· ∉ t)

/-- Drops one member. -/
def erase [DecidableEq α] (s : SortedSet α) (a : α) : SortedSet α := s.filter (· ≠ a)

/-- Whether every member of `s` is in `t`. -/
def isSubset [DecidableEq α] (s t : SortedSet α) : Bool := s.toList.all (· ∈ t)

variable [Std.TransOrd α]

/-- Adds one member. -/
def insert (s : SortedSet α) (a : α) : SortedSet α :=
  ⟨insertAscending a s.toList, pairwise_insertAscending a s.sorted⟩

/-- Adds every element of a list, the last one first: an ascending list is then added in one pass. -/
def insertAll (s : SortedSet α) (l : List α) : SortedSet α := l.foldr (fun a s => s.insert a) s

/-- The set of the elements of a list. -/
def ofList (l : List α) : SortedSet α := (empty : SortedSet α).insertAll l

/-- The members of either set. -/
def union (s t : SortedSet α) : SortedSet α := s.insertAll t.toList

/-- The images of the members. -/
def image {β : Type} [Ord β] [Std.TransOrd β] (s : SortedSet α) (f : α → β) : SortedSet β :=
  ofList (s.toList.map f)

-- ---------------------------------------------------------------------------
-- Members
-- ---------------------------------------------------------------------------

omit [Std.TransOrd α] in
@[simp]
theorem not_mem_empty {a : α} : a ∉ (empty : SortedSet α) := by simp [mem_def, empty]

omit [Std.TransOrd α] in
@[simp]
theorem mem_filter {s : SortedSet α} {p : α → Bool} {a : α} :
    a ∈ s.filter p ↔ a ∈ s ∧ p a = true := by
  simp [mem_def, filter]

variable [Std.LawfulEqOrd α]

@[simp]
theorem mem_insert {s : SortedSet α} {a x : α} : x ∈ s.insert a ↔ x = a ∨ x ∈ s :=
  mem_insertAscending

@[simp]
theorem mem_insertAll {s : SortedSet α} {l : List α} {x : α} :
    x ∈ s.insertAll l ↔ x ∈ l ∨ x ∈ s := by
  induction l with
  | nil => simp [insertAll]
  | cons a rest ih =>
    have step : s.insertAll (a :: rest) = (s.insertAll rest).insert a := rfl
    rw [step, mem_insert, ih, List.mem_cons, or_assoc]

@[simp]
theorem mem_ofList {l : List α} {x : α} : x ∈ ofList l ↔ x ∈ l := by
  simp [ofList]

@[simp]
theorem mem_union {s t : SortedSet α} {x : α} : x ∈ s.union t ↔ x ∈ t ∨ x ∈ s :=
  mem_insertAll

end SortedSet

end CircuitEquiv
