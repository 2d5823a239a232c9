-- SUMMARY: Finite maps kept as entry lists in ascending key order, so that equal maps are equal values.
import CircuitEquiv.Data.SortedSet

/-!
# Sorted maps

A finite map is the list of its entries in strictly ascending key order. Two maps that agree on
every key are the same value, and every traversal is in key order.
-/

namespace CircuitEquiv

/-- A finite map, stored as its entries in strictly ascending key order. -/
structure SortedMap (κ : Type) (β : Type) [Ord κ] where
  entries : List (κ × β)
  sorted : entries.Pairwise (fun x y => compare x.1 y.1 = .lt)

namespace SortedMap

variable {κ β γ : Type} [Ord κ]

instance [DecidableEq κ] [DecidableEq β] : DecidableEq (SortedMap κ β) := fun m n =>
  decidable_of_iff (m.entries = n.entries)
    ⟨fun h => by cases m; cases n; cases h; rfl, fun h => h ▸ rfl⟩

/-- Maps are ordered by their entry lists: entry by entry, key before value. -/
instance [Ord β] : Ord (SortedMap κ β) := ⟨fun m n => compare m.entries n.entries⟩

instance [Ord β] [Std.TransOrd κ] [Std.TransOrd β] : Std.TransOrd (SortedMap κ β) :=
  transOrd_of_key SortedMap.entries fun _ _ => rfl

instance [Ord β] [Std.LawfulEqOrd κ] [Std.LawfulEqOrd β] : Std.LawfulEqOrd (SortedMap κ β) :=
  lawfulEqOrd_of_key SortedMap.entries (fun _ _ => rfl)
    fun m n h => by cases m; cases n; cases h; rfl

-- ---------------------------------------------------------------------------
-- Entry lists
-- ---------------------------------------------------------------------------

/-- The value stored under `k` in an entry list. -/
def lookupEntry (k : κ) : List (κ × β) → Option β
  | [] => none
  | (k', v) :: rest =>
    match compare k k' with
    | .eq => some v
    | _ => lookupEntry k rest

/-- Replaces the value under `k` by `f` of the old value, adding the key in its place. -/
def upsertEntry (k : κ) (f : Option β → β) : List (κ × β) → List (κ × β)
  | [] => [(k, f none)]
  | (k', v) :: rest =>
    match compare k k' with
    | .lt => (k, f none) :: (k', v) :: rest
    | .eq => (k', f (some v)) :: rest
    | .gt => (k', v) :: upsertEntry k f rest

theorem key_mem_upsertEntry {k x : κ} {f : Option β → β} {l : List (κ × β)}
    (h : x ∈ (upsertEntry k f l).map (·.1)) : x = k ∨ x ∈ l.map (·.1) := by
  induction l with
  | nil => simpa [upsertEntry] using h
  | cons e rest ih =>
    obtain ⟨k', v⟩ := e
    simp only [upsertEntry] at h
    split at h
    · simpa using h
    · exact Or.inr (by simpa using h)
    · rw [List.map_cons, List.mem_cons] at h
      rcases h with h | h
      · exact Or.inr (by simp [h])
      · rcases ih h with h | h
        · exact Or.inl h
        · exact Or.inr (List.mem_cons_of_mem _ h)

theorem pairwise_upsertEntry [Std.TransOrd κ] (k : κ) (f : Option β → β) {l : List (κ × β)}
    (h : l.Pairwise (fun x y => compare x.1 y.1 = .lt)) :
    (upsertEntry k f l).Pairwise (fun x y => compare x.1 y.1 = .lt) := by
  induction l with
  | nil => simp [upsertEntry]
  | cons e rest ih =>
    obtain ⟨k', v⟩ := e
    have ⟨hk, hrest⟩ := List.pairwise_cons.1 h
    simp only [upsertEntry]
    split
    · rename_i hc
      refine List.pairwise_cons.2 ⟨fun x hx => ?_, h⟩
      rcases List.mem_cons.1 hx with hx | hx
      · rw [hx]
        exact hc
      · exact Std.TransCmp.lt_trans hc (hk x hx)
    · exact List.pairwise_cons.2 ⟨hk, hrest⟩
    · rename_i hc
      refine List.pairwise_cons.2 ⟨fun x hx => ?_, ih hrest⟩
      rcases key_mem_upsertEntry (List.mem_map_of_mem hx) with hx' | hx'
      · rw [hx']
        exact Std.OrientedCmp.lt_of_gt hc
      · obtain ⟨y, hy, hxy⟩ := List.mem_map.1 hx'
        rw [← hxy]
        exact hk y hy

-- ---------------------------------------------------------------------------
-- Operations
-- ---------------------------------------------------------------------------

/-- The map without entries. -/
def empty : SortedMap κ β := ⟨[], .nil⟩

instance : EmptyCollection (SortedMap κ β) := ⟨empty⟩

instance : Inhabited (SortedMap κ β) := ⟨empty⟩

/-- The value under `k`. -/
def get? (m : SortedMap κ β) (k : κ) : Option β := lookupEntry k m.entries

/-- The value under `k`, or `default` without one. -/
def getD (m : SortedMap κ β) (k : κ) (default : β) : β := (m.get? k).getD default

def contains (m : SortedMap κ β) (k : κ) : Bool := (m.get? k).isSome

def isEmpty (m : SortedMap κ β) : Bool := m.entries.isEmpty

/-- The number of entries. -/
def size (m : SortedMap κ β) : Nat := m.entries.length

/-- The keys, ascending. -/
def keys (m : SortedMap κ β) : List κ := m.entries.map (·.1)

/-- The values, in key order. -/
def values (m : SortedMap κ β) : List β := m.entries.map (·.2)

/-- Keeps the entries that satisfy `p`. -/
def filter (m : SortedMap κ β) (p : κ → β → Bool) : SortedMap κ β :=
  ⟨m.entries.filter (fun e => p e.1 e.2), m.sorted.filter _⟩

/-- Drops the entry under `k`. -/
def erase (m : SortedMap κ β) (k : κ) : SortedMap κ β :=
  m.filter (fun k' _ => compare k k' != .eq)

/-- Replaces every value by its image. -/
def mapValues (m : SortedMap κ β) (f : κ → β → γ) : SortedMap κ γ :=
  ⟨m.entries.map (fun e => (e.1, f e.1 e.2)), by
    rw [List.pairwise_map]
    exact m.sorted⟩

variable [Std.TransOrd κ]

/-- Replaces the value under `k` by `f` of the old value, adding the key if it is missing. -/
def upsert (m : SortedMap κ β) (k : κ) (f : Option β → β) : SortedMap κ β :=
  ⟨upsertEntry k f m.entries, pairwise_upsertEntry k f m.sorted⟩

/-- Stores `v` under `k`, over any older value. -/
def insert (m : SortedMap κ β) (k : κ) (v : β) : SortedMap κ β := m.upsert k (fun _ => v)

/-- The map of a list of entries; of several entries of one key the last one counts. The last entry is
added first, so that an ascending list is added in one pass. -/
def ofList (l : List (κ × β)) : SortedMap κ β :=
  l.foldr (fun e m => m.upsert e.1 (fun later => later.getD e.2)) empty

/-- Collects the values of each key, in the order of the list. -/
def groupValues (l : List (κ × β)) : SortedMap κ (List β) :=
  l.foldr (fun e m => m.upsert e.1 (fun later => e.2 :: later.getD [])) empty

/-- The keys as a set. -/
def keySet (m : SortedMap κ β) : SortedSet κ := ⟨m.keys, by
  rw [keys, List.pairwise_map]
  exact m.sorted⟩

-- ---------------------------------------------------------------------------
-- Looking up
-- ---------------------------------------------------------------------------

omit [Std.TransOrd κ] in
@[simp]
theorem get?_empty (k : κ) : (empty : SortedMap κ β).get? k = none := rfl

omit [Std.TransOrd κ] in
theorem get?_mapValues [Std.LawfulEqOrd κ] (m : SortedMap κ β) (f : κ → β → γ) (k : κ) :
    (m.mapValues f).get? k = (m.get? k).map (f k) := by
  obtain ⟨l, hl⟩ := m
  simp only [get?, mapValues]
  clear hl
  induction l with
  | nil => rfl
  | cons e rest ih =>
    obtain ⟨k', v⟩ := e
    simp only [List.map_cons, lookupEntry]
    split
    · rename_i hc
      rw [Std.LawfulEqCmp.eq_of_compare hc]
      rfl
    · exact ih

theorem get?_upsert_self [Std.LawfulEqOrd κ] (m : SortedMap κ β) (k : κ) (f : Option β → β) :
    (m.upsert k f).get? k = some (f (m.get? k)) := by
  obtain ⟨l, hl⟩ := m
  simp only [get?, upsert]
  induction l with
  | nil => simp [upsertEntry, lookupEntry, Std.ReflCmp.compare_self]
  | cons e rest ih =>
    obtain ⟨k', v⟩ := e
    have ⟨hk, hrest⟩ := List.pairwise_cons.1 hl
    simp only [upsertEntry]
    split
    · rename_i hc
      have hnone : lookupEntry k ((k', v) :: rest) = none := by
        have : ∀ l : List (κ × β), (∀ e ∈ l, compare k e.1 = .lt) → lookupEntry k l = none := by
          intro l h
          induction l with
          | nil => rfl
          | cons e rest ih =>
            simp only [lookupEntry, h e (by simp)]
            exact ih fun e he => h e (by simp [he])
        apply this
        intro e he
        rcases List.mem_cons.1 he with he | he
        · rw [he]
          exact hc
        · exact Std.TransCmp.lt_trans hc (hk e he)
      rw [hnone]
      simp [lookupEntry, Std.ReflCmp.compare_self]
    · rename_i hc
      simp [lookupEntry, hc]
    · rename_i hc
      simpa [lookupEntry, hc] using ih hrest

theorem get?_upsert_of_ne [Std.LawfulEqOrd κ] (m : SortedMap κ β) {k x : κ} (f : Option β → β)
    (h : x ≠ k) : (m.upsert k f).get? x = m.get? x := by
  obtain ⟨l, hl⟩ := m
  have hne : compare x k ≠ .eq := fun hc => h (Std.LawfulEqCmp.eq_of_compare hc)
  have skip : ∀ (v : β) (rest : List (κ × β)),
      lookupEntry x ((k, v) :: rest) = lookupEntry x rest := by
    intro v rest
    rw [lookupEntry]
    cases hc : compare x k with
    | eq => exact absurd hc hne
    | lt => rfl
    | gt => rfl
  simp only [get?, upsert]
  clear hl
  induction l with
  | nil => exact skip (f none) []
  | cons e rest ih =>
    obtain ⟨k', v⟩ := e
    simp only [upsertEntry]
    split
    · exact skip _ _
    · rename_i hc
      rw [← Std.LawfulEqCmp.eq_of_compare hc, skip, skip]
    · simp only [lookupEntry]
      split
      · rfl
      · exact ih

end SortedMap

end CircuitEquiv
