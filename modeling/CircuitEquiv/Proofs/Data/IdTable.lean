-- SUMMARY: Ids as words: a table binds what a numbering binds, and calls on it and its children share its ids.
import CircuitEquiv.Proofs.Data.Numbering
import CircuitEquiv.Proofs.Data.Ordered
import Mathlib.Logic.Function.Basic

/-!
# Tables of ids

A table is a numbering with words as ids. Calls on a table and on children that are linked to it draw on
one counter. A run keeps, next to the state, whom every new id was issued to. All maps can be read off
this record: a value is bound to the id that was issued to it, in the map it was assigned in, and as long
as the ids have not passed the largest word an id leads back to that value.
-/

namespace CircuitEquiv.IdTable

/-! ## Words -/

theorem toNat_nextWord {offset : UInt64} {k : Nat} (h : offset.toNat + k < UInt64.size) :
    (offset + .ofNat k).toNat = offset.toNat + k := by
  rw [UInt64.toNat_add, UInt64.toNat_ofNat', Nat.add_mod_mod, Nat.mod_eq_of_lt h]

theorem nextWord_inj {offset : UInt64} {k l : Nat} (hk : k < UInt64.size) (hl : l < UInt64.size)
    (h : offset + .ofNat k = offset + .ofNat l) : k = l := by
  have hword := congrArg UInt64.toNat ((UInt64.add_right_inj offset).1 h)
  rwa [UInt64.toNat_ofNat', UInt64.toNat_ofNat', Nat.mod_eq_of_lt hk, Nat.mod_eq_of_lt hl] at hword

/-! ## Numberings -/

section Numberings

variable {α β : Type} [Ord α] [DecidableEq α] {t : IdTable α} {n : Numbering α}

/-- A table that binds what a numbering binds, to the words of its ids. -/
structure Represents (t : IdTable α) (n : Numbering α) : Prop where
  offset_eq : n.offset = t.offset.toNat
  values_eq : n.values = t.values
  get?_eq : ∀ v, t.get? v = (n.get? v).map UInt64.ofNat

theorem represents_startingAt (offset : UInt64) :
    Represents (startingAt offset : IdTable α) (.startingAt offset.toNat) where
  offset_eq := rfl
  values_eq := rfl
  get?_eq := fun v => by
    rw [Numbering.get?_startingAt]
    rfl

namespace Represents

theorem nextId_eq (h : Represents t n) : t.nextId = .ofNat n.nextId := by
  rw [nextId, Numbering.nextId, h.offset_eq, h.values_eq, UInt64.ofNat_add, UInt64.ofNat_toNat]

/-- A table and the numbering issue the same anonymous id. -/
theorem fresh (h : Represents t n) :
    t.fresh.1 = .ofNat n.fresh.1 ∧ Represents t.fresh.2 n.fresh.2 := by
  refine ⟨h.nextId_eq, h.offset_eq, congrArg (·.push none) h.values_eq, fun v => ?_⟩
  rw [Numbering.get?_fresh]
  exact h.get?_eq v

/-- A table and the numbering give a value the same id. -/
theorem assign [Std.TransOrd α] [Std.LawfulEqOrd α] (h : Represents t n) (v : α) :
    (t.assign v).1 = .ofNat (n.assign v).1 ∧ Represents (t.assign v).2 (n.assign v).2 := by
  cases hv : n.get? v with
  | some id =>
    have hget : t.get? v = some (.ofNat id) := by rw [h.get?_eq, hv, Option.map_some]
    rw [IdTable.assign, hget, Numbering.assign, hv]
    exact ⟨rfl, h⟩
  | none =>
    have hget : t.get? v = none := by rw [h.get?_eq, hv, Option.map_none]
    rw [IdTable.assign, hget, Numbering.assign, hv]
    refine ⟨h.nextId_eq, h.offset_eq, congrArg (·.push (some v)) h.values_eq, fun w => ?_⟩
    rw [Numbering.get?_push, IdTable.get?, SortedMap.get?_insert]
    by_cases hw : w = v
    · rw [if_pos hw, if_pos hw, hw, hv, h.nextId_eq]
      rfl
    · rw [if_neg hw, if_neg hw, Option.or_none]
      exact h.get?_eq w

/-- A table finds at a word what the numbering finds at its number. -/
theorem value?_eq (h : Represents t n) (id : UInt64) : t.value? id = n.value? id.toNat := by
  rw [value?, Numbering.value?, h.offset_eq, h.values_eq]
  by_cases hlt : id < t.offset
  · rw [if_pos hlt, if_pos (UInt64.lt_iff_toNat_lt.1 hlt)]
  · have hle : t.offset ≤ id := UInt64.not_lt.1 hlt
    rw [if_neg hlt, if_neg (mt UInt64.lt_iff_toNat_lt.2 hlt), UInt64.toNat_sub_of_le _ _ hle]

/-- Both list the same values in the same order. -/
theorem bindings_eq (h : Represents t n) :
    t.bindings = n.bindings.map fun (id, v) => (UInt64.ofNat id, v) := by
  rw [bindings, Numbering.bindings, List.map_filterMap, h.values_eq]
  refine List.filterMap_congr fun e _ => ?_
  obtain ⟨value, i⟩ := e
  cases value with
  | none => rfl
  | some v =>
    simp only [Option.map_some, h.offset_eq, UInt64.ofNat_add, UInt64.ofNat_toNat]

end Represents

variable [Ord β] [DecidableEq β] {linked : LinkedTable α β} {numbering : LinkedNumbering α β}

/-- A linked table that binds what a linked numbering binds, to the words of its ids; an id leads back to
its value until a word is used twice. -/
structure RepresentsLinked (linked : LinkedTable α β) (numbering : LinkedNumbering α β) : Prop where
  parent : Represents linked.parent numbering.parent
  lt_nextId : ∀ e ∈ numbering.own, e.1 < numbering.parent.nextId
  get?_eq : ∀ v, linked.get? v = (numbering.get? v).map UInt64.ofNat
  values_eq : numbering.parent.nextId ≤ UInt64.size → ∀ id,
    linked.own.values.get? id = (numbering.own.find? (·.1 = id.toNat)).map (·.2)

namespace RepresentsLinked

theorem link (h : Represents t n) : RepresentsLinked (t.link β) (n.link β) where
  parent := h
  lt_nextId := fun _ he => absurd he List.not_mem_nil
  get?_eq := fun _ => rfl
  values_eq := fun _ _ => rfl

theorem fresh (h : RepresentsLinked linked numbering) :
    linked.fresh.1 = .ofNat numbering.fresh.1 ∧
      RepresentsLinked linked.fresh.2 numbering.fresh.2 := by
  obtain ⟨hid, hparent⟩ := h.parent.fresh
  have hnext : numbering.fresh.2.parent.nextId = numbering.parent.nextId + 1 :=
    Numbering.nextId_fresh numbering.parent
  refine ⟨hid, hparent, fun e he => ?_, h.get?_eq, fun hsize => h.values_eq ?_⟩
  · rw [hnext]
    exact Nat.lt_succ_of_lt (h.lt_nextId e he)
  · rw [hnext] at hsize
    exact Nat.le_of_succ_le hsize

/-- The next id goes to a value without one in both. -/
theorem issue [Std.TransOrd β] [Std.LawfulEqOrd β] (h : RepresentsLinked linked numbering) {v : β}
    (hv : numbering.get? v = none) :
    RepresentsLinked
      ⟨linked.parent.fresh.2, linked.own.ids.insert v linked.parent.nextId,
        linked.own.values.insert linked.parent.nextId v⟩
      ⟨numbering.parent.fresh.2, numbering.own ++ [(numbering.parent.nextId, v)]⟩ where
  parent := h.parent.fresh.2
  lt_nextId e he := by
    rw [Numbering.nextId_fresh]
    rcases List.mem_append.1 he with he | he
    · exact Nat.lt_succ_of_lt (h.lt_nextId e he)
    · rw [List.mem_singleton.1 he]
      exact Nat.lt_succ_self _
  get?_eq w := by
    have hold : linked.own.ids.get? w =
      ((numbering.own.find? (·.2 = w)).map (·.1)).map UInt64.ofNat := h.get?_eq w
    rw [LinkedTable.get?, LinkedNumbering.get?, SortedMap.get?_insert, List.find?_append, hold]
    by_cases hw : w = v
    · have hfind : numbering.own.find? (·.2 = v) = none := Option.map_eq_none_iff.1 hv
      subst hw
      simp [hfind, h.parent.nextId_eq]
    · simp [hw, Ne.symm hw]
  values_eq hsize id := by
    have hlt : numbering.parent.nextId < UInt64.size := by
      rwa [Numbering.nextId_fresh] at hsize
    have heq : id = linked.parent.nextId ↔ numbering.parent.nextId = id.toNat := by
      rw [h.parent.nextId_eq, ← UInt64.toNat_inj, UInt64.toNat_ofNat', Nat.mod_eq_of_lt hlt, eq_comm]
    rw [SortedMap.get?_insert, List.find?_append, h.values_eq (Nat.le_of_lt hlt)]
    by_cases hnew : id = linked.parent.nextId
    · have hunused : numbering.own.find? (·.1 = id.toNat) = none := by
        refine List.find?_eq_none.2 fun e he hfound => ?_
        rw [decide_eq_true_eq, ← heq.1 hnew] at hfound
        exact Nat.ne_of_lt (h.lt_nextId e he) hfound
      have hlast : [(numbering.parent.nextId, v)].find? (·.1 = id.toNat) =
          some (numbering.parent.nextId, v) := List.find?_cons_of_pos (decide_eq_true (heq.1 hnew))
      rw [if_pos hnew, hunused, hlast]
      rfl
    · simp [hnew, mt heq.2 hnew]

theorem assign [Std.TransOrd β] [Std.LawfulEqOrd β] (h : RepresentsLinked linked numbering) (v : β) :
    (linked.assign v).1 = .ofNat (numbering.assign v).1 ∧
      RepresentsLinked (linked.assign v).2 (numbering.assign v).2 := by
  cases hv : numbering.get? v with
  | some id =>
    have hget : linked.get? v = some (.ofNat id) := by rw [h.get?_eq, hv, Option.map_some]
    rw [LinkedTable.assign, hget, LinkedNumbering.assign, hv]
    exact ⟨rfl, h⟩
  | none =>
    have hget : linked.get? v = none := by rw [h.get?_eq, hv, Option.map_none]
    rw [LinkedTable.assign, hget, LinkedNumbering.assign, hv]
    exact ⟨h.parent.nextId_eq, h.issue hv⟩

/-- As long as the ids stay within a word, both find the same values. -/
theorem lookup?_eq (h : RepresentsLinked linked numbering)
    (hsize : numbering.parent.nextId ≤ UInt64.size) (id : UInt64) :
    linked.lookup? id = numbering.lookup? id.toNat := by
  rw [LinkedTable.lookup?, LinkedNumbering.lookup?, h.values_eq hsize, h.parent.value?_eq]
  cases numbering.own.find? (·.1 = id.toNat) <;> rfl

end RepresentsLinked

end Numberings

/-! ## Calls -/

/-- A call on a table. -/
inductive TableCall (α : Type) where
  | assign (value : α)
  | get (value : α)
  | value (id : UInt64)
  | fresh
  | iter

variable {α ι : Type} {β : ι → Type}

/-- A call on a table or on one of its children, through which the table can be called as well. -/
inductive Call (α : Type) {ι : Type} (β : ι → Type) where
  | table (call : TableCall α)
  | assign (i : ι) (value : β i)
  | get (i : ι) (value : β i)
  | lookup (i : ι) (id : UInt64)
  | fresh (i : ι)
  | parent (i : ι) (call : TableCall α)

/-- Whom an id is issued to. -/
inductive Owner (α : Type) {ι : Type} (β : ι → Type) where
  | value (value : α)
  | child (i : ι) (value : β i)
  | nobody

/-- What the table binds an id of this owner to. -/
def Owner.value? : Owner α β → Option α
  | value v => some v
  | child _ _ | nobody => none

/-- Whom a call asks an id for. -/
def TableCall.owner? : TableCall α → Option (Owner α β)
  | assign v => some (.value v)
  | fresh => some .nobody
  | get _ | value _ | iter => none

/-- Whom a call asks an id for. -/
def Call.owner? : Call α β → Option (Owner α β)
  | table call | parent _ call => call.owner?
  | assign i v => some (.child i v)
  | fresh _ => some .nobody
  | get _ _ | lookup _ _ => none

section Runs

variable [Ord α] [∀ i, Ord (β i)]

/-- A table with children. A child that is linked later is one that was not called before. -/
structure Family (α : Type) {ι : Type} (β : ι → Type) [Ord α] [∀ i, Ord (β i)] where
  table : IdTable α
  children : ∀ i, OwnIds (β i)

namespace Family

/-- A child, with the table as its parent. -/
def child (s : Family α β) (i : ι) : LinkedTable α (β i) := ⟨s.table, s.children i⟩

/-- The family after a call on a child. -/
def setChild [DecidableEq ι] (s : Family α β) (i : ι) (t : LinkedTable α (β i)) : Family α β :=
  ⟨t.parent, Function.update s.children i t.own⟩

end Family

variable [Std.TransOrd α] [∀ i, Std.TransOrd (β i)] [DecidableEq ι]

/-- The id that a call answers with, if it asks for one, and the table afterwards. -/
def TableCall.run (t : IdTable α) : TableCall α → Option UInt64 × IdTable α
  | assign v => (some (t.assign v).1, (t.assign v).2)
  | fresh => (some t.fresh.1, t.fresh.2)
  | get _ | value _ | iter => (none, t)

/-- The id that a call answers with, if it asks for one, and the family afterwards. -/
def Call.run (s : Family α β) : Call α β → Option UInt64 × Family α β
  | table call | parent _ call => ((call.run s.table).1, { s with table := (call.run s.table).2 })
  | assign i v => (some ((s.child i).assign v).1, s.setChild i ((s.child i).assign v).2)
  | fresh i => (some (s.child i).fresh.1, s.setChild i (s.child i).fresh.2)
  | get _ _ | lookup _ _ => (none, s)

/-- A family with the ids that were issued so far, in order, and their owners. -/
structure Run (α : Type) {ι : Type} (β : ι → Type) [Ord α] [∀ i, Ord (β i)] where
  state : Family α β
  issued : List (Owner α β × UInt64)

namespace Run

/-- The ids that were issued, in order. -/
def ids (r : Run α β) : List UInt64 := r.issued.map (·.2)

/-- A table and children without ids. -/
def start (offset : UInt64) : Run α β where
  state := ⟨.startingAt offset, fun _ => ⟨.empty, .empty⟩⟩
  issued := []

/-- One more call. An id is new if the table has grown. -/
def step (r : Run α β) (call : Call α β) : Run α β where
  state := (call.run r.state).2
  issued :=
    if (call.run r.state).2.table.size = r.state.table.size then r.issued
    else r.issued ++ (call.owner?.bind fun o => (call.run r.state).1.map (o, ·)).toList

end Run

/-- Calls on a table that begins at `offset`, and on its children. -/
def afterCalls (offset : UInt64) (calls : List (Call α β)) : Run α β :=
  calls.foldl Run.step (.start offset)

end Runs

/-! ## Accounts -/

variable [Ord α] [∀ i, Ord (β i)] {offset id : UInt64} {s : Family α β} {r : Run α β}
  {o o' : Owner α β} {owners owners' : Owner α β → Prop}

/-- The id that an owner has in its map. -/
def Family.id? (s : Family α β) : Owner α β → Option UInt64
  | .value v => s.table.get? v
  | .child i v => (s.child i).get? v
  | .nobody => none

/-- All that the family holds can be read off the record, and `owners` were issued ids. -/
structure Accounts (offset : UInt64) (owners : Owner α β → Prop) (r : Run α β) : Prop where
  offset_eq : r.state.table.offset = offset
  /-- Every id has a place in the table, which holds what the table binds it to. -/
  values_eq : r.state.table.values.toList = r.issued.map (·.1.value?)
  ids_eq : r.ids = (List.range r.issued.length).map (offset + .ofNat ·)
  exists_mem_iff : ∀ o, (∃ id, (o, id) ∈ r.issued) ↔ owners o
  id?_iff : ∀ o, o ≠ .nobody → ∀ id, r.state.id? o = some id ↔ (o, id) ∈ r.issued
  /-- A child finds its values by their ids, until an id is used twice. -/
  values_iff : r.issued.length ≤ UInt64.size → ∀ i id v,
    (r.state.children i).values.get? id = some v ↔ (.child i v, id) ∈ r.issued

namespace Accounts

theorem congr (h : Accounts offset owners r) (heq : ∀ o, owners o ↔ owners' o) :
    Accounts offset owners' r :=
  { h with exists_mem_iff := fun o => (h.exists_mem_iff o).trans (heq o) }

theorem size_eq (h : Accounts offset owners r) : r.state.table.size = r.issued.length := by
  rw [size, ← Array.length_toList, h.values_eq, List.length_map]

theorem nextId_eq (h : Accounts offset owners r) :
    r.state.table.nextId = offset + .ofNat r.issued.length := by
  rw [nextId, ← h.size_eq, h.offset_eq, size]

theorem getElem?_ids (h : Accounts offset owners r) {k : Nat} (hk : r.issued[k]? = some (o, id)) :
    id = offset + .ofNat k := by
  have hid : r.ids[k]? = some id := by
    rw [Run.ids, List.getElem?_map, hk]
    rfl
  rw [h.ids_eq, List.getElem?_map, List.getElem?_range (List.getElem?_eq_some_iff.1 hk).1] at hid
  exact (Option.some.inj hid).symm

theorem getElem?_values (h : Accounts offset owners r) (k : Nat) :
    r.state.table.values[k]? = r.issued[k]?.map (·.1.value?) := by
  rw [← Array.getElem?_toList, h.values_eq, List.getElem?_map]

/-- As long as they stay within a word, the ids count up from the offset. -/
theorem toNat_ids (h : Accounts offset owners r)
    (hfits : offset.toNat + r.issued.length ≤ UInt64.size) :
    r.ids.map UInt64.toNat = List.range' offset.toNat r.issued.length := by
  rw [h.ids_eq, List.map_map, List.range'_eq_map_range]
  refine List.map_congr_left fun k hk => toNat_nextWord ?_
  have hlt := List.mem_range.1 hk
  omega

theorem nodup_ids (h : Accounts offset owners r) (hlength : r.issued.length ≤ UInt64.size) :
    r.ids.Nodup := by
  rw [h.ids_eq]
  refine List.Nodup.map_on (fun k hk l hl heq => ?_) List.nodup_range
  rw [List.mem_range] at hk hl
  exact nextWord_inj (by omega) (by omega) heq

/-- The next id was not issued before. -/
theorem nextId_not_mem (h : Accounts offset owners r) (hlength : r.issued.length < UInt64.size) :
    r.state.table.nextId ∉ r.ids := by
  rw [h.ids_eq, h.nextId_eq]
  intro hmem
  obtain ⟨k, hk, heq⟩ := List.mem_map.1 hmem
  rw [List.mem_range] at hk
  exact absurd (nextWord_inj (by omega) hlength heq) (Nat.ne_of_lt hk)

/-- An id has one owner. -/
theorem owner_unique (h : Accounts offset owners r) (hlength : r.issued.length ≤ UInt64.size)
    (ho : (o, id) ∈ r.issued) (ho' : (o', id) ∈ r.issued) : o = o' :=
  congrArg Prod.fst (List.inj_on_of_nodup_map (h.nodup_ids hlength) ho ho' rfl)

/-- Just the owners so far get an old id when they ask for one. -/
theorem getD_id?_mem_iff (h : Accounts offset owners r) (hlength : r.issued.length < UInt64.size)
    (ho : o ≠ .nobody) : (r.state.id? o).getD r.state.table.nextId ∈ r.ids ↔ owners o := by
  rw [← h.exists_mem_iff]
  cases hid : r.state.id? o with
  | some id =>
    have hmem := (h.id?_iff o ho id).1 hid
    exact iff_of_true (List.mem_map_of_mem hmem) ⟨id, hmem⟩
  | none =>
    refine iff_of_false (h.nextId_not_mem hlength) fun ⟨id, hmem⟩ => ?_
    rw [(h.id?_iff o ho id).2 hmem] at hid
    cases hid

/-! ### Looking up ids -/

/-- The table finds the value that an id was issued to, unless the id is below the offset. -/
theorem value?_eq_some_iff (h : Accounts offset owners r) (hlength : r.issued.length ≤ UInt64.size) {v : α} :
    r.state.table.value? id = some v ↔ offset ≤ id ∧ (.value v, id) ∈ r.issued := by
  rw [value?, h.offset_eq, List.mem_iff_getElem?]
  by_cases hlt : id < offset
  · rw [if_pos hlt]
    exact iff_of_false nofun fun hle => UInt64.not_le.2 hlt hle.1
  -- from the offset on the distance to it is the place in the record, since no word is issued twice
  rw [if_neg hlt, and_iff_right (UInt64.not_lt.1 hlt), h.getElem?_values, Option.join_eq_some_iff,
    Option.map_eq_some_iff]
  constructor
  · rintro ⟨⟨o, id'⟩, hk, ho⟩
    have hid : id' = id := by
      rw [h.getElem?_ids hk, UInt64.ofNat_toNat, UInt64.add_comm, UInt64.sub_add_cancel]
    obtain rfl : o = .value v := by
      cases o with
      | value w => exact congrArg _ (Option.some.inj ho)
      | child | nobody => cases ho
    exact ⟨_, hid ▸ hk⟩
  · rintro ⟨k, hk⟩
    have hlt : k < r.issued.length := (List.getElem?_eq_some_iff.1 hk).1
    have hplace : (id - offset).toNat = k := by
      rw [h.getElem?_ids hk, UInt64.add_comm, UInt64.add_sub_cancel, UInt64.toNat_ofNat',
        Nat.mod_eq_of_lt (Nat.lt_of_lt_of_le hlt hlength)]
    exact ⟨_, hplace ▸ hk, rfl⟩

theorem bindings_eq (h : Accounts offset owners r) :
    r.state.table.bindings = r.issued.filterMap fun (o, id) => o.value?.map (id, ·) := by
  rw [bindings, h.offset_eq, h.values_eq, List.zipIdx_map, List.filterMap_map]
  conv_rhs => rw [← List.zipIdx_map_fst 0 r.issued, List.filterMap_map]
  refine List.filterMap_congr fun x hx => ?_
  obtain ⟨⟨o, id⟩, k⟩ := x
  exact (congrArg (fun word => o.value?.map (word, ·))
    (h.getElem?_ids (List.mem_zipIdx_iff_getElem?.1 hx))).symm

section Children

variable {i : ι} {v : α} {w : β i}

theorem lookup?_own_iff (h : Accounts offset owners r) (hlength : r.issued.length ≤ UInt64.size) :
    (r.state.child i).lookup? id = some (.own w) ↔ (.child i w, id) ∈ r.issued := by
  rw [← h.values_iff hlength, LinkedTable.lookup?, Family.child]
  cases (r.state.children i).values.get? id <;> simp

theorem lookup?_parent_iff (h : Accounts offset owners r) (hlength : r.issued.length ≤ UInt64.size) :
    (r.state.child i).lookup? id = some (.parent v) ↔ offset ≤ id ∧ (.value v, id) ∈ r.issued := by
  rw [← h.value?_eq_some_iff hlength, LinkedTable.lookup?, Family.child]
  cases hown : (r.state.children i).values.get? id with
  | none => simp
  | some u =>
    refine iff_of_false (by simp) fun hvalue => ?_
    have howner := h.owner_unique hlength ((h.values_iff hlength i id u).1 hown)
      ((h.value?_eq_some_iff hlength).1 hvalue).2
    cases howner

/-- Ids without a value and ids of other children are hidden from a child. -/
theorem lookup?_eq_none (h : Accounts offset owners r) (hlength : r.issued.length ≤ UInt64.size)
    (ho : (o, id) ∈ r.issued) (hvalue : ∀ v, o ≠ .value v) (hchild : ∀ w, o ≠ .child i w) :
    (r.state.child i).lookup? id = none := by
  cases hlookup : (r.state.child i).lookup? id with
  | none => rfl
  | some found =>
    cases found with
    | own w =>
      have hmem := (h.lookup?_own_iff hlength).1 hlookup
      exact absurd (h.owner_unique hlength ho hmem) (hchild w)
    | parent v =>
      have hmem := ((h.lookup?_parent_iff hlength).1 hlookup).2
      exact absurd (h.owner_unique hlength ho hmem) (hvalue v)

end Children

end Accounts

/-! ## What a call can do -/

namespace Family

variable [DecidableEq ι]

theorem setChild_child (s : Family α β) (i : ι) : s.setChild i (s.child i) = s := by
  rw [setChild, child, Function.update_eq_self]

variable [Std.TransOrd α] [∀ i, Std.TransOrd (β i)]

/-- The family after the next id is issued to an owner. -/
def issue (s : Family α β) : Owner α β → Family α β
  | .value v => { s with table :=
      ⟨s.table.offset, s.table.ids.insert v s.table.nextId, s.table.values.push (some v)⟩ }
  | .child i v => ⟨s.table.fresh.2, Function.update s.children i
      ⟨(s.children i).ids.insert v s.table.nextId, (s.children i).values.insert s.table.nextId v⟩⟩
  | .nobody => { s with table := s.table.fresh.2 }

theorem offset_issue (s : Family α β) (o : Owner α β) : (s.issue o).table.offset = s.table.offset := by
  cases o <;> rfl

theorem values_issue (s : Family α β) (o : Owner α β) :
    (s.issue o).table.values = s.table.values.push o.value? := by
  cases o <;> rfl

/-- A child that gets an id finds itself by it, if it has not used the word before. -/
theorem values_children_issue_iff {i : ι} {v : β i}
    (h : (s.children i).values.get? s.table.nextId = none) :
    ((s.issue o).children i).values.get? id = some v ↔
      (s.children i).values.get? id = some v ∨ .child i v = o ∧ id = s.table.nextId := by
  cases o with
  | nobody | value =>
    rw [or_iff_left fun h => nomatch h.1]
    rfl
  | child j w =>
    simp only [issue]
    by_cases hj : i = j
    · subst hj
      rw [Function.update_self, SortedMap.get?_insert_eq_some_iff h, Owner.child.injEq, heq_eq_eq,
        and_iff_right rfl, and_comm]
    · rw [Function.update_of_ne hj, or_iff_left fun h => hj (Owner.child.inj h.1).1]

variable [Std.LawfulEqOrd α] [∀ i, Std.LawfulEqOrd (β i)]

/-- An owner without an id gets the next one; all others keep theirs. -/
theorem id?_issue_iff (h : s.id? o = none) (ho' : o' ≠ .nobody) :
    (s.issue o).id? o' = some id ↔ s.id? o' = some id ∨ o' = o ∧ id = s.table.nextId := by
  cases o with
  | nobody =>
    rw [or_iff_left fun h => ho' h.1]
    cases o' <;> rfl
  | value v =>
    cases o' with
    | nobody => exact absurd rfl ho'
    | child j w =>
      rw [or_iff_left fun h => nomatch h.1]
      rfl
    | value w =>
      rw [Owner.value.injEq]
      exact SortedMap.get?_insert_eq_some_iff h
  | child i v =>
    have hnone : (s.children i).ids.get? v = none := h
    cases o' with
    | nobody => exact absurd rfl ho'
    | value w =>
      rw [or_iff_left fun h => nomatch h.1]
      rfl
    | child j w =>
      simp only [id?, issue, child, LinkedTable.get?]
      by_cases hj : j = i
      · subst hj
        rw [Function.update_self, SortedMap.get?_insert_eq_some_iff hnone, Owner.child.injEq,
          heq_eq_eq, and_iff_right rfl]
      · rw [Function.update_of_ne hj, or_iff_left fun h => hj (Owner.child.inj h.1).1]

end Family

variable [DecidableEq ι] [Std.TransOrd α] [∀ i, Std.TransOrd (β i)]

/-- Either a call changes nothing, and whoever it asks an id for has one, or it issues the next id. -/
theorem Call.run_cases (s : Family α β) (call : Call α β) :
    ((call.run s).2 = s ∧ ∀ o, call.owner? = some o → ∃ id, s.id? o = some id) ∨
      ∃ o, call.owner? = some o ∧ s.id? o = none ∧ call.run s = (some s.table.nextId, s.issue o) := by
  -- calls on the table come directly and through a child
  have htable : ∀ c : TableCall α,
      (((Call.table c).run s).2 = s ∧ ∀ o, c.owner? = some o → ∃ id, s.id? o = some id) ∨
        ∃ o, c.owner? = some o ∧ s.id? o = none ∧
          (Call.table c).run s = (some s.table.nextId, s.issue o) := by
    intro c
    cases c with
    | assign v =>
      cases hv : s.table.get? v with
      | some id =>
        refine Or.inl ⟨?_, ?_⟩
        · simp only [Call.run, TableCall.run, IdTable.assign, hv]
        · rintro o ⟨⟩
          exact ⟨id, hv⟩
      | none =>
        refine Or.inr ⟨_, rfl, hv, ?_⟩
        simp only [Call.run, TableCall.run, IdTable.assign, hv, Family.issue]
    | fresh => exact Or.inr ⟨_, rfl, rfl, rfl⟩
    | get | value | iter => exact Or.inl ⟨rfl, fun o ho => nomatch ho⟩
  cases call with
  | table c | parent _ c => exact htable c
  | assign i v =>
    cases hv : (s.child i).get? v with
    | some id =>
      refine Or.inl ⟨?_, ?_⟩
      · simp only [Call.run, LinkedTable.assign, hv, Family.setChild_child]
      · rintro o ⟨⟩
        exact ⟨id, hv⟩
    | none =>
      refine Or.inr ⟨_, rfl, hv, ?_⟩
      simp only [Call.run, LinkedTable.assign, hv]
      rfl
  | fresh i =>
    refine Or.inr ⟨_, rfl, rfl, ?_⟩
    refine Prod.ext rfl ?_
    simp only [Call.run, LinkedTable.fresh, Family.setChild, Family.child, Family.issue,
      Function.update_eq_self]
  | get | lookup => exact Or.inl ⟨rfl, fun o ho => nomatch ho⟩

/-- Either a call leaves a run as it is, and whoever it asks an id for has one, or one more id is issued. -/
theorem Run.step_cases (r : Run α β) (call : Call α β) :
    (r.step call = r ∧ ∀ o, call.owner? = some o → ∃ id, r.state.id? o = some id) ∨
      ∃ o, call.owner? = some o ∧ r.state.id? o = none ∧
        r.step call = ⟨r.state.issue o, r.issued ++ [(o, r.state.table.nextId)]⟩ := by
  rcases call.run_cases r.state with ⟨hstate, hid⟩ | ⟨o, ho, hnone, hrun⟩
  · exact Or.inl ⟨by rw [Run.step, hstate, if_pos rfl], hid⟩
  · refine Or.inr ⟨o, ho, hnone, ?_⟩
    simp [Run.step, hrun, ho, size, Family.values_issue]

/-! ## Runs -/

section Steps

variable [Std.LawfulEqOrd α] [∀ i, Std.LawfulEqOrd (β i)]

/-- The next id goes to an owner without one. -/
theorem Accounts.issue (h : Accounts offset owners r) (hnone : r.state.id? o = none) :
    Accounts offset (fun x => owners x ∨ o = x)
      ⟨r.state.issue o, r.issued ++ [(o, r.state.table.nextId)]⟩ where
  offset_eq := (r.state.offset_issue o).trans h.offset_eq
  values_eq := by
    rw [Family.values_issue, Array.toList_push, h.values_eq, List.map_append, List.map_singleton]
  ids_eq := by
    rw [Run.ids, List.map_append, List.length_append, List.length_singleton, List.range_succ,
      List.map_append, ← h.ids_eq, ← Run.ids, List.map_singleton, List.map_singleton, h.nextId_eq]
  exists_mem_iff x := by
    simp only [List.mem_append, List.mem_singleton, Prod.mk.injEq, exists_or, h.exists_mem_iff,
      exists_and_left, exists_eq, and_true, eq_comm]
  id?_iff x hx id := by
    rw [Family.id?_issue_iff hnone hx, h.id?_iff x hx, List.mem_append, List.mem_singleton,
      Prod.mk.injEq]
  values_iff hlength i id v := by
    rw [List.length_append, List.length_singleton] at hlength
    -- a word that a child looks up was issued, and the next one was not
    have hunused : (r.state.children i).values.get? r.state.table.nextId = none := by
      refine Option.eq_none_iff_forall_ne_some.2 fun w hw => ?_
      have hmem := (h.values_iff (by omega) i _ w).1 hw
      exact h.nextId_not_mem (by omega) (List.mem_map_of_mem hmem)
    rw [Family.values_children_issue_iff hunused, h.values_iff (by omega), List.mem_append,
      List.mem_singleton, Prod.mk.injEq]

/-- Every call keeps the accounts. -/
theorem Accounts.step (h : Accounts offset owners r) (call : Call α β) :
    Accounts offset (fun o => owners o ∨ call.owner? = some o) (r.step call) := by
  rcases r.step_cases call with ⟨hstep, hid⟩ | ⟨o, ho, hnone, hstep⟩
  · rw [hstep]
    refine h.congr fun o => ⟨Or.inl, fun howner => howner.elim id fun ho => ?_⟩
    obtain ⟨id, hsome⟩ := hid o ho
    have hne : o ≠ .nobody := by
      rintro rfl
      cases hsome
    exact (h.exists_mem_iff o).1 ⟨id, (h.id?_iff o hne id).1 hsome⟩
  · rw [hstep, ho]
    exact (h.issue hnone).congr fun x => by rw [Option.some_inj]

end Steps

/-! ## Answers -/

/-- A family that answers by the record of the ids issued so far, in which just the `owners` occur. -/
structure Answers (offset : UInt64) (owners : Owner α β → Prop) (r : Run α β) : Prop where
  ids_eq : r.ids = (List.range r.issued.length).map (offset + .ofNat ·)
  toNat_ids : offset.toNat + r.issued.length ≤ UInt64.size →
    r.ids.map UInt64.toNat = List.range' offset.toNat r.issued.length
  /-- The ids are below the offset after the largest word only. -/
  le_of_mem : offset.toNat + r.issued.length ≤ UInt64.size → ∀ id ∈ r.ids, offset ≤ id
  nodup_ids : r.issued.length ≤ UInt64.size → r.ids.Nodup
  exists_mem_iff : ∀ o, (∃ id, (o, id) ∈ r.issued) ↔ owners o
  get?_iff : ∀ v id, r.state.table.get? v = some id ↔ (.value v, id) ∈ r.issued
  child_get?_iff : ∀ i w id, (r.state.child i).get? w = some id ↔ (.child i w, id) ∈ r.issued
  /-- A value that was assigned before keeps its id, and nothing changes. -/
  assign_eq : ∀ v id, (.value v, id) ∈ r.issued → r.state.table.assign v = (id, r.state.table)
  child_assign_eq : ∀ i w id, (.child i w, id) ∈ r.issued →
    (r.state.child i).assign w = (id, r.state.child i)
  /-- No other value gets an old id. -/
  assign_mem_iff : r.issued.length < UInt64.size → ∀ v,
    (r.state.table.assign v).1 ∈ r.ids ↔ owners (.value v)
  child_assign_mem_iff : r.issued.length < UInt64.size → ∀ i w,
    ((r.state.child i).assign w).1 ∈ r.ids ↔ owners (.child i w)
  value?_iff : r.issued.length ≤ UInt64.size → ∀ id v,
    r.state.table.value? id = some v ↔ offset ≤ id ∧ r.state.table.get? v = some id
  bindings_eq : r.state.table.bindings = r.issued.filterMap fun (o, id) => o.value?.map (id, ·)
  lookup?_own_iff : r.issued.length ≤ UInt64.size → ∀ i id w,
    (r.state.child i).lookup? id = some (.own w) ↔ (.child i w, id) ∈ r.issued
  lookup?_parent_iff : r.issued.length ≤ UInt64.size → ∀ i id v,
    (r.state.child i).lookup? id = some (.parent v) ↔ offset ≤ id ∧ (.value v, id) ∈ r.issued
  /-- A child does not see the ids without a value. -/
  lookup?_nobody : r.issued.length ≤ UInt64.size → ∀ i id,
    (.nobody, id) ∈ r.issued → (r.state.child i).lookup? id = none
  /-- A child does not see the ids of the others. -/
  lookup?_child : r.issued.length ≤ UInt64.size → ∀ i j w id,
    (.child j w, id) ∈ r.issued → j ≠ i → (r.state.child i).lookup? id = none

theorem fst_assign (t : IdTable α) (v : α) : (t.assign v).1 = (t.get? v).getD t.nextId := by
  rw [assign]
  cases t.get? v <;> rfl

omit [DecidableEq ι] in
theorem Accounts.answers (h : Accounts offset owners r) : Answers offset owners r where
  ids_eq := h.ids_eq
  toNat_ids := h.toNat_ids
  le_of_mem hfits id hid := by
    have hmem : id.toNat ∈ r.ids.map UInt64.toNat := List.mem_map_of_mem hid
    rw [h.toNat_ids hfits, List.mem_range'_1] at hmem
    exact UInt64.le_iff_toNat_le.2 hmem.1
  nodup_ids := h.nodup_ids
  exists_mem_iff := h.exists_mem_iff
  get?_iff v := h.id?_iff (.value v) nofun
  child_get?_iff i w := h.id?_iff (.child i w) nofun
  assign_eq v id hmem := by
    have hget : r.state.table.get? v = some id := (h.id?_iff (.value v) nofun id).2 hmem
    rw [assign, hget]
  child_assign_eq i w id hmem := by
    have hget : (r.state.child i).get? w = some id := (h.id?_iff (.child i w) nofun id).2 hmem
    rw [LinkedTable.assign, hget]
  assign_mem_iff hlength v := by
    rw [fst_assign]
    exact h.getD_id?_mem_iff hlength (o := .value v) nofun
  child_assign_mem_iff hlength i w := by
    have hfst : ((r.state.child i).assign w).1 =
        ((r.state.child i).get? w).getD r.state.table.nextId := by
      rw [LinkedTable.assign]
      cases (r.state.child i).get? w <;> rfl
    rw [hfst]
    exact h.getD_id?_mem_iff hlength (o := .child i w) nofun
  value?_iff hlength id v := by
    have hget : r.state.table.get? v = some id ↔ _ := h.id?_iff (.value v) nofun id
    rw [h.value?_eq_some_iff hlength, hget]
  bindings_eq := h.bindings_eq
  lookup?_own_iff hlength _ _ _ := h.lookup?_own_iff hlength
  lookup?_parent_iff hlength _ _ _ := h.lookup?_parent_iff hlength
  lookup?_nobody hlength _ _ hmem := h.lookup?_eq_none hlength hmem nofun nofun
  lookup?_child hlength i j w id hmem hne :=
    h.lookup?_eq_none hlength hmem nofun fun w' heq => hne (Owner.child.inj heq).1

variable [Std.LawfulEqOrd α] [∀ i, Std.LawfulEqOrd (β i)]

namespace Sample

/-- Two values of a table, one of either child, and an id without a value; two values come again. -/
def calls : List (Call Nat fun _ : Bool => Nat) :=
  [.table (.assign 10), .assign false 1, .assign true 1, .parent true (.assign 11), .fresh false,
    .assign false 1, .table (.assign 10)]

end Sample

end CircuitEquiv.IdTable
