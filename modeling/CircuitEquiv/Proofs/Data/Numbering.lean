-- SUMMARY: What a numbering binds, and that issuing ids only adds to it.
import CircuitEquiv.Data.Numbering
import Mathlib.Data.List.Nodup

/-!
# Numberings

Ids are issued in order and never given back, so every id that a value has is below the next one,
and a value keeps its id whatever is issued later.
-/

namespace CircuitEquiv.Numbering

variable {α : Type} [DecidableEq α] {n n' n'' : Numbering α} {a b : α} {id : Nat}

/-! ## Looking up -/

/-- Nothing that `n` binds is lost in `n'`. -/
structure IsExtendedBy (n n' : Numbering α) : Prop where
  nextId : n.nextId ≤ n'.nextId
  get? : ∀ a id, n.get? a = some id → n'.get? a = some id

theorem IsExtendedBy.refl (n : Numbering α) : n.IsExtendedBy n := ⟨Nat.le_refl _, fun _ _ h => h⟩

theorem IsExtendedBy.trans (h : n.IsExtendedBy n') (h' : n'.IsExtendedBy n'') :
    n.IsExtendedBy n'' :=
  ⟨Nat.le_trans h.nextId h'.nextId, fun a id ha => h'.get? a id (h.get? a id ha)⟩

theorem getElem?_of_get? (h : n.get? a = some id) :
    n.offset ≤ id ∧ n.values[id - n.offset]? = some (some a) := by
  obtain ⟨i, hi, rfl⟩ := Option.map_eq_some_iff.1 h
  obtain ⟨hlt, hvalue, -⟩ := Array.findIdx?_eq_some_iff_getElem.1 hi
  refine ⟨Nat.le_add_right _ _, ?_⟩
  rw [Nat.add_sub_cancel_left, Array.getElem?_eq_getElem hlt, of_decide_eq_true hvalue]

theorem lt_nextId (h : n.get? a = some id) : id < n.nextId := by
  obtain ⟨hle, hvalue⟩ := getElem?_of_get? h
  have hlt := (Array.getElem?_eq_some_iff.1 hvalue).1
  unfold nextId
  omega

/-- An id belongs to one value only. -/
theorem eq_of_get? (ha : n.get? a = some id) (hb : n.get? b = some id) : a = b := by
  have hvalue := (getElem?_of_get? ha).2
  rw [(getElem?_of_get? hb).2] at hvalue
  exact (Option.some.inj (Option.some.inj hvalue)).symm

@[simp]
theorem get?_startingAt (offset : Nat) : (startingAt offset : Numbering α).get? a = none := by
  simp [startingAt, get?]

theorem get?_push_none (n : Numbering α) (a : α) :
    Numbering.get? ⟨n.offset, n.values.push none⟩ a = n.get? a := by
  unfold get?
  simp [Array.findIdx?_push]

theorem get?_push (n : Numbering α) (a b : α) :
    Numbering.get? ⟨n.offset, n.values.push (some b)⟩ a =
      (n.get? a).or (if a = b then some n.nextId else none) := by
  unfold get? nextId
  rw [Array.findIdx?_push]
  cases n.values.findIdx? (· = some a) with
  | some i => simp
  | none => by_cases h : a = b <;> simp [h, eq_comm]

/-! ## Issuing ids -/

@[simp]
theorem get?_fresh (n : Numbering α) (a : α) : n.fresh.2.get? a = n.get? a := get?_push_none n a

omit [DecidableEq α] in
@[simp]
theorem nextId_fresh (n : Numbering α) : n.fresh.2.nextId = n.nextId + 1 := by
  simp [fresh, nextId, Nat.add_assoc]

theorem get?_skipTo (n : Numbering α) (next : Nat) (a : α) : (n.skipTo next).get? a = n.get? a := by
  unfold skipTo get?
  cases h : n.values.findIdx? (· = some a) <;> simp [h]

omit [DecidableEq α] in
theorem nextId_skipTo (n : Numbering α) (next : Nat) :
    (n.skipTo next).nextId = max n.nextId next := by
  simp only [skipTo, nextId, Array.size_append, Array.size_replicate]
  omega

theorem isExtendedBy_fresh (n : Numbering α) : n.IsExtendedBy n.fresh.2 where
  nextId := by simp
  get? := fun a id h => by simpa using h

theorem isExtendedBy_skipTo (n : Numbering α) (next : Nat) : n.IsExtendedBy (n.skipTo next) where
  nextId := by
    rw [nextId_skipTo]
    exact Nat.le_max_left _ _
  get? := fun a id h => by rwa [get?_skipTo]

theorem get?_assign_of_ne (h : b ≠ a) : (n.assign a).2.get? b = n.get? b := by
  unfold assign
  cases n.get? a with
  | some id => rfl
  | none => simp [get?_push, h]

theorem get?_assign_self (n : Numbering α) (a : α) :
    (n.assign a).2.get? a = some (n.assign a).1 := by
  unfold assign
  cases h : n.get? a with
  | some id => exact h
  | none => simp [get?_push, h]

/-- A value keeps its id, or the id is the next one. -/
theorem assign_fst (n : Numbering α) (a : α) :
    n.get? a = some (n.assign a).1 ∨ n.get? a = none ∧ (n.assign a).1 = n.nextId := by
  unfold assign
  cases h : n.get? a with
  | some id => exact Or.inl rfl
  | none => exact Or.inr ⟨rfl, rfl⟩

theorem isExtendedBy_assign (n : Numbering α) (a : α) : n.IsExtendedBy (n.assign a).2 where
  nextId := by
    unfold assign
    cases n.get? a with
    | some id => exact Nat.le_refl _
    | none => simp [nextId]
  get? := fun b id h => by
    by_cases hba : b = a
    · subst hba
      unfold assign
      rw [h]
      exact h
    · rwa [get?_assign_of_ne hba]

/-! ## Bindings -/

/-- No value is bound to a second id. -/
def IsFunctional (n : Numbering α) : Prop := ∀ e ∈ n.bindings, n.get? e.2 = some e.1

omit [DecidableEq α] in
theorem bindings_push (n : Numbering α) (value : Option α) :
    Numbering.bindings ⟨n.offset, n.values.push value⟩ =
      n.bindings ++ (value.map fun a => (n.nextId, a)).toList := by
  unfold bindings nextId
  rw [Array.toList_push, List.zipIdx_append, List.filterMap_append]
  cases value <;> simp

theorem mem_bindings_of_get? (h : n.get? a = some id) : (id, a) ∈ n.bindings := by
  obtain ⟨hle, hvalue⟩ := getElem?_of_get? h
  refine List.mem_filterMap.2 ⟨(some a, id - n.offset), ?_, ?_⟩
  · rwa [List.mem_zipIdx_iff_getElem?, Array.getElem?_toList]
  · simp [Nat.add_sub_cancel' hle]

theorem IsFunctional.mem_bindings (h : n.IsFunctional) : (id, a) ∈ n.bindings ↔ n.get? a = some id :=
  ⟨fun hmem => h _ hmem, mem_bindings_of_get?⟩

omit [DecidableEq α] in
theorem nodup_ids (n : Numbering α) : (n.bindings.map (·.1)).Nodup := by
  have hindices : (n.values.toList.zipIdx.map (·.2)).Nodup := by
    rw [List.zipIdx_map_snd]
    exact List.nodup_range'
  have hids : (n.bindings.map (·.1)).Sublist
      ((n.values.toList.zipIdx.map (·.2)).map (n.offset + ·)) := by
    unfold bindings
    induction n.values.toList.zipIdx with
    | nil => exact .slnil
    | cons e rest ih =>
      obtain ⟨value, i⟩ := e
      cases value with
      | none => exact ih.cons _
      | some a => exact ih.cons_cons _
  exact (hindices.map fun _ _ => Nat.add_left_cancel).sublist hids

theorem IsFunctional.nodup_values (h : n.IsFunctional) : (n.bindings.map (·.2)).Nodup := by
  refine (List.nodup_map_iff_inj_on (List.Nodup.of_map _ n.nodup_ids)).2 fun e he e' he' heq => ?_
  have hid := h e he
  rw [heq, h e' he', Option.some_inj] at hid
  exact Prod.ext hid.symm heq

theorem isFunctional_startingAt (offset : Nat) : (startingAt offset : Numbering α).IsFunctional :=
  fun _ he => absurd he List.not_mem_nil

theorem IsFunctional.fresh (h : n.IsFunctional) : n.fresh.2.IsFunctional := by
  intro e he
  rw [get?_fresh]
  refine h e ?_
  simpa [Numbering.fresh, bindings_push] using he

theorem IsFunctional.assign (h : n.IsFunctional) (a : α) : (n.assign a).2.IsFunctional := by
  intro e he
  rcases assign_fst n a with ha | ⟨ha, hid⟩
  · have hsame : (n.assign a).2 = n := by
      unfold Numbering.assign
      rw [ha]
    rw [hsame] at he ⊢
    exact h e he
  · have hbindings : (n.assign a).2.bindings = n.bindings ++ [(n.nextId, a)] := by
      unfold Numbering.assign
      rw [ha]
      exact bindings_push n (some a)
    rw [hbindings, List.mem_append, List.mem_singleton] at he
    rcases he with he | rfl
    · exact (isExtendedBy_assign n a).get? _ _ (h e he)
    · rw [get?_assign_self, hid]

omit [DecidableEq α] in
theorem bindings_append_replicate (n : Numbering α) (k : Nat) :
    Numbering.bindings ⟨n.offset, n.values ++ Array.replicate k none⟩ = n.bindings := by
  induction k with
  | zero => simp
  | succ k ih =>
    rw [Array.replicate_succ, Array.append_push]
    exact (bindings_push ⟨n.offset, n.values ++ Array.replicate k none⟩ none).trans (by simpa using ih)

theorem IsFunctional.skipTo (h : n.IsFunctional) (next : Nat) : (n.skipTo next).IsFunctional := by
  intro e he
  rw [get?_skipTo]
  refine h e ?_
  rwa [Numbering.skipTo, bindings_append_replicate] at he

end CircuitEquiv.Numbering
