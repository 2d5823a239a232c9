-- SUMMARY: Computations that can fail: when a sequence of them succeeds, and what its steps preserve.
import Mathlib.Data.List.Basic

/-!
# Failure

A sequence of computations succeeds when each of them does. What every step preserves holds after
the last one.
-/

namespace CircuitEquiv

section Except

variable {α β ε : Type}

theorem bind_eq_ok_iff {x : Except ε α} {f : α → Except ε β} {b : β} :
    x >>= f = .ok b ↔ ∃ a, x = .ok a ∧ f a = .ok b := by
  cases x with
  | error e =>
    constructor
    · intro h
      cases h
    · rintro ⟨a, h, -⟩
      cases h
  | ok a =>
    constructor
    · exact fun h => ⟨a, rfl, h⟩
    · rintro ⟨a', h, hb⟩
      cases h
      exact hb

theorem ok_bind (a : α) (f : α → Except ε β) : Except.ok a >>= f = f a := rfl

theorem bind_unit_eq_ok_iff {x : Except ε Unit} {f : Unit → Except ε β} {b : β} :
    x >>= f = .ok b ↔ x = .ok () ∧ f () = .ok b :=
  bind_eq_ok_iff.trans ⟨fun ⟨_, h⟩ => h, fun h => ⟨(), h⟩⟩

theorem forM_eq_ok_iff {l : List α} {f : α → Except ε Unit} :
    l.forM f = .ok () ↔ ∀ a ∈ l, f a = .ok () := by
  induction l with
  | nil => exact ⟨fun _ => by simp, fun _ => rfl⟩
  | cons a rest ih =>
    show (f a >>= fun _ => rest.forM f) = .ok () ↔ _
    rw [bind_unit_eq_ok_iff, ih, List.forall_mem_cons]

/-- Where every computation succeeds, so do all of them together. -/
theorem mapM_eq_ok {l : List α} {f : α → Except ε β} {g : α → β} (h : ∀ a ∈ l, f a = .ok (g a)) :
    l.mapM f = .ok (l.map g) := by
  induction l with
  | nil => rfl
  | cons a rest ih =>
    rw [List.mapM_cons, h a List.mem_cons_self, ok_bind,
      ih fun a ha => h a (List.mem_cons_of_mem _ ha), ok_bind]
    rfl

theorem foldlM_invariant {step : β → α → Except ε β} {Q : β → Prop} {l : List α}
    (hstep : ∀ b a b', a ∈ l → Q b → step b a = .ok b' → Q b') {b b' : β} (hb : Q b)
    (h : l.foldlM step b = .ok b') : Q b' := by
  induction l generalizing b with
  | nil =>
    cases h
    exact hb
  | cons a rest ih =>
    rw [List.foldlM_cons, bind_eq_ok_iff] at h
    obtain ⟨mid, hmid, hrest⟩ := h
    exact ih (fun b a b' ha => hstep b a b' (List.mem_cons_of_mem _ ha))
      (hstep b a mid List.mem_cons_self hb hmid) hrest

/-- Where every step succeeds and preserves a property, so does the whole sequence. -/
theorem exists_foldlM {step : β → α → Except ε β} {Q : β → Prop} {l : List α}
    (hstep : ∀ b a, a ∈ l → Q b → ∃ b', step b a = .ok b' ∧ Q b') {b : β} (hb : Q b) :
    ∃ b', l.foldlM step b = .ok b' ∧ Q b' := by
  induction l generalizing b with
  | nil => exact ⟨b, rfl, hb⟩
  | cons a rest ih =>
    obtain ⟨mid, hmid, hQ⟩ := hstep b a List.mem_cons_self hb
    obtain ⟨b', hrest, hb'⟩ := ih (fun b a ha => hstep b a (List.mem_cons_of_mem _ ha)) hQ
    exact ⟨b', by rw [List.foldlM_cons, hmid, ok_bind, hrest], hb'⟩

theorem foldl_invariant {step : β → α → β} {Q : β → Prop} {l : List α}
    (hstep : ∀ b a, a ∈ l → Q b → Q (step b a)) {b : β} (hb : Q b) : Q (l.foldl step b) := by
  induction l generalizing b with
  | nil => exact hb
  | cons a rest ih =>
    exact ih (fun b a ha => hstep b a (List.mem_cons_of_mem _ ha)) (hstep b a List.mem_cons_self hb)

end Except

/-! ## Lists of options -/

section Options

variable {α β : Type} {g : α → Option β} {l : List α} {r : List β}

theorem exists_mem_of_mapM (h : l.mapM g = some r) {a : α} (ha : a ∈ l) : ∃ b ∈ r, g a = some b := by
  induction l generalizing r with
  | nil => cases ha
  | cons x rest ih =>
    simp only [List.mapM_cons, Option.bind_eq_bind, Option.bind_eq_some_iff] at h
    obtain ⟨y, hy, ys, hys, hr⟩ := h
    cases hr
    rcases List.mem_cons.1 ha with rfl | ha
    · exact ⟨y, List.mem_cons_self, hy⟩
    · obtain ⟨b, hb, hab⟩ := ih hys ha
      exact ⟨b, List.mem_cons_of_mem _ hb, hab⟩

theorem exists_of_mem_mapM (h : l.mapM g = some r) {b : β} (hb : b ∈ r) : ∃ a ∈ l, g a = some b := by
  induction l generalizing r with
  | nil =>
    cases h
    cases hb
  | cons x rest ih =>
    simp only [List.mapM_cons, Option.bind_eq_bind, Option.bind_eq_some_iff] at h
    obtain ⟨y, hy, ys, hys, hr⟩ := h
    cases hr
    rcases List.mem_cons.1 hb with rfl | hb
    · exact ⟨x, List.mem_cons_self, hy⟩
    · obtain ⟨a, ha, hab⟩ := ih hys hb
      exact ⟨a, List.mem_cons_of_mem _ ha, hab⟩

theorem exists_mapM (h : ∀ a ∈ l, ∃ b, g a = some b) : ∃ r, l.mapM g = some r := by
  induction l with
  | nil => exact ⟨[], rfl⟩
  | cons x rest ih =>
    obtain ⟨y, hy⟩ := h x List.mem_cons_self
    obtain ⟨ys, hys⟩ := ih fun a ha => h a (List.mem_cons_of_mem _ ha)
    exact ⟨y :: ys, by simp [List.mapM_cons, hy, hys]⟩

end Options

end CircuitEquiv
