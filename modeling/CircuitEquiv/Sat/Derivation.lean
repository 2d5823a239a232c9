-- SUMMARY: Consequences derived by resolution, with a set of marked codes for the literals.
import CircuitEquiv.Sat.Consequence

/-!
# Derivations

A consequence in the making is the set of its literals. Resolving it with another consequence takes
one literal out and puts the literals of the other in, besides the opposite of that one and those
that facts refute.
-/

namespace CircuitEquiv

open Literal (ofCode oppositeCode)

variable {clauses : List Clause}

-- ---------------------------------------------------------------------------
-- Marked codes
-- ---------------------------------------------------------------------------

/-- A set of codes: the listed ones, less those whose mark was taken off. -/
structure MarkedCodes where
  listed : List Nat
  marks : Array Bool

namespace MarkedCodes

/-- Whether a code is in the set. -/
def Mem (m : MarkedCodes) (x : Nat) : Prop := x ∈ m.listed ∧ m.marks.getD x true = true

/-- Whether a code has a mark. -/
def isMarked (m : MarkedCodes) (x : Nat) : Bool := m.marks.getD x false

/-- Marks are on listed codes only. -/
def Wellformed (m : MarkedCodes) : Prop := ∀ x, m.isMarked x = true → x ∈ m.listed

/-- The empty set, with room for so many codes. -/
def empty (size : Nat) : MarkedCodes := ⟨[], Array.replicate size false⟩

/-- The members of the set. -/
def toList (m : MarkedCodes) : List Nat := m.listed.filter fun x => m.marks.getD x true

/-- Adds a code that has no mark. -/
def push (m : MarkedCodes) (x : Nat) : MarkedCodes :=
  ⟨x :: m.listed, m.marks.setIfInBounds x true⟩

/-- Takes a code out. -/
def remove (m : MarkedCodes) (x : Nat) : MarkedCodes :=
  { m with marks := m.marks.setIfInBounds x false }

/-- Adds the codes that are not to be skipped, and counts on over the new ones that count. -/
@[specialize]
def addAll (skip counts : Nat → Bool) (m : MarkedCodes) (n : Nat) : List Nat → MarkedCodes × Nat
  | [] => (m, n)
  | x :: rest =>
    if skip x || m.isMarked x then addAll skip counts m n rest
    else addAll skip counts (m.push x) (if counts x then n + 1 else n) rest

theorem wellformed_empty (size : Nat) : (empty size).Wellformed := by
  intro x h
  rw [isMarked, empty, Array.getD_eq_getD_getElem?, Array.getElem?_replicate] at h
  split at h <;> simp at h

theorem mem_toList {m : MarkedCodes} {x : Nat} (h : m.Mem x) : x ∈ m.toList :=
  List.mem_filter.2 h

theorem mem_of_isMarked {m : MarkedCodes} (h : m.Wellformed) {x : Nat} (hx : m.isMarked x = true) :
    m.Mem x := by
  refine ⟨h x hx, ?_⟩
  rw [isMarked, Array.getD_eq_getD_getElem?] at hx
  rw [Array.getD_eq_getD_getElem?]
  cases hm : m.marks[x]? <;> simp_all

theorem getD_setIfInBounds (a : Array Bool) (x y : Nat) (b d : Bool) :
    (a.setIfInBounds x b).getD y d = if x = y ∧ x < a.size then b else a.getD y d := by
  rw [Array.getD_eq_getD_getElem?, Array.getD_eq_getD_getElem?, Array.getElem?_setIfInBounds]
  by_cases hxy : x = y
  · subst hxy
    by_cases hx : x < a.size <;> simp [hx]
  · simp [hxy]

theorem wellformed_push {m : MarkedCodes} (h : m.Wellformed) (x : Nat) : (m.push x).Wellformed := by
  intro y hy
  rw [isMarked, push, getD_setIfInBounds] at hy
  split at hy
  · rename_i hxy
    exact List.mem_cons.2 (Or.inl hxy.1.symm)
  · exact List.mem_cons.2 (Or.inr (h y hy))

theorem mem_push_self (m : MarkedCodes) (x : Nat) : (m.push x).Mem x := by
  refine ⟨List.mem_cons_self, ?_⟩
  show (m.marks.setIfInBounds x true).getD x true = true
  rw [getD_setIfInBounds]
  split
  · rfl
  · rename_i hb
    have hb : m.marks.size ≤ x := by simpa using hb
    rw [Array.getD_eq_getD_getElem?, Array.getElem?_eq_none hb]
    rfl

theorem mem_push {m : MarkedCodes} {x y : Nat} (h : m.Mem y) : (m.push x).Mem y := by
  refine ⟨List.mem_cons.2 (Or.inr h.1), ?_⟩
  show (m.marks.setIfInBounds x true).getD y true = true
  rw [getD_setIfInBounds]
  split
  · rfl
  · exact h.2

theorem wellformed_remove {m : MarkedCodes} (h : m.Wellformed) (x : Nat) :
    (m.remove x).Wellformed := by
  intro y hy
  unfold remove isMarked at hy
  rw [getD_setIfInBounds] at hy
  split at hy
  · simp at hy
  · exact h y hy

theorem mem_remove {m : MarkedCodes} {x y : Nat} (h : m.Mem y) (hne : y ≠ x) :
    (m.remove x).Mem y := by
  refine ⟨h.1, ?_⟩
  show (m.marks.setIfInBounds x false).getD y true = true
  rw [getD_setIfInBounds]
  split
  · rename_i hxy
    exact absurd hxy.1.symm hne
  · exact h.2

variable {skip counts : Nat → Bool}

theorem wellformed_addAll {m : MarkedCodes} (h : m.Wellformed) (n : Nat) (xs : List Nat) :
    (addAll skip counts m n xs).1.Wellformed := by
  induction xs generalizing m n with
  | nil => exact h
  | cons x rest ih =>
    rw [addAll]
    split
    · exact ih h n
    · exact ih (wellformed_push h x) _

theorem mem_addAll_of_mem {m : MarkedCodes} {y : Nat} (h : m.Mem y) (n : Nat) (xs : List Nat) :
    (addAll skip counts m n xs).1.Mem y := by
  induction xs generalizing m n with
  | nil => exact h
  | cons x rest ih =>
    rw [addAll]
    split
    · exact ih h n
    · exact ih (mem_push h) _

theorem mem_addAll {m : MarkedCodes} (h : m.Wellformed) (n : Nat) {xs : List Nat} {y : Nat}
    (hy : y ∈ xs) (hs : skip y = false) : (addAll skip counts m n xs).1.Mem y := by
  induction xs generalizing m n with
  | nil => simp at hy
  | cons x rest ih =>
    rw [addAll]
    rcases List.mem_cons.1 hy with rfl | hy
    · rw [hs, Bool.false_or]
      split
      · rename_i hm
        exact mem_addAll_of_mem (mem_of_isMarked h hm) n rest
      · exact mem_addAll_of_mem (mem_push_self m y) _ rest
    · split
      · exact ih h n hy
      · exact ih (wellformed_push h x) _ hy

end MarkedCodes

-- ---------------------------------------------------------------------------
-- Resolution
-- ---------------------------------------------------------------------------

/-- A consequence in the making: its literals are those of the set. -/
structure Derivation (clauses : List Clause) where
  marked : MarkedCodes
  wellformed : marked.Wellformed
  follows : ∀ v : Nat → Bool, Clause.allHold clauses v = true →
    ∃ x, marked.Mem x ∧ (ofCode x).holds v = true

namespace Derivation

/-- Starts with a consequence, without the literals that facts refute, and counts the literals that
count. -/
@[inline]
def start (facts : Facts clauses) (counts : Nat → Bool) (size : Nat) (c : Consequence clauses) :
    Derivation clauses × Nat :=
  let added := MarkedCodes.addAll facts.refutes counts (.empty size) 0 c.codes
  ({ marked := added.1
     wellformed := MarkedCodes.wellformed_addAll (MarkedCodes.wellformed_empty size) 0 _
     follows := fun v hv => by
      obtain ⟨x, hx, hxv⟩ := c.follows v hv
      cases h : facts.refutes x with
      | true =>
        rw [Facts.holds_eq_false_of_refutes h hv] at hxv
        simp at hxv
      | false => exact ⟨x, MarkedCodes.mem_addAll (MarkedCodes.wellformed_empty size) 0 hx h, hxv⟩ },
    added.2)

/-- Resolves with a consequence: `x` gives way to the literals of `c` besides its opposite and those
that facts refute. Counts on over the new literals that count. -/
@[inline]
def resolve (facts : Facts clauses) (counts : Nat → Bool) (d : Derivation clauses) (n x : Nat)
    (c : Consequence clauses) : Derivation clauses × Nat :=
  let skip (y : Nat) : Bool := y == oppositeCode x || facts.refutes y
  let added := MarkedCodes.addAll skip counts (d.marked.remove x) n c.codes
  ({ marked := added.1
     wellformed := MarkedCodes.wellformed_addAll (MarkedCodes.wellformed_remove d.wellformed x) n _
     follows := fun v hv => by
      have hw := MarkedCodes.wellformed_remove d.wellformed x
      obtain ⟨y, hy, hyv⟩ := d.follows v hv
      by_cases hyx : y = x
      · subst hyx
        obtain ⟨z, hz, hzv⟩ := c.follows v hv
        refine ⟨z, MarkedCodes.mem_addAll hw n hz ?_, hzv⟩
        have hne : z ≠ oppositeCode y := by
          rintro rfl
          rw [Literal.ofCode_oppositeCode, Literal.holds_negate, hyv] at hzv
          simp at hzv
        cases h : facts.refutes z with
        | true =>
          rw [Facts.holds_eq_false_of_refutes h hv] at hzv
          simp at hzv
        | false => simpa [skip, h] using hne
      · exact ⟨y, MarkedCodes.mem_addAll_of_mem (MarkedCodes.mem_remove hy hyx) n _, hyv⟩ },
    added.2)

/-- The consequence that was derived. -/
def toConsequence (d : Derivation clauses) : Consequence clauses where
  codes := d.marked.toList
  follows v hv := by
    obtain ⟨x, hx, hxv⟩ := d.follows v hv
    exact ⟨x, MarkedCodes.mem_toList hx, hxv⟩

end Derivation

end CircuitEquiv
