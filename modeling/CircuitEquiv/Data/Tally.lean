-- SUMMARY: A table that says how often each element occurs in a list.
import Std.Data.HashMap

/-!
# Tallies

A tally is filled in one pass over a list and then answers how often an element occurs in it.
-/

namespace CircuitEquiv

variable {α : Type} [BEq α] [Hashable α]

/-- Counts one more occurrence of an element. -/
def addToTally (t : Std.HashMap α Nat) (a : α) : Std.HashMap α Nat := t.insert a (t.getD a 0 + 1)

/-- How often each element occurs in a list. -/
def tally (l : List α) : Std.HashMap α Nat := l.foldl addToTally ∅

variable [LawfulBEq α]

theorem getD_foldl_addToTally (l : List α) (t : Std.HashMap α Nat) (a : α) :
    (l.foldl addToTally t).getD a 0 = t.getD a 0 + l.count a := by
  induction l generalizing t with
  | nil => simp
  | cons b rest ih =>
    rw [List.foldl_cons, ih, addToTally, Std.HashMap.getD_insert, List.count_cons]
    by_cases h : b = a
    · subst h
      simp [Nat.add_assoc, Nat.add_comm 1]
    · simp [h]

@[simp]
theorem getD_tally (l : List α) (a : α) : (tally l).getD a 0 = l.count a := by
  simp [tally, getD_foldl_addToTally]

end CircuitEquiv
