-- SUMMARY: The total of a list of numbers.
/-!
# Totals
-/

namespace CircuitEquiv

/-- The sum of the numbers of a list. -/
def total (numbers : List Nat) : Nat := numbers.foldr (· + ·) 0

@[simp] theorem total_nil : total [] = 0 := rfl

@[simp] theorem total_cons (n : Nat) (rest : List Nat) : total (n :: rest) = n + total rest := rfl

@[simp] theorem total_append (l m : List Nat) : total (l ++ m) = total l + total m := by
  induction l with
  | nil => simp
  | cons n rest ih => simp [ih, Nat.add_assoc]

end CircuitEquiv
