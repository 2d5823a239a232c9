-- SUMMARY: Total orders on compound keys: pairs, and types that are ordered through a key.
/-!
# Orders on compound keys

Pairs are ordered by their first component, then by their second. A type whose order is that of an
injective key inherits every law of the key's order.
-/

namespace CircuitEquiv

/-! ## Pairs -/

/-- Pairs are ordered lexicographically. -/
instance pairOrd {α β : Type} [Ord α] [Ord β] : Ord (α × β) := lexOrd

instance pairTransOrd {α β : Type} [Ord α] [Ord β] [Std.TransOrd α] [Std.TransOrd β] :
    Std.TransOrd (α × β) :=
  inferInstanceAs (Std.TransCmp (compareLex (compareOn Prod.fst) (compareOn Prod.snd)))

instance pairLawfulEqOrd {α β : Type} [Ord α] [Ord β] [Std.LawfulEqOrd α] [Std.LawfulEqOrd β] :
    Std.LawfulEqOrd (α × β) where
  compare_self {a} := by
    have h : compareLex (compareOn Prod.fst) (compareOn Prod.snd) a a = .eq :=
      Std.ReflCmp.compare_self
    exact h
  eq_of_compare {a b} h := by
    have h' : compareLex (compareOn Prod.fst) (compareOn Prod.snd) a b = .eq := h
    simp only [compareLex_eq_eq, compareOn] at h'
    ext
    · exact Std.LawfulEqOrd.eq_of_compare h'.1
    · exact Std.LawfulEqOrd.eq_of_compare h'.2

/-! ## Keys -/

section Key

variable {α κ : Type} [Ord α] [Ord κ] (key : α → κ)

/-- An order read off a key is transitive when the key's order is. -/
theorem transOrd_of_key [Std.TransOrd κ] (h : ∀ a b : α, compare a b = compare (key a) (key b)) :
    Std.TransOrd α where
  eq_swap {a b} := by rw [h, h]; exact Std.OrientedCmp.eq_swap
  isLE_trans {a b c} hab hbc := by
    rw [h] at hab hbc ⊢
    exact Std.TransCmp.isLE_trans hab hbc

/-- An order read off an injective key tells different values apart. -/
theorem lawfulEqOrd_of_key [Std.LawfulEqOrd κ]
    (h : ∀ a b : α, compare a b = compare (key a) (key b))
    (inj : ∀ a b : α, key a = key b → a = b) : Std.LawfulEqOrd α where
  compare_self {a} := by rw [h]; exact Std.ReflCmp.compare_self
  eq_of_compare {a b} hab := by
    rw [h] at hab
    exact inj a b (Std.LawfulEqCmp.eq_of_compare hab)

end Key

/-! ## Sorting -/

/-- The elements of a list in ascending order, repetitions kept. -/
def ascending {α : Type} [Ord α] (l : List α) : List α :=
  l.mergeSort (fun a b => (compare a b).isLE)

/-- Two values in ascending order. -/
def ascendingPair {α : Type} [Ord α] (a b : α) : α × α :=
  if (compare a b).isLE then (a, b) else (b, a)

end CircuitEquiv
