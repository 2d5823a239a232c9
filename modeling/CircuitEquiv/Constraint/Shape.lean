-- SUMMARY: The shape of a normalized constraint under a labelling of its signals, and the part one signal plays in it.
import CircuitEquiv.Label

/-!
# Labelled shapes

A shape is built from labels and coefficients alone, with every list ascending, so it does not
depend on the numbering of the signals or on the order of terms.
-/

namespace CircuitEquiv

/-- Terms seen through labels, ascending. -/
abbrev LabelledTerms := List (ClassLabel × Nat)

/-- The shape of a normalized constraint. -/
inductive NormShape where
  /-- A product of two factors with different coefficient multisets. -/
  | ordered (a b c : LabelledTerms)
  /-- A product of two factors with the same coefficient multiset. The signals in both factors
  carry their ascending coefficient pair, those in one factor are listed together. -/
  | unordered (both : List (ClassLabel × (Nat × Nat))) (single c : LabelledTerms)
  /-- A polynomial: the coefficients of the quadratic terms by label pair, of the linear terms by
  label, and the constant. -/
  | polynomial (mult : List ((ClassLabel × ClassLabel) × List Nat))
      (linear : List (ClassLabel × List Nat)) (constant : Nat)
deriving DecidableEq

namespace NormShape

/-- The key that shapes are ordered by: the kind, then the parts. -/
def key : NormShape →
    Nat × (LabelledTerms × LabelledTerms × LabelledTerms) ×
      (List (ClassLabel × (Nat × Nat)) × LabelledTerms × LabelledTerms) ×
      (List ((ClassLabel × ClassLabel) × List Nat) × List (ClassLabel × List Nat) × Nat)
  | .ordered a b c => (0, (a, b, c), ([], [], []), ([], [], 0))
  | .unordered both single c => (1, ([], [], []), (both, single, c), ([], [], 0))
  | .polynomial mult linear constant => (2, ([], [], []), ([], [], []), (mult, linear, constant))

theorem key_injective (x y : NormShape) (h : x.key = y.key) : x = y := by
  cases x <;> cases y <;> simp_all [key]

instance : Ord NormShape := ⟨fun x y => compare x.key y.key⟩

instance : Std.TransOrd NormShape := transOrd_of_key key fun _ _ => rfl

instance : Std.LawfulEqOrd NormShape := lawfulEqOrd_of_key key (fun _ _ => rfl) key_injective

end NormShape

/-- The part that one signal plays in a normalized constraint. -/
inductive Characteristic where
  /-- In a product. With distinguishable factors `ab` is the coefficient in the first factor beside
  zero and `side` the one in the second. With interchangeable factors `ab` is the ascending pair of
  a signal in both and `side` the coefficient of a signal in one. -/
  | product (ab : Nat × Nat) (side c : Nat)
  /-- In a polynomial: the labels of the partners in quadratic terms beside the coefficients, and
  the linear coefficient. A square names the signal as its own partner. -/
  | polynomial (mult : LabelledTerms) (linear : Nat)
deriving DecidableEq

namespace Characteristic

/-- The key that characteristics are ordered by: the kind, then the parts. -/
def key : Characteristic → Nat × ((Nat × Nat) × Nat × Nat) × (LabelledTerms × Nat)
  | .product ab side c => (0, (ab, side, c), ([], 0))
  | .polynomial mult linear => (1, ((0, 0), 0, 0), (mult, linear))

theorem key_injective (x y : Characteristic) (h : x.key = y.key) : x = y := by
  cases x <;> cases y <;> simp_all [key]

instance : Ord Characteristic := ⟨fun x y => compare x.key y.key⟩

instance : Std.TransOrd Characteristic := transOrd_of_key key fun _ _ => rfl

instance : Std.LawfulEqOrd Characteristic := lawfulEqOrd_of_key key (fun _ _ => rfl) key_injective

end Characteristic

end CircuitEquiv
