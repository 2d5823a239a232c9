-- SUMMARY: Linear combinations of signals: construction from terms, values, scaling and renaming.
import CircuitEquiv.Data.SortedMap
import CircuitEquiv.Field
import CircuitEquiv.Label

/-!
# Linear combinations

A linear combination maps signals to coefficients. Signal 0 always carries the value one.
-/

namespace CircuitEquiv

/-- The index of a wire. -/
abbrev Signal := Nat

/-- The signal that carries the value one; it is never declared as an input or an output. -/
def constantSignal : Signal := 0

/-- A linear combination: its signals with their coefficients. -/
abbrev Terms := SortedMap Signal Nat

namespace Terms

/-! ## Construction -/

/-- Drops the zero coefficients. -/
def dropZeros {κ : Type} [Ord κ] (t : SortedMap κ Nat) : SortedMap κ Nat :=
  t.filter (fun _ value => value != 0)

/-- The terms with a nonzero coefficient; a later term of a signal replaces an earlier one. -/
def ofList (l : List (Signal × Nat)) : Terms :=
  SortedMap.ofList (l.filter (fun t => t.2 != 0))

/-- The terms of a list with their integers taken into the field. -/
def reduceInts (F : PrimeField) (l : List (Signal × Int)) : List (Signal × Nat) :=
  l.map fun t => (t.1, F.ofInt t.2)

/-- Adds `value` to the coefficient stored under `k`. -/
def accumulate {κ : Type} [Ord κ] [Std.TransOrd κ] (F : PrimeField) (t : SortedMap κ Nat) (k : κ)
    (value : Nat) : SortedMap κ Nat :=
  t.upsert k (fun old => F.add (old.getD 0) value)

/-- The terms of a list with the coefficients of each signal added up. -/
def sumOfList (F : PrimeField) (l : List (Signal × Nat)) : Terms :=
  l.foldl (fun t term => accumulate F t term.1 term.2) SortedMap.empty

/-! ## Values -/

/-- The coefficient of a signal, zero where it is absent. -/
def coefficient (t : Terms) (s : Signal) : Nat := t.getD s 0

/-- The value under an assignment, unless a signal has no value. -/
def eval? (F : PrimeField) (t : Terms) (values : List Nat) : Option Nat :=
  t.entries.foldlM (fun total term => do
    let value ← values[term.1]?
    return F.add total (F.mul term.2 value)) 0

/-! ## Scaling and renaming -/

/-- Divides every coefficient by `divisor`, unless it has no inverse. -/
def divide? {κ : Type} [Ord κ] (F : PrimeField) (t : SortedMap κ Nat) (divisor : Nat) :
    Option (SortedMap κ Nat) :=
  (F.inv? divisor).map fun inverse => t.mapValues (fun _ value => F.mul value inverse)

/-- Renames the signals. -/
def rename (t : Terms) (f : Signal → Signal) : Terms :=
  SortedMap.ofList (t.entries.map (fun term => (f term.1, term.2)))

/-! ## Comparison -/

/-- The coefficients in ascending order. -/
def sortedValues (t : Terms) : List Nat := ascending t.values

/-- The coefficients beside the labels of their signals, in ascending order. -/
def labelled (t : Terms) (labels : Signal → ClassLabel) : List (ClassLabel × Nat) :=
  ascending (t.entries.map (fun term => (labels term.1, term.2)))

end Terms

end CircuitEquiv
