-- SUMMARY: Labels of the classes that refinement distinguishes: a round with an id, or an id of a settled class.
import CircuitEquiv.Data.Order

/-!
# Class labels

A label names a class of signals or of normalized constraints. Labels of the classes that are still
open carry the round in which they were issued; a class with a single member is settled and carries
no round. Labels are ordered by round, settled ones last, and by id within.
-/

namespace CircuitEquiv

/-- The name of a class. -/
inductive ClassLabel where
  /-- An open class, issued in a round. -/
  | at (round id : Nat)
  /-- A class with one member, never refined again. -/
  | singular (id : Nat)
deriving DecidableEq, Inhabited

namespace ClassLabel

/-- The key that labels are ordered by. -/
def key : ClassLabel → Nat × Nat × Nat
  | .at round id => (0, round, id)
  | .singular id => (1, 0, id)

theorem key_injective (a b : ClassLabel) (h : a.key = b.key) : a = b := by
  cases a <;> cases b <;> simp_all [key]

instance : Ord ClassLabel := ⟨fun a b => compare a.key b.key⟩

instance : Std.TransOrd ClassLabel := transOrd_of_key key fun _ _ => rfl

instance : Std.LawfulEqOrd ClassLabel := lawfulEqOrd_of_key key (fun _ _ => rfl) key_injective

/-- The label that an item starts from. -/
def initial (id : Nat) : ClassLabel := .at 0 id

def isSingular : ClassLabel → Bool
  | .at .. => false
  | .singular _ => true

/-- The text of a label: round and id, or `s` for a settled class. -/
def text : ClassLabel → String
  | .at round id => s!"r{round}:{id}"
  | .singular id => s!"s:{id}"

end ClassLabel

end CircuitEquiv
