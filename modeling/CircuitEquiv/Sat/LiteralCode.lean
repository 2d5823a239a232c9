-- SUMMARY: Literals as numbers, so that tables can be indexed by them.
import CircuitEquiv.Sat.Literal

/-!
# Codes of literals

The two literals of a variable have neighbouring codes: the negated one is even.
-/

namespace CircuitEquiv.Literal

/-- The number of a literal in tables. -/
def code (l : Literal) : Nat := 2 * l.var + l.isPositive.toNat

/-- The literal of a number. -/
def ofCode (x : Nat) : Literal := ⟨x / 2, x % 2 == 1⟩

@[simp]
theorem ofCode_code (l : Literal) : ofCode l.code = l := by
  obtain ⟨v, s⟩ := l
  cases s <;> simp [ofCode, code]
  omega

/-- The code of the opposite literal. -/
@[inline]
def oppositeCode (x : Nat) : Nat := if x % 2 = 0 then x + 1 else x - 1

@[simp]
theorem ofCode_oppositeCode (x : Nat) : ofCode (oppositeCode x) = (ofCode x).negate := by
  unfold oppositeCode
  split
  · simp only [ofCode, negate, Literal.mk.injEq]
    constructor
    · omega
    · have : (x + 1) % 2 = 1 := by omega
      simp [*]
  · simp only [ofCode, negate, Literal.mk.injEq]
    constructor
    · omega
    · have : x % 2 = 1 := by omega
      have : (x - 1) % 2 = 0 := by omega
      simp [*]

end CircuitEquiv.Literal
