-- SUMMARY: The reader of integers in decimal or hexadecimal notation, with blanks around them.
/-!
# Integer texts

A sign, a mark of the radix and digits, with blanks around the text and behind the sign. Underscores
may stand between and after digits, but not before the first one.
-/

namespace CircuitEquiv

/-! ## Blanks -/

/-- The characters with the White_Space property, as ranges with both ends included. -/
def blankRanges : List (Nat × Nat) :=
  [(0x9, 0xD), (0x20, 0x20), (0x85, 0x85), (0xA0, 0xA0), (0x1680, 0x1680), (0x2000, 0x200A),
   (0x2028, 0x2029), (0x202F, 0x202F), (0x205F, 0x205F), (0x3000, 0x3000)]

/-- Whether a character has the White_Space property. -/
def isBlank (c : Char) : Bool := blankRanges.any fun (low, high) => low ≤ c.toNat && c.toNat ≤ high

/-- The blanks that are known to the standard library are blank. -/
theorem isBlank_of_isWhitespace {c : Char} (h : c.isWhitespace) : isBlank c := by
  simp only [Char.isWhitespace, Bool.or_eq_true, decide_eq_true_eq] at h
  rcases h with ((rfl | rfl) | rfl) | rfl <;> decide

/-- Drops the blanks at the front. -/
def dropBlanks (cs : List Char) : List Char := cs.dropWhile isBlank

/-- Drops the blanks at both ends. -/
def trimBlanks (cs : List Char) : List Char := (dropBlanks (dropBlanks cs).reverse).reverse

/-! ## Integers -/

/-- The value of a digit in some radix up to 36; letters count in either case. -/
def digitValue? (c : Char) : Option Nat :=
  if c.isDigit then some (c.toNat - '0'.toNat)
  else if 'a' ≤ c ∧ c ≤ 'z' then some (c.toNat - 'a'.toNat + 10)
  else if 'A' ≤ c ∧ c ≤ 'Z' then some (c.toNat - 'A'.toNat + 10)
  else none

/-- Appends a digit to a number; an underscore is passed over. -/
def appendDigit? (radix n : Nat) (c : Char) : Option Nat :=
  if c = '_' then some n
  else
    match digitValue? c with
    | some d => if d < radix then some (radix * n + d) else none
    | none => none

/-- Reads a nonempty sequence of digits. -/
def readDigits? (radix : Nat) (cs : List Char) : Option Nat :=
  if cs.isEmpty ∨ cs.head? = some '_' then none
  else cs.foldlM (appendDigit? radix) 0

/-- Reads digits, hexadecimal ones behind `0x` or `0X`. -/
def readMarkedDigits? : List Char → Option Nat
  | '0' :: 'x' :: digits => readDigits? 16 digits
  | '0' :: 'X' :: digits => readDigits? 16 digits
  | digits => readDigits? 10 digits

/-- Reads an integer. -/
def readInteger? (s : String) : Option Int :=
  match trimBlanks s.toList with
  | '-' :: rest => (readMarkedDigits? (dropBlanks rest)).map fun n => -(n : Int)
  | digits => (readMarkedDigits? digits).map fun n => (n : Int)

end CircuitEquiv
