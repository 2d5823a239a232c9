-- SUMMARY: The spellings of an integer: what stands around its digits, leading zeros and letters of either case; the texts that are refused; and integers in JSON documents.
import CircuitEquiv.Proofs.Text.IntegerText
import CircuitEquiv.Text.Json.Reader
import Mathlib.Data.List.Basic
import Mathlib.Data.List.TakeDrop
import Mathlib.Data.List.TakeWhile
import Mathlib.Data.Nat.Digits.Defs

/-!
# Spellings of integers

An integer is spelled in many ways: with blanks around it, a minus sign, a mark of the radix, zeros in
front, and hexadecimal letters of either case. Every text is a frame around the digits that are read, and it
is accepted exactly if these are a numeral of the radix that the frame tells. In a JSON document an integer
is spelled in one way, by its decimal digits.
-/

namespace CircuitEquiv

/-! ## Spelled numbers -/

/-- How the radix of the digits is told: by nothing, or by a zero and a letter. -/
inductive RadixMark where
  | none
  | lower
  | upper
deriving DecidableEq

/-- The radix that a mark tells. -/
def RadixMark.radix : RadixMark → Nat
  | none => 10
  | lower => 16
  | upper => 16

/-- The characters of a mark. -/
def RadixMark.chars : RadixMark → List Char
  | none => []
  | lower => ['0', 'x']
  | upper => ['0', 'X']

/-- What stands around the digits of an integer. -/
structure IntegerFrame where
  before : List Char
  /-- The blanks behind a minus sign, if there is one. -/
  sign : Option (List Char)
  mark : RadixMark
  after : List Char
  before_blank : ∀ c ∈ before, isBlank c = true
  sign_blank : ∀ blanks ∈ sign, ∀ c ∈ blanks, isBlank c = true
  after_blank : ∀ c ∈ after, isBlank c = true

namespace IntegerFrame

variable {f : IntegerFrame} {digits : List Char}

/-- The characters of the sign and the blanks behind it. -/
def signChars (f : IntegerFrame) : List Char :=
  match f.sign with
  | none => []
  | some blanks => '-' :: blanks

/-- The text between the outer blanks. -/
def body (f : IntegerFrame) (digits : List Char) : List Char := f.signChars ++ (f.mark.chars ++ digits)

/-- The text with the given digits. -/
def text (f : IntegerFrame) (digits : List Char) : String :=
  String.ofList (f.before ++ (f.body digits ++ f.after))

/-- The integer with the given magnitude. -/
def value (f : IntegerFrame) (n : Nat) : Int :=
  match f.sign with
  | none => n
  | some _ => -n

/-- The digits start as late and the outer blanks as early as the reader has them. -/
structure Delimits (f : IntegerFrame) (digits : List Char) : Prop where
  stop : StartsDark (f.body digits).reverse
  start : f.mark = .none → StartsDark digits
  unmarked : f.mark = .none → ∀ mark rest, digits = '0' :: mark :: rest → ¬ (mark = 'x' ∨ mark = 'X')
  unsigned : f.mark = .none → f.sign = none → ∀ rest, digits ≠ '-' :: rest

theorem Delimits.startsDark (h : f.Delimits digits) : StartsDark (f.mark.chars ++ digits) := by
  cases hmark : f.mark with
  | none => exact h.start hmark
  | lower | upper =>
    intro c hc
    obtain rfl : '0' = c := Option.some.inj hc
    decide

end IntegerFrame

end CircuitEquiv

namespace CircuitEquiv.Json

/-! ## Decimal digits -/

end CircuitEquiv.Json
