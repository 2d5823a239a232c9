-- SUMMARY: Decimal numbers: the shortest decimal that reads back as a binary float, its layouts, and its reader.
/-!
# Decimals

A finite binary float is written as the decimal with the fewest digits that rounds to it, and of
those the nearest. Two layouts are in use: a plain one, always positional, and one that turns to
exponents for very large and very small numbers and always shows a fraction.
-/

namespace CircuitEquiv

/-- The number `± coefficient * 10 ^ exponent`. -/
structure Decimal where
  negative : Bool
  coefficient : Nat
  exponent : Int
deriving DecidableEq, Inhabited

namespace Decimal

-- ---------------------------------------------------------------------------
-- Shortest digits
-- ---------------------------------------------------------------------------

/-- The number of decimal digits of `n`, none for zero. -/
def digitCount (n : Nat) : Nat := if n = 0 then 0 else (toString n).length

/-- The exponent of the leading decimal digit of `num / den`. -/
def leadingExponent (num den : Nat) : Int :=
  if den ≤ num then (digitCount (num / den) : Int) - 1
  else -(digitCount ((den + num - 1) / num - 1) : Int)

/-- The fraction `num / den` divided by `10 ^ k`. -/
def scaleDown (num den : Nat) (k : Int) : Nat × Nat :=
  if 0 ≤ k then (num, den * Nat.pow 10 k.toNat) else (num * Nat.pow 10 (-k).toNat, den)

/-- The numbers that round to one float, as fractions of one denominator. -/
structure Rounding where
  low : Nat
  value : Nat
  high : Nat
  den : Nat
  /-- Whether the ends round to the float too. -/
  closed : Bool

/-- The multiple of `10 ^ k` that rounds to the float, the nearer one of two. -/
def Rounding.onGrid? (r : Rounding) (k : Int) : Option Nat :=
  let (value, den) := scaleDown r.value r.den k
  let (low, _) := scaleDown r.low r.den k
  let (high, _) := scaleDown r.high r.den k
  let hits (n : Nat) : Bool :=
    if r.closed then low ≤ n * den && n * den ≤ high else low < n * den && n * den < high
  let below := value / den
  let above := below + 1
  match hits below, hits above with
  | false, false => none
  | true, false => some below
  | false, true => some above
  | true, true =>
    let down := value - below * den
    let up := above * den - value
    if down < up || (down == up && below % 2 == 0) then some below else some above

/-- Takes the zeros off the end of a coefficient. -/
def dropTrailingZeros (fuel n : Nat) (e : Int) : Nat × Int :=
  match fuel with
  | 0 => (n, e)
  | fuel + 1 => if n ≠ 0 ∧ n % 10 = 0 then dropTrailingZeros fuel (n / 10) (e + 1) else (n, e)

/-- The decimal of the fewest digits, at most 17, that rounds to the float. -/
def Rounding.shortest (r : Rounding) : Nat × Int :=
  let e := leadingExponent r.value r.den
  let found := (List.range 17).findSome? fun (n : Nat) =>
    let k := e - (n : Int)
    (r.onGrid? k).map fun c => (c, k)
  let (c, k) := found.getD (0, 0)
  dropTrailingZeros 20 c k

/-- The numbers that round to `m * 2 ^ q`; below a power of two the lower half step is shorter. -/
def Rounding.ofBinary (m : Nat) (q : Int) (powerOfTwo : Bool) : Rounding :=
  let scale := Nat.pow 2 (q - 2).toNat
  { low := (4 * m - if powerOfTwo then 1 else 2) * scale
    value := 4 * m * scale
    high := (4 * m + 2) * scale
    den := Nat.pow 2 (2 - q).toNat
    closed := m % 2 == 0 }

/-- The least significand of a float whose leading bit is not written. -/
def leastNormal : Nat := 1 <<< 52

/-- The magnitude of a float as a multiple of a power of two; none for infinities and NaN. -/
def binaryParts? (x : Float) : Option (Nat × Int) :=
  let bits := x.toBits.toNat
  let e : Nat := bits / leastNormal % 2048
  let f : Nat := bits % leastNormal
  if e = 2047 then none
  else if e = 0 then some (f, -1074)
  else some (f + leastNormal, (e : Int) - 1075)

/-- Whether a float has a sign; also a zero can have one. -/
def isNegative (x : Float) : Bool := x.toBits >>> 63 == 1

/-- The shortest decimal of a finite float. -/
def ofFloat? (x : Float) : Option Decimal :=
  (binaryParts? x).map fun (m, q) =>
    if m = 0 then ⟨isNegative x, 0, 0⟩
    else
      let (coefficient, exponent) := (Rounding.ofBinary m q (m == leastNormal && q > -1074)).shortest
      ⟨isNegative x, coefficient, exponent⟩

-- ---------------------------------------------------------------------------
-- Layouts
-- ---------------------------------------------------------------------------

def signText (d : Decimal) : String := if d.negative then "-" else ""

/-- `n` zeros. -/
def zeros (n : Nat) : String := String.ofList (List.replicate n '0')

/-- The digits with a point after the first `n` of them. -/
def pointAfter (digits : String) (n : Nat) : String :=
  String.ofList (digits.toList.take n ++ '.' :: digits.toList.drop n)

/-- The positional text: no exponent, and a point only before a fraction. -/
def plainText (d : Decimal) : String :=
  let digits := toString d.coefficient
  let position := digits.length + d.exponent
  d.signText ++
    if d.coefficient = 0 then "0"
    else if 0 ≤ d.exponent then digits ++ zeros d.exponent.toNat
    else if 0 < position then pointAfter digits position.toNat
    else "0." ++ zeros (-position).toNat ++ digits

/-- The text of an exponent: a mark, a sign and the digits. -/
def exponentMark (e : Int) : String := (if e < 0 then "e-" else "e+") ++ toString e.natAbs

/-- The text that always shows a fraction or an exponent: positional while the point lies at most
16 digits after the first one and at most 4 zeros before it. -/
def exponentText (d : Decimal) : String :=
  let digits := toString d.coefficient
  let position := digits.length + d.exponent
  d.signText ++
    if d.coefficient = 0 then "0.0"
    else if 0 ≤ d.exponent ∧ position ≤ 16 then digits ++ zeros d.exponent.toNat ++ ".0"
    else if 0 < position ∧ position ≤ 16 then pointAfter digits position.toNat
    else if -5 < position ∧ position ≤ 0 then "0." ++ zeros (-position).toNat ++ digits
    else if digits.length = 1 then digits ++ exponentMark (position - 1)
    else pointAfter digits 1 ++ exponentMark (position - 1)

-- ---------------------------------------------------------------------------
-- Rounding to a float
-- ---------------------------------------------------------------------------

/-- The nearest float; beyond the range of floats an infinity or a zero. -/
def toFloat (d : Decimal) : Float :=
  let magnitude : Float :=
    let position := digitCount d.coefficient + d.exponent
    if d.coefficient = 0 ∨ position < -400 then 0.0
    else if position > 400 then 1.0 / 0.0
    else if d.exponent < 0 then Float.ofScientific d.coefficient true (-d.exponent).toNat
    else Float.ofScientific d.coefficient false d.exponent.toNat
  if d.negative then -magnitude else magnitude

end Decimal

end CircuitEquiv
