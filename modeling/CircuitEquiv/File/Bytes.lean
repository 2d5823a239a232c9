-- SUMMARY: Little-endian byte sequences: a bounded writer, a cursor for reading, and their errors.
/-!
# Byte sequences

Numbers are stored with the least significant byte first. A write or a read that fails leaves a buffer
behind as well: whatever was done before the failure stays done.
-/

namespace CircuitEquiv

/-- Why bytes cannot be written or read. -/
inductive BytesError where
  | bufferFull
  | notEnough
  | wrongMagic (expected actual : List UInt8)
  | unsupportedVersion (name : String) (version : Nat)
  | tooWide (name : String)
deriving DecidableEq

/-- A list of bytes as decimal numbers in brackets. -/
def byteListText (bytes : List UInt8) : String :=
  "[" ++ ", ".intercalate (bytes.map fun b => toString b.toNat) ++ "]"

/-- The message of an error. -/
def BytesError.message : BytesError → String
  | .bufferFull => "Write buffer is full"
  | .notEnough => "Not enough data in read buffer to deserialize"
  | .wrongMagic expected actual =>
    s!"Invalid magic bytes: expected {byteListText expected}, got {byteListText actual}"
  | .unsupportedVersion name version => s!"Unsupported {name} version {version}"
  | .tooWide name => s!"Invalid construction of {name}"

-- ---------------------------------------------------------------------------
-- Numbers as bytes
-- ---------------------------------------------------------------------------

/-- The `width` low bytes of a number, the least significant one first. -/
def littleEndian : Nat → Nat → List UInt8
  | 0, _ => []
  | width + 1, n => UInt8.ofNat (n % 256) :: littleEndian width (n / 256)

/-- The number that bytes store, the least significant one first. -/
def ofLittleEndian : List UInt8 → Nat
  | [] => 0
  | b :: rest => b.toNat + 256 * ofLittleEndian rest

/-- The number of bytes that a number takes; zero takes one. -/
def byteWidth (n : Nat) : Nat :=
  if n < 256 then 1 else byteWidth (n / 256) + 1
termination_by n

-- ---------------------------------------------------------------------------
-- Writing
-- ---------------------------------------------------------------------------

/-- The bytes written so far into a buffer, which may have a limit. -/
structure ByteWriter where
  written : List UInt8
  capacity : Option Nat
deriving DecidableEq

/-- Whether `n` more bytes fit. -/
def ByteWriter.hasRoom (w : ByteWriter) (n : Nat) : Bool :=
  match w.capacity with
  | none => true
  | some capacity => w.written.length + n ≤ capacity

/-- The buffer with bytes behind the written ones. -/
def ByteWriter.append (w : ByteWriter) (bytes : List UInt8) : ByteWriter :=
  { w with written := w.written ++ bytes }

/-- A write into a buffer. -/
abbrev ByteWrite := EStateM BytesError ByteWriter Unit

namespace ByteWrite

/-- Fails unless `n` more bytes fit. -/
def requireRoom (n : Nat) : ByteWrite := do
  let w ← get
  if w.hasRoom n then return () else throw .bufferFull

/-- Writes bytes. -/
def bytes (bytes : List UInt8) : ByteWrite := do
  requireRoom bytes.length
  modify fun w => w.append bytes

/-- Writes a number of four bytes. -/
def u32 (n : UInt32) : ByteWrite := bytes (littleEndian 4 n.toNat)

/-- Writes a number of eight bytes. -/
def u64 (n : UInt64) : ByteWrite := bytes (littleEndian 8 n.toNat)

/-- Writes a number as exactly `width` bytes. -/
def nat (n width : Nat) : ByteWrite :=
  if byteWidth n > width then throw (.tooWide "BigUint") else bytes (littleEndian width n)

end ByteWrite

-- ---------------------------------------------------------------------------
-- Reading
-- ---------------------------------------------------------------------------

/-- A read from a buffer, whose state is the unread bytes. -/
abbrev ByteRead (α : Type) := EStateM BytesError (List UInt8) α

namespace ByteRead

/-- Fails unless `n` bytes are unread. -/
def requireData (n : Nat) : ByteRead Unit := do
  let unread ← get
  if (unread.take n).length = n then return () else throw .notEnough

/-- Reads `n` bytes. -/
def bytes (n : Nat) : ByteRead (List UInt8) := do
  requireData n
  modifyGet fun unread => (unread.take n, unread.drop n)

/-- Reads a number of `width` bytes. -/
def nat (width : Nat) : ByteRead Nat := return ofLittleEndian (← bytes width)

/-- Reads a number of four bytes. -/
def u32 : ByteRead Nat := nat 4

/-- Reads a number of eight bytes. -/
def u64 : ByteRead Nat := nat 8

/-- Reads as many bytes as `expected` has and compares them with it. -/
def magic (expected : List UInt8) : ByteRead Unit := do
  let actual ← bytes expected.length
  if actual = expected then return () else throw (.wrongMagic expected actual)

end ByteRead

end CircuitEquiv
