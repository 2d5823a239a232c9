-- SUMMARY: The binary file format of R1CS circuits and its reader.
import CircuitEquiv.Circuit
import CircuitEquiv.File.Error

/-!
# R1CS files

A file is the magic `r1cs`, a version, a section count and the sections, each a type, a length and a
body, in any order. The header has the field and the counts, another section the constraints; more
sections are passed over. Signal 0 is the constant one; the outputs follow it, and then the inputs,
public ones first. Coefficients of a signal that is repeated within a term list are added up.
-/

namespace CircuitEquiv.R1csFile

/-- The type of the section that holds the header. -/
def headerKind : Nat := 1

/-- The type of the section that holds the constraints. -/
def constraintsKind : Nat := 2

/-- The four bytes at the start of a file: the letters `r1cs`. -/
def magic : List UInt8 := [114, 49, 99, 115]

/-- The only version that is read. -/
def version : Nat := 1

/-- The result of a read: the value and the unread bytes. -/
abbrev Reader := StateT (List UInt8) (Except ReadError)

/-- A read of bytes. -/
def take {α : Type} (read : ByteRead α) : Reader α := fun unread =>
  match read.run unread with
  | .ok a unread => .ok (a, unread)
  | .error e _ => .error (.bytes e)

/-- Reads as often as told. -/
def times {α : Type} (read : Reader α) : Nat → Reader (List α)
  | 0 => return []
  | n + 1 => do
    let a ← read
    return a :: (← times read n)

-- ---------------------------------------------------------------------------
-- Sections
-- ---------------------------------------------------------------------------

/-- The bodies of the sections that were read, by type. -/
abbrev Sections := SortedMap Nat (List UInt8)

/-- Reads sections and adds them to the ones before. -/
def readSections : Nat → Sections → Reader Sections
  | 0, sections => return sections
  | n + 1, sections => do
    let kind ← take ByteRead.u32
    let size ← take ByteRead.u64
    let body ← take (ByteRead.bytes size)
    if sections.contains kind then throw (.duplicateSection kind)
    readSections n (sections.insert kind body)

/-- Reads the start of a file and its sections. -/
def readFrame : Reader Sections := do
  take (ByteRead.magic magic)
  let v ← take ByteRead.u32
  if v ≠ version then throw (.bytes (.unsupportedVersion "r1cs" v))
  let n ← take ByteRead.u32
  readSections n SortedMap.empty

/-- Reads a whole section. -/
def readSection {α : Type} (sections : Sections) (kind : Nat) (name : String) (read : Reader α) :
    Except ReadError α := do
  match sections.get? kind with
  | none => throw (.missingSection name)
  | some body =>
    let (a, rest) ← read.run body
    if rest.isEmpty then return a else throw (.trailingBytes name rest.length)

-- ---------------------------------------------------------------------------
-- Header and constraints
-- ---------------------------------------------------------------------------

/-- What the header tells. -/
structure Header where
  /-- The number of bytes of a coefficient. -/
  fieldSize : Nat
  field : PrimeField
  nSignals : Nat
  nOutputs : Nat
  nPublicInputs : Nat
  nPrivateInputs : Nat
  nConstraints : Nat

/-- Reads the header. The number of labels is passed over. -/
def readHeader : Reader Header := do
  let fieldSize ← take ByteRead.u32
  if fieldSize = 0 ∨ fieldSize % 8 ≠ 0 then throw (.invalidFieldSize fieldSize)
  let prime ← take (ByteRead.nat fieldSize)
  match PrimeField.ofModulus? prime with
  | none => throw (.invalidModulus (toString prime))
  | some field =>
    let nSignals ← take ByteRead.u32
    let nOutputs ← take ByteRead.u32
    let nPublicInputs ← take ByteRead.u32
    let nPrivateInputs ← take ByteRead.u32
    let _ ← take ByteRead.u64
    let nConstraints ← take ByteRead.u32
    return { fieldSize, field, nSignals, nOutputs, nPublicInputs, nPrivateInputs, nConstraints }

/-- Reads a signal with its coefficient. -/
def readTerm (fieldSize : Nat) : Reader (Signal × Nat) := do
  let signal ← take ByteRead.u32
  let value ← take (ByteRead.nat fieldSize)
  return (signal, value)

/-- Reads a list of terms and adds them up. -/
def readTerms (h : Header) : Reader Terms := do
  let n ← take ByteRead.u32
  return Terms.sumOfList h.field (← times (readTerm h.fieldSize) n)

/-- Reads a constraint. -/
def readConstraint (h : Header) : Reader R1csConstraint := do
  let a ← readTerms h
  let b ← readTerms h
  let c ← readTerms h
  return .ofParts a b c

/-- Reads all constraints. -/
def readConstraints (h : Header) : Reader (List R1csConstraint) :=
  times (readConstraint h) h.nConstraints

-- ---------------------------------------------------------------------------
-- Files
-- ---------------------------------------------------------------------------

/-- The circuit of a header and its constraints. -/
def toCircuit (h : Header) (constraints : List R1csConstraint) : Except CircuitError Circuit :=
  Circuit.build h.field .r1cs (some h.nSignals)
    (List.range' (h.nOutputs + 1) (h.nPublicInputs + h.nPrivateInputs))
    (List.range' 1 h.nOutputs)
    (constraints.map .r1cs)

/-- The circuit of the bytes of a file. -/
def read (bytes : List UInt8) : Except ReadError Circuit := do
  let (sections, _) ← readFrame.run bytes
  let h ← readSection sections headerKind "header" readHeader
  let constraints ← readSection sections constraintsKind "constraints" (readConstraints h)
  (toCircuit h constraints).mapError .circuit

end CircuitEquiv.R1csFile
