-- SUMMARY: Reading the circuit of a file in either dialect.
import CircuitEquiv.File.AcirFile
import CircuitEquiv.File.R1csFile
import CircuitEquiv.Interaction

/-!
# Circuit files
-/

namespace CircuitEquiv

/-- The circuit of the bytes of a file; those of an ACIR file have to be a text. -/
def Circuit.ofBytes (dialect : Dialect) (path : String) (bytes : List UInt8) :
    Except ReadError Circuit :=
  match dialect with
  | .r1cs => R1csFile.read bytes
  | .acir =>
    match String.fromUTF8? ⟨bytes.toArray⟩ with
    | some text => AcirFile.read text
    | none => .error (.unreadable path)

/-- Reads the circuit of a file. -/
def Circuit.load (dialect : Dialect) (path : String) :
    Interaction (Except ReadError Circuit) := do
  match ← Interaction.read path with
  | some bytes => return Circuit.ofBytes dialect path bytes
  | none => return .error (.unreadable path)

end CircuitEquiv
