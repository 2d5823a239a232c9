-- SUMMARY: The ways in which reading a circuit file fails.
import CircuitEquiv.Circuit.Error
import CircuitEquiv.File.Bytes
import CircuitEquiv.Text.Quoted

/-!
# Read errors
-/

namespace CircuitEquiv

/-- Why a file is no circuit. -/
inductive ReadError where
  /-- The file is not there, or holds no text where one is expected. -/
  | unreadable (path : String)
  /-- The text is no JSON document of the expected form. -/
  | malformedJson
  | bytes (e : BytesError)
  | circuit (e : CircuitError)
  | duplicateSection (kind : Nat)
  | missingSection (name : String)
  | trailingBytes (name : String) (count : Nat)
  | invalidFieldSize (size : Nat)
  | invalidModulus (text : String)
  | invalidCoefficient (text : String)

/-- The message of an error. -/
def ReadError.message : ReadError → String
  | .unreadable path => s!"failed to read {path}"
  | .malformedJson => "malformed JSON"
  | .bytes e => e.message
  | .circuit e => e.message
  | .duplicateSection kind => s!"r1cs section {kind} appears twice"
  | .missingSection name => s!"r1cs {name} section is missing"
  | .trailingBytes name count => s!"r1cs {name} section has {count} trailing bytes"
  | .invalidFieldSize size => s!"field element size {size} is not a positive multiple of 8"
  | .invalidModulus text => s!"{text} is not a field modulus"
  | .invalidCoefficient text => s!"cannot parse coefficient {quotedText text}"

end CircuitEquiv
