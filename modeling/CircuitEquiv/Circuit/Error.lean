-- SUMMARY: The ways in which a circuit or a renaming can be ill-formed, with their messages.
import CircuitEquiv.Constraint.Terms

/-!
# Circuit errors
-/

namespace CircuitEquiv

/-- The two kinds of constraints that a circuit can consist of. -/
inductive Dialect where
  /-- Rank-one constraints. -/
  | r1cs
  /-- Quadratic polynomials. -/
  | acir
deriving DecidableEq, Inhabited

/-- The name of a dialect. -/
def Dialect.name : Dialect → String
  | .r1cs => "R1CS"
  | .acir => "ACIR"

/-- What a signal can be declared as. -/
inductive Declaration where
  | input
  | output
deriving DecidableEq

/-- The name of a declaration. -/
def Declaration.name : Declaration → String
  | .input => "input"
  | .output => "output"

/-- Why a circuit or a renamed constraint is refused. -/
inductive CircuitError where
  | constantDeclared (declaration : Declaration)
  | inputOutputOverlap (signal : Signal)
  | declaredOutOfRange (declaration : Declaration) (signal : Signal) (nSignals : Nat)
  | signalOutOfRange (constraint : Nat) (signal : Signal) (nSignals : Nat)
  | mixedDialects (constraint : Nat) (expected found : Dialect)
  | notInjective (first second image : Signal)
  | mappedToConstant (signal : Signal)
deriving DecidableEq

/-- The message of an error. -/
def CircuitError.message : CircuitError → String
  | .constantDeclared declaration =>
    s!"signal 0 is the constant signal and cannot be declared as {declaration.name}"
  | .inputOutputOverlap signal => s!"signal {signal} is declared both as an input and as an output"
  | .declaredOutOfRange declaration signal nSignals =>
    s!"declared {declaration.name} signal {signal} is out of range (the circuit has {nSignals} signals)"
  | .signalOutOfRange constraint signal nSignals =>
    s!"constraint #{constraint} refers to signal {signal} but the circuit has {nSignals} signals"
  | .mixedDialects constraint expected found =>
    s!"constraint #{constraint} is {found.name} but the circuit is {expected.name}"
  | .notInjective first second image =>
    s!"signal map is not injective: {first} and {second} are both mapped to {image}"
  | .mappedToConstant signal => s!"signal map sends signal {signal} onto the constant signal"

end CircuitEquiv
