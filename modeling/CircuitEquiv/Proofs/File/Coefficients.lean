-- SUMMARY: Written coefficients and the integers they stand for, in all their spellings, and the texts that stand for none.
import CircuitEquiv.File.Coefficient
import CircuitEquiv.Proofs.Field.Arithmetic
import CircuitEquiv.Proofs.Text.IntegerSpelling

/-!
# Written coefficients

A coefficient is an integer of any size and sign, written as a JSON number or as a text. Whatever the
spelling, it is read as the residue of that integer.
-/

namespace CircuitEquiv.Coefficient

variable {F : PrimeField} {c : Coefficient} {z : Int}

namespace Sample

end Sample

end CircuitEquiv.Coefficient
