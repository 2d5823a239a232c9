-- SUMMARY: The phases of a comparison and the ways in which it ends without a mapping.
import CircuitEquiv.Mapping

/-!
# Phases and errors
-/

namespace CircuitEquiv

/-- A phase of a comparison. -/
inductive Phase where
  | normalization
  | fingerprinting
  | encoding
  | solving
  | maximalEquivalence
deriving DecidableEq, Inhabited

namespace Phase

/-- All phases in their order. -/
def all : List Phase := [normalization, fingerprinting, encoding, solving, maximalEquivalence]

/-- The name of a phase. -/
def name : Phase → String
  | normalization => "normalization"
  | fingerprinting => "fingerprinting"
  | encoding => "encoding"
  | solving => "solving"
  | maximalEquivalence => "maximal_equivalence"

/-- The place of a phase in the order. -/
def rank (p : Phase) : Nat := all.idxOf p

theorem rank_injective (p q : Phase) (h : p.rank = q.rank) : p = q := by
  cases p <;> cases q <;> first | rfl | exact absurd h (by decide)

instance : Ord Phase := ⟨fun p q => compare p.rank q.rank⟩

instance : Std.TransOrd Phase := transOrd_of_key rank fun _ _ => rfl

instance : Std.LawfulEqOrd Phase := lawfulEqOrd_of_key rank (fun _ _ => rfl) rank_injective

end Phase

/-- Why a comparison ends without a mapping. -/
inductive EquivalenceError where
  | notEquivalent (difference : Difference)
  /-- The time budget ran out; the best mapping found so far comes along. -/
  | timeout (phase : Phase) (best : Option Mapping)
  /-- The mapping that was found is no equivalence. -/
  | insane (defect : MappingError)
  /-- The formula could not be written. -/
  | dump (path : String)

/-- The message of an error. -/
def EquivalenceError.message : EquivalenceError → String
  | .notEquivalent difference => s!"circuits are not equivalent: {difference.message}"
  | .timeout phase _ => s!"time budget exhausted during {phase.name}"
  | .insane defect => s!"mapping failed the sanity check: {defect.message}"
  | .dump path => s!"failed to dump CNF to {path}"

end CircuitEquiv
