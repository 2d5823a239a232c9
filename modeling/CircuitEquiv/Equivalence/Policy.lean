-- SUMMARY: The strategies for encoding what refinement leaves open, and the options of a comparison.
import CircuitEquiv.Text.Quoted

/-!
# Policies and options
-/

namespace CircuitEquiv

/-- How the classes that refinement leaves open become clauses. -/
inductive Policy where
  /-- Narrows the candidates by the settled classes once; cardinality constraints are pairwise. -/
  | reducedNatural
  /-- The same, with counters for large cardinality constraints. -/
  | reducedPseudoBoolean
  /-- Narrows and propagates before every class, smallest class first. -/
  | onlineInfoPassing
  /-- The same, propagating once for all classes of one size. -/
  | batchedInfoPassing
  /-- Searches for the largest common part, which has to be everything. -/
  | maxSat
deriving DecidableEq, Inhabited

namespace Policy

/-- All policies, in the order in which they are listed. -/
def all : List Policy :=
  [reducedNatural, reducedPseudoBoolean, onlineInfoPassing, batchedInfoPassing, maxSat]

/-- The name of a policy. -/
def name : Policy → String
  | reducedNatural => "reduced_natural"
  | reducedPseudoBoolean => "reduced_pseudoboolean"
  | onlineInfoPassing => "online_info_passing"
  | batchedInfoPassing => "batched_info_passing"
  | maxSat => "maxsat"

/-- The policy of a name. -/
def ofName? (s : String) : Option Policy := all.find? (·.name = s)

/-- The message for a text that names no policy. -/
def unknownMessage (s : String) : String :=
  s!"unknown policy {quotedText s}, expected one of " ++ ", ".intercalate (all.map name)

end Policy

/-- The options of a comparison. -/
structure EquivalenceOptions where
  policy : Policy := .onlineInfoPassing
  /-- The time budget in nanoseconds. -/
  timeout : Option Nat := none
  /-- The size up to which at-most-one constraints are pairwise. -/
  pairwiseThreshold : Nat := 6
  /-- Whether a mapping is checked before it is reported. -/
  sanityCheck : Bool := false
  /-- The file that the formula is written to. -/
  dumpPath : Option String := none

/-- The options of a search for the largest common part. -/
structure MaximalOptions where
  /-- The time budget in nanoseconds. -/
  timeout : Option Nat := none
  /-- The least fraction of matched constraints that counts as a match. -/
  tolerance : Float := 0.8
  /-- The size up to which at-most-one constraints are pairwise. -/
  pairwiseThreshold : Nat := 6
  /-- The file that the formula is written to. -/
  dumpPath : Option String := none

end CircuitEquiv
