-- SUMMARY: The sides of a comparison and the reasons for which two circuits are found to differ.
import CircuitEquiv.Circuit.Error
import CircuitEquiv.Text.FloatText

/-!
# Differences
-/

namespace CircuitEquiv

/-- The two sides of a comparison. -/
inductive Side where
  | left
  | right
deriving DecidableEq

/-- The name of a side. -/
def Side.name : Side → String
  | .left => "left"
  | .right => "right"

/-- The opposite side. -/
def Side.other : Side → Side
  | .left => .right
  | .right => .left

/-- The two kinds of items that classes hold. -/
inductive ItemKind where
  | norm
  | signal
deriving DecidableEq

/-- The name of a kind. -/
def ItemKind.name : ItemKind → String
  | .norm => "norm"
  | .signal => "signal"

/-- Why two circuits differ. -/
inductive Difference where
  | dialects (left right : Dialect)
  | fields
  /-- The circuits have different numbers of something. -/
  | counts (what : String) (left right : Nat)
  /-- A class has different sizes on the two sides. -/
  | classSizes (kind : ItemKind) (label : ClassLabel) (round left right : Nat)
  /-- A signal has no candidate left. -/
  | noCandidate (side : Side) (signal : Signal)
  /-- No norm of the same class can be the partner of a norm. -/
  | noFeasiblePartner (side : Side) (norm : Nat)
  /-- No assignment of partners fits together. -/
  | unsatisfiable
  /-- The largest common part is too small. -/
  | belowTolerance (matched total : Nat) (tolerance : Float)

/-- The message of a difference. -/
def Difference.message : Difference → String
  | .dialects left right => s!"dialects differ ({left.name} vs {right.name})"
  | .fields => "circuits are over different fields"
  | .counts what left right => s!"number of {what} differs ({left} vs {right})"
  | .classSizes kind label round left right =>
    s!"{kind.name} class {label.text} has {left} members on the left and {right} on the right after round {round}"
  | .noCandidate side signal => s!"{side.name} signal {signal} has no consistent partner"
  | .noFeasiblePartner side norm => s!"{side.name} norm {norm} has no feasible partner"
  | .unsatisfiable => "residual matching is unsatisfiable"
  | .belowTolerance matched total tolerance =>
    s!"only {matched} of {total} constraints could be matched (tolerance {floatText tolerance})"

end CircuitEquiv
