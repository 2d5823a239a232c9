-- SUMMARY: Clauses over pair variables, collected together with the numbering of the variables.
import CircuitEquiv.Circuit
import CircuitEquiv.Data.Numbering
import CircuitEquiv.Matching.PairShape
import CircuitEquiv.Sat.Cardinality

/-!
# Drafting formulas

A pair variable says that a left norm or signal is matched to a right one. A draft collects clauses
over pair variables, which are numbered when they are first mentioned, and over auxiliary variables
drawn from the same counter.
-/

namespace CircuitEquiv

/-- What a variable stands for: that the left item is matched to the right one. -/
inductive PairVariable where
  | norm (left right : Nat)
  | signal (left right : Signal)
deriving DecidableEq

/-- A formula under construction. -/
structure Draft where
  vars : Numbering PairVariable
  clauses : Array Clause

namespace Draft

/-- The draft without clauses; variables begin at one. -/
def empty : Draft := ⟨.startingAt 1, #[]⟩

def addClause (d : Draft) (c : Clause) : Draft := { d with clauses := d.clauses.push c }

def addClauses (d : Draft) (cs : List Clause) : Draft := { d with clauses := d.clauses ++ cs }

/-! ## Literals -/

/-- The literal of a pair variable. -/
def literal (d : Draft) (v : PairVariable) : Literal × Draft :=
  let (id, vars) := d.vars.assign v
  (.positive id, { d with vars })

/-- The literals of pair variables. -/
def literals (d : Draft) : List PairVariable → List Literal × Draft
  | [] => ([], d)
  | v :: rest =>
    let (l, d) := d.literal v
    let (ls, d) := d.literals rest
    (l :: ls, d)

/-- A literal of a new auxiliary variable. -/
def auxiliary (d : Draft) : Literal × Draft :=
  let (id, vars) := d.vars.fresh
  (.positive id, { d with vars })

/-- Literals of `n` new auxiliary variables. -/
def auxiliaries (d : Draft) : Nat → List Literal × Draft
  | 0 => ([], d)
  | n + 1 =>
    let (l, d) := d.auxiliary
    let (ls, d) := d.auxiliaries n
    (l :: ls, d)

/-! ## Cardinality -/

/-- Lets at most one of the literals hold. -/
def addAtMostOne (d : Draft) (encoding : AtMostOne) (lits : List Literal) : Draft :=
  let (cs, next) := encoding.clauses lits d.vars.nextId
  { d.addClauses cs with vars := d.vars.skipTo next }

/-- Lets exactly one of the literals hold. -/
def addExactlyOne (d : Draft) (encoding : AtMostOne) (lits : List Literal) : Draft :=
  (d.addClause lits).addAtMostOne encoding lits

/-! ## Norm pairs -/

/-- Demands a pair of the disjunction where the guard holds. -/
def addDisjunction (d : Draft) (guard : Literal) (pairs : PairDisjunction) : Draft :=
  let (lits, d) := d.literals (pairs.map fun (s, t) => .signal s t)
  d.addClause (guard.negate :: lits)

/-- Demands all disjunctions where the guard holds. -/
def addDisjunctions (d : Draft) (guard : Literal) (ds : List PairDisjunction) : Draft :=
  ds.foldl (fun d pairs => d.addDisjunction guard pairs) d

/-- Demands one alternative where the guard holds; an auxiliary variable selects each of them. -/
def addChoice (d : Draft) (guard : Literal) (alternatives : List (List PairDisjunction)) : Draft :=
  let (selectors, d) := d.auxiliaries alternatives.length
  let d := d.addClause (guard.negate :: selectors)
  (selectors.zip alternatives).foldl (fun d (selector, ds) => d.addDisjunctions selector ds) d

/-- Adds the demands of matching norm `l` to norm `r` and returns the literal of that pair. -/
def addNormPair (d : Draft) (l r : Nat) (shape : PairShape) : Literal × Draft :=
  let (lit, d) := d.literal (.norm l r)
  let d := d.addDisjunctions lit shape.common
  (lit, shape.choices.foldl (fun d alternatives => d.addChoice lit alternatives) d)

/-! ## Siblings -/

/-- The indices of the norms of a constraint, ascending. -/
def siblings (norms : Array Norm) (origin : Nat) : List Nat :=
  (List.range norms.size).filter fun n => (norms[n]?.getD default).origin = origin

/-- Demands that the norms of one constraint move together: where `l` goes to `r`, every other norm
of the constraint of `l` goes to another norm of the constraint of `r`. -/
def addSiblings (d : Draft) (leftNorms rightNorms : Array Norm) : Draft :=
  let origin (norms : Array Norm) (n : Nat) : Nat := (norms[n]?.getD default).origin
  d.addClauses <| d.vars.bindings.flatMap fun
    | (id, .norm l r) =>
      ((siblings leftNorms (origin leftNorms l)).filter (· ≠ l)).map fun l' =>
        .negative id :: ((siblings rightNorms (origin rightNorms r)).filter (· ≠ r)).filterMap fun r' =>
          (d.vars.get? (.norm l' r')).map .positive
    | (_, .signal ..) => []

end Draft

end CircuitEquiv
