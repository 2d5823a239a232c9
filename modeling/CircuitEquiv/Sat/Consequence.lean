-- SUMMARY: Clauses that follow from given ones, and literals that do so on their own.
import CircuitEquiv.Sat.LiteralCode

/-!
# Consequences

A consequence of a list of clauses is a clause that holds whenever all of the list do. Literals that
are consequences on their own are facts. A consequence all of whose literals are refuted by facts
refutes the list.
-/

namespace CircuitEquiv

open Literal (code ofCode oppositeCode)

/-- A clause, by the codes of its literals, that holds whenever all clauses of a list do. -/
structure Consequence (clauses : List Clause) where
  codes : List Nat
  follows : ∀ v : Nat → Bool, Clause.allHold clauses v = true →
    ∃ x ∈ codes, (ofCode x).holds v = true

variable {clauses : List Clause}

/-- The clauses of a list, each literal once, as consequences of it. -/
def Consequence.given (clauses : List Clause) : List (Consequence clauses) :=
  clauses.attach.map fun ⟨c, hc⟩ => ⟨(c.map code).eraseDups, fun v hv => by
    obtain ⟨l, hl, hlv⟩ := List.any_eq_true.1 (List.all_eq_true.1 hv c hc)
    exact ⟨l.code, List.mem_eraseDups.2 (List.mem_map_of_mem hl), by simpa using hlv⟩⟩

-- ---------------------------------------------------------------------------
-- Facts
-- ---------------------------------------------------------------------------

/-- Literals that hold whenever all clauses of a list do, as a table over codes. -/
structure Facts (clauses : List Clause) where
  table : Array Bool
  follow : ∀ v : Nat → Bool, Clause.allHold clauses v = true →
    ∀ x, table.getD x false = true → (ofCode x).holds v = true

namespace Facts

/-- No facts, with room for so many codes. -/
def none (size : Nat) : Facts clauses where
  table := Array.replicate size false
  follow _ _ x h := by
    rw [Array.getD_eq_getD_getElem?, Array.getElem?_replicate] at h
    split at h <;> simp at h

/-- Whether the opposite of a literal is a fact. -/
def refutes (facts : Facts clauses) (x : Nat) : Bool := facts.table.getD (oppositeCode x) false

theorem holds_eq_false_of_refutes {facts : Facts clauses} {x : Nat} (h : facts.refutes x = true)
    {v : Nat → Bool} (hv : Clause.allHold clauses v = true) : (ofCode x).holds v = false := by
  have := facts.follow v hv _ h
  rw [Literal.ofCode_oppositeCode, Literal.holds_negate] at this
  simpa using this

/-- Adds a literal of a consequence if all the others are refuted. -/
def learn (facts : Facts clauses) (c : Consequence clauses) (x : Nat) : Facts clauses :=
  if h : c.codes.all (fun y => y == x || facts.refutes y) then
    { table := facts.table.setIfInBounds x true
      follow := fun v hv z hz => by
        rw [Array.getD_eq_getD_getElem?, Array.getElem?_setIfInBounds] at hz
        split at hz
        · rename_i hxz
          subst hxz
          obtain ⟨y, hy, hyv⟩ := c.follows v hv
          rcases Bool.or_eq_true _ _ ▸ List.all_eq_true.1 h y hy with hyx | hyx
          · rwa [← beq_iff_eq.1 hyx]
          · rw [holds_eq_false_of_refutes hyx hv] at hyv
            simp at hyv
        · exact facts.follow v hv z (by rwa [Array.getD_eq_getD_getElem?]) }
  else facts

/-- Clauses that have a consequence whose literals are all refuted never all hold. -/
theorem allHold_eq_false {facts : Facts clauses} {c : Consequence clauses}
    (h : c.codes.all facts.refutes = true) (v : Nat → Bool) : Clause.allHold clauses v = false := by
  cases hv : Clause.allHold clauses v with
  | false => rfl
  | true =>
    obtain ⟨x, hx, hxv⟩ := c.follows v hv
    rw [holds_eq_false_of_refutes (List.all_eq_true.1 h x hx) hv] at hxv
    simp at hxv

end Facts

end CircuitEquiv
