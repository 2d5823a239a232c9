-- SUMMARY: Consecutive ids for values, anonymous ids from the same counter, and linked numberings.
import CircuitEquiv.Data.SortedMap

/-!
# Numberings

A numbering issues consecutive ids, beginning at its offset. The first time a value is seen it gets
the next id, which it keeps. An id can also be issued without a value. A linked numbering binds its
own values to ids that it draws from the counter of another one, so no id is issued twice.

A table of ids is a numbering whose ids are words of 64 bits, with the id of every value at hand.
-/

namespace CircuitEquiv

/-- The ids issued so far: `values[i]` is what the id `offset + i` is bound to. -/
structure Numbering (α : Type) where
  offset : Nat
  values : Array (Option α)
deriving Inhabited

namespace Numbering

variable {α : Type}

/-- A numbering without ids that begins at `offset`. -/
def startingAt (offset : Nat) : Numbering α := ⟨offset, #[]⟩

/-- The number of ids issued. -/
def size (n : Numbering α) : Nat := n.values.size

def isEmpty (n : Numbering α) : Bool := n.values.isEmpty

/-- The id that is issued next. -/
def nextId (n : Numbering α) : Nat := n.offset + n.values.size

/-- Issues an id without a value. -/
def fresh (n : Numbering α) : Nat × Numbering α :=
  (n.nextId, { n with values := n.values.push none })

/-- Issues ids without values up to the id `next`, which is issued then. -/
def skipTo (n : Numbering α) (next : Nat) : Numbering α :=
  { n with values := n.values ++ Array.replicate (next - n.nextId) none }

/-- The value bound to an id. -/
def value? (n : Numbering α) (id : Nat) : Option α :=
  if id < n.offset then none else (n.values[id - n.offset]?).join

/-- The ids that are bound, ascending, with their values. -/
def bindings (n : Numbering α) : List (Nat × α) :=
  n.values.toList.zipIdx.filterMap fun (value, i) => value.map fun v => (n.offset + i, v)

variable [DecidableEq α]

/-- The id of a value that has one. -/
def get? (n : Numbering α) (value : α) : Option Nat :=
  (n.values.findIdx? (· = some value)).map (n.offset + ·)

/-- The id of a value, issued now if it has none. -/
def assign (n : Numbering α) (value : α) : Nat × Numbering α :=
  match n.get? value with
  | some id => (id, n)
  | none => (n.nextId, { n with values := n.values.push (some value) })

end Numbering

/-! ## Linked numberings -/

/-- A numbering of values of its own that takes its ids from the counter of `parent`. -/
structure LinkedNumbering (α β : Type) where
  parent : Numbering α
  own : List (Nat × β)

/-- What an id is bound to, seen from a linked numbering. -/
inductive LinkedValue (α β : Type) where
  | parent (value : α)
  | own (value : β)

/-- A linked numbering without values of its own. -/
def Numbering.link {α : Type} (β : Type) (n : Numbering α) : LinkedNumbering α β := ⟨n, []⟩

namespace LinkedNumbering

variable {α β : Type}

/-- Issues an id without a value. -/
def fresh (n : LinkedNumbering α β) : Nat × LinkedNumbering α β :=
  let (id, parent) := n.parent.fresh
  (id, { n with parent })

/-- What an id is bound to; the values of the linked numbering come first. -/
def lookup? (n : LinkedNumbering α β) (id : Nat) : Option (LinkedValue α β) :=
  match n.own.find? (·.1 = id) with
  | some (_, value) => some (.own value)
  | none => (n.parent.value? id).map .parent

variable [DecidableEq β]

/-- The id of a value of the linked numbering. -/
def get? (n : LinkedNumbering α β) (value : β) : Option Nat :=
  (n.own.find? (·.2 = value)).map (·.1)

/-- The id of a value, issued now if it has none. -/
def assign (n : LinkedNumbering α β) (value : β) : Nat × LinkedNumbering α β :=
  match n.get? value with
  | some id => (id, n)
  | none =>
    let (id, n) := n.fresh
    (id, { n with own := n.own ++ [(id, value)] })

end LinkedNumbering

/-! ## Ids as words -/

/-- A numbering with words as ids. After the largest word the ids go on at 0. -/
structure IdTable (α : Type) [Ord α] where
  offset : UInt64
  ids : SortedMap α UInt64
  /-- What the ids are bound to, from `offset` on. -/
  values : Array (Option α)

namespace IdTable

variable {α : Type} [Ord α]

/-- A table without ids that begins at `offset`. -/
def startingAt (offset : UInt64) : IdTable α := ⟨offset, SortedMap.empty, #[]⟩

/-- The number of ids issued. -/
def size (t : IdTable α) : Nat := t.values.size

def isEmpty (t : IdTable α) : Bool := t.values.isEmpty

/-- The id that is issued next. -/
def nextId (t : IdTable α) : UInt64 := t.offset + .ofNat t.values.size

/-- Issues an id without a value. -/
def fresh (t : IdTable α) : UInt64 × IdTable α :=
  (t.nextId, { t with values := t.values.push none })

/-- The id of a value that has one. -/
def get? (t : IdTable α) (value : α) : Option UInt64 := t.ids.get? value

/-- The value bound to an id. -/
def value? (t : IdTable α) (id : UInt64) : Option α :=
  if id < t.offset then none else (t.values[(id - t.offset).toNat]?).join

/-- The ids that are bound, in the order they were issued, with their values. -/
def bindings (t : IdTable α) : List (UInt64 × α) :=
  t.values.toList.zipIdx.filterMap fun (value, i) => value.map fun v => (t.offset + .ofNat i, v)

variable [Std.TransOrd α]

/-- The id of a value, issued now if it has none. -/
def assign (t : IdTable α) (value : α) : UInt64 × IdTable α :=
  match t.get? value with
  | some id => (id, t)
  | none =>
    (t.nextId, { t with values := t.values.push (some value), ids := t.ids.insert value t.nextId })

end IdTable

/-- The values that a linked table binds itself, in both directions. -/
structure OwnIds (β : Type) [Ord β] where
  ids : SortedMap β UInt64
  values : SortedMap UInt64 β

/-- A table of values of its own that takes its ids from the counter of `parent`. -/
structure LinkedTable (α β : Type) [Ord α] [Ord β] where
  parent : IdTable α
  own : OwnIds β

/-- A linked table without values of its own. -/
def IdTable.link {α : Type} [Ord α] (β : Type) [Ord β] (t : IdTable α) : LinkedTable α β :=
  ⟨t, SortedMap.empty, SortedMap.empty⟩

namespace LinkedTable

variable {α β : Type} [Ord α] [Ord β]

/-- Issues an id without a value. -/
def fresh (t : LinkedTable α β) : UInt64 × LinkedTable α β :=
  let (id, parent) := t.parent.fresh
  (id, { t with parent })

/-- The id of a value of the linked table. -/
def get? (t : LinkedTable α β) (value : β) : Option UInt64 := t.own.ids.get? value

/-- What an id is bound to; the values of the linked table come first. -/
def lookup? (t : LinkedTable α β) (id : UInt64) : Option (LinkedValue α β) :=
  match t.own.values.get? id with
  | some value => some (.own value)
  | none => (t.parent.value? id).map .parent

/-- The id of a value, issued now if it has none. -/
def assign [Std.TransOrd β] (t : LinkedTable α β) (value : β) : UInt64 × LinkedTable α β :=
  match t.get? value with
  | some id => (id, t)
  | none =>
    let (id, t) := t.fresh
    (id, { t with own := ⟨t.own.ids.insert value id, t.own.values.insert id value⟩ })

end LinkedTable

end CircuitEquiv
