-- SUMMARY: Variables in a heap by how active they were lately.
/-!
# Variables by activity

A variable becomes more active with every touch, and by more with every later one. A heap keeps the
most active of its variables in front.
-/

namespace CircuitEquiv

/-- A heap of variables. -/
structure VariableHeap where
  /-- The variables in the heap; the one at place `i` is followed by those at `2 i + 1` and
  `2 i + 2`, which are not more active. -/
  heap : Array Nat
  /-- One more than the place of a variable, zero for a variable outside the heap. -/
  places : Array Nat
  activity : FloatArray
  /-- What the next touch adds. -/
  increment : Float

namespace VariableHeap

/-- The heap of the variables `0, …, n - 1`. -/
def ofSize (n : Nat) : VariableHeap where
  heap := Array.range n
  places := (Array.range n).map (· + 1)
  activity := ⟨Array.replicate n 0⟩
  increment := 1

/-- How active a variable is. -/
@[inline]
def activityOf (h : VariableHeap) (v : Nat) : Float :=
  if hv : v < h.activity.size then h.activity[v] else 0

/-- The variable at a place. -/
@[inline]
def variableAt (h : VariableHeap) (i : Nat) : Nat := h.heap.getD i 0

/-- Puts a variable at a place. -/
@[inline]
def put (h : VariableHeap) (i v : Nat) : VariableHeap :=
  { h with heap := h.heap.setIfInBounds i v, places := h.places.setIfInBounds v (i + 1) }

/-- Moves a variable from place `i` to the front as far as it is more active. -/
def siftUp (h : VariableHeap) (i v : Nat) : VariableHeap :=
  if i = 0 then h.put i v
  else
    let w := h.variableAt ((i - 1) / 2)
    if h.activityOf w < h.activityOf v then (h.put i w).siftUp ((i - 1) / 2) v else h.put i v
termination_by i

/-- The place of the more active one of the variables that follow place `i` in a heap of size `n`. -/
def follower (h : VariableHeap) (n i : Nat) : Nat :=
  if 2 * i + 2 < n ∧
      h.activityOf (h.variableAt (2 * i + 1)) < h.activityOf (h.variableAt (2 * i + 2)) then
    2 * i + 2
  else 2 * i + 1

theorem lt_follower (h : VariableHeap) (n i : Nat) : i < h.follower n i := by
  unfold follower
  split <;> omega

/-- Moves a variable from place `i` to the end of a heap of size `n` as far as it is less active. -/
def siftDown (h : VariableHeap) (n i v : Nat) : VariableHeap :=
  let j := h.follower n i
  if j < n then
    let w := h.variableAt j
    if h.activityOf v < h.activityOf w then (h.put i w).siftDown n j v else h.put i v
  else h.put i v
termination_by n - i
decreasing_by
  have := lt_follower h n i
  omega

/-- Changes the activity of the first so many variables. -/
def mapActivity (f : Float → Float) : Nat → FloatArray → FloatArray
  | 0, a => a
  | k + 1, a => mapActivity f k (if h : k < a.size then a.set k (f a[k]) else a)

/-- Makes all activities smaller before they outgrow the numbers. -/
def rescale (h : VariableHeap) : VariableHeap :=
  { h with
    activity := mapActivity (· * 1e-100) h.activity.size h.activity
    increment := h.increment * 1e-100 }

/-- Makes a variable more active. -/
def touch (h : VariableHeap) (v : Nat) : VariableHeap :=
  let active := h.activityOf v + h.increment
  let h := { h with
    activity := if hv : v < h.activity.size then h.activity.set v active else h.activity }
  let h := if active > 1e100 then h.rescale else h
  match h.places.getD v 0 with
  | 0 => h
  | i + 1 => h.siftUp i v

/-- Lets later touches count more. -/
def decay (h : VariableHeap) : VariableHeap := { h with increment := h.increment / 0.95 }

/-- Puts a variable into the heap, unless it is there. -/
def insert (h : VariableHeap) (v : Nat) : VariableHeap :=
  if h.places.getD v 0 = 0 then
    let i := h.heap.size
    { h with heap := h.heap.push v }.siftUp i v
  else h

/-- Takes the variable in front out. -/
def dropFront (h : VariableHeap) : VariableHeap :=
  let n := h.heap.size - 1
  let front := h.variableAt 0
  let last := h.variableAt n
  match h with
  | ⟨heap, places, activity, increment⟩ =>
    let rest : VariableHeap := ⟨heap.pop, places.setIfInBounds front 0, activity, increment⟩
    if n = 0 then rest else rest.siftDown n 0 last

/-- Takes variables out, at most so many, until one has no value. -/
def next (hasValue : Nat → Bool) : Nat → VariableHeap → Option Nat × VariableHeap
  | 0, h => (none, h)
  | fuel + 1, h =>
    if h.heap.isEmpty then (none, h)
    else
      let v := h.variableAt 0
      let h := h.dropFront
      if hasValue v then next hasValue fuel h else (some v, h)

end VariableHeap

end CircuitEquiv
