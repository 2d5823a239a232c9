-- SUMMARY: Communities of a weighted graph by local moving, refined into connected pieces and aggregated.
import CircuitEquiv.Clustering.Graph
import CircuitEquiv.Clustering.Partition
import CircuitEquiv.Data.Total

/-!
# Modularity

A pass works on levels. On each level vertices move, in a shuffled order, to the neighbouring
community with the best gain until none moves; every community is then split into its connected
pieces, and the pieces are the vertices of the next level. The pass ends on the level that falls
into as many pieces as it has vertices. Later passes start from the communities of the one before.

How gains are computed is a parameter, so that it can be done with floats or exactly, and so is the
order in which vertices are visited.
-/

namespace CircuitEquiv.Modularity

-- ---------------------------------------------------------------------------
-- Gains and orders
-- ---------------------------------------------------------------------------

/-- How gains are computed and compared. -/
structure GainRule (R : Type) where
  /-- The gain of a vertex of degree `k` with links of weight `link` to a community of total degree
  `total`, in a graph whose degrees sum up to `twoM`. -/
  gain : (link k total twoM : Nat) → R
  /-- Whether a gain is better than the best one so far by more than the least gain. -/
  exceeds : R → R → Bool

/-- Gains as floats; a gain has to be better by more than 1e-12. -/
def floatGain (resolution : Float) : GainRule Float where
  gain link k total twoM :=
    link.toFloat - resolution * k.toFloat * total.toFloat / twoM.toFloat
  exceeds g best := g > best + 1e-12

/-- Gains as exact fractions; a gain has to be better by more than 1e-12. -/
def exactGain (resolution : Rat) : GainRule Rat where
  gain link k total twoM := link - resolution * k * total / twoM
  exceeds g best := best + 1 / (1000000000000 : Nat) < g

/-- Visiting orders: for the number of the draw and a number of vertices, the vertices in order. -/
abbrev VisitingOrders := Nat → Nat → List Nat

/-- Scrambles 64 bits. -/
def scramble (x : UInt64) : UInt64 :=
  let x := x + 0x9E3779B97F4A7C15
  let x := (x ^^^ (x >>> 30)) * 0xBF58476D1CE4E5B9
  let x := (x ^^^ (x >>> 27)) * 0x94D049BB133111EB
  x ^^^ (x >>> 31)

/-- The orders that a seed determines: vertices are sorted by scrambled keys. -/
def seededOrders (seed : UInt64) : VisitingOrders := fun draw n =>
  let stream := scramble (scramble seed + draw.toUInt64)
  let keyed := (List.range n).map fun v => (scramble (stream + v.toUInt64), v)
  (keyed.mergeSort fun a b => a.1 ≤ b.1).map (·.2)

-- ---------------------------------------------------------------------------
-- Local moving
-- ---------------------------------------------------------------------------

/-- One level of the hierarchy: weighted neighbours and degrees. Edges inside a vertex count in its
degree only. -/
structure Level where
  neighbours : Array (SortedMap Nat Nat)
  degrees : Array Nat

namespace Level

/-- The level of a constraint graph itself. -/
def ofGraph (g : ConstraintGraph) : Level where
  neighbours := g.neighbours
  degrees := Array.ofFn fun v : Fin g.size => g.degree v

variable (level : Level)

/-- The number of vertices. -/
def size : Nat := level.neighbours.size

/-- The weighted neighbours of a vertex. -/
def edges (v : Nat) : SortedMap Nat Nat := level.neighbours[v]?.getD SortedMap.empty

/-- The degree of a vertex. -/
def degree (v : Nat) : Nat := level.degrees[v]?.getD 0

/-- The sum of all degrees. -/
def twoM : Nat := total level.degrees.toList

/-- The weight of the links of a vertex to each community, in the order of communities. -/
def links (community : Array Nat) (v : Nat) : SortedMap Nat Nat :=
  (level.edges v).entries.foldl
    (fun m (u, w) => m.upsert (community[u]?.getD 0) fun old => old.getD 0 + w) SortedMap.empty

end Level

/-- Communities of vertices, the total degrees of the communities, and whether a vertex moved. -/
structure Moving where
  community : Array Nat
  totals : Array Nat
  moved : Bool

/-- The community with the best gain for a vertex of degree `k`; its own one unless another one
exceeds it. -/
def bestCommunity {R : Type} (rule : GainRule R) (twoM k : Nat) (totals : Array Nat)
    (links : SortedMap Nat Nat) (current : Nat) : Nat :=
  let gain (c link : Nat) : R := rule.gain link k (totals[c]?.getD 0) twoM
  (links.entries.foldl
    (fun best (c, link) =>
      let g := gain c link
      if rule.exceeds g best.2 then (c, g) else best)
    (current, gain current (links.getD current 0))).1

/-- Moves a vertex to the community with the best gain. -/
def moveVertex {R : Type} (rule : GainRule R) (level : Level) (twoM : Nat) (s : Moving)
    (v : Nat) : Moving :=
  let current := s.community[v]?.getD 0
  let k := level.degree v
  let totals := s.totals.modify current (· - k)
  let best := bestCommunity rule twoM k totals (level.links s.community v) current
  { community := s.community.setIfInBounds v best
    totals := totals.modify best (· + k)
    moved := s.moved || best != current }

/-- Visits all vertices in order again and again until none moves. -/
def moveAll {R : Type} (rule : GainRule R) (level : Level) (twoM : Nat) (order : List Nat) :
    Nat → Moving → Moving
  | 0, s => s
  | fuel + 1, s =>
    let next := order.foldl (moveVertex rule level twoM) { s with moved := false }
    if next.moved then { moveAll rule level twoM order fuel next with moved := true }
    else { next with moved := s.moved }

/-- The total degree of every community. -/
def communityTotals (level : Level) (community : Array Nat) : Array Nat :=
  (List.range level.size).foldl
    (fun totals v => totals.modify (community[v]?.getD 0) (· + level.degree v))
    (Array.replicate level.size 0)

/-- A bound on the visits: every one that moves a vertex leads to other communities. -/
def visitBound (level : Level) : Nat := Nat.pow level.size level.size + 1

/-- Local moving on a level: the communities afterwards, and whether a vertex moved. -/
def localMoving {R : Type} (rule : GainRule R) (level : Level) (order : List Nat)
    (community : Array Nat) : Array Nat × Bool :=
  if level.twoM = 0 then (community, false)
  else
    let s := moveAll rule level level.twoM order (visitBound level)
      ⟨community, communityTotals level community, false⟩
    (s.community, s.moved)

-- ---------------------------------------------------------------------------
-- Levels
-- ---------------------------------------------------------------------------

/-- Renumbers communities from zero in the order of their first members. -/
def renumber (community : Array Nat) : Array Nat :=
  let firsts := community.toList.eraseDups
  community.map fun c => firsts.idxOf c

/-- The connected pieces of the communities, in the order of their first vertices. -/
def pieces (level : Level) (community : Array Nat) : List (List Nat) :=
  Reach.components
    (fun v => (level.edges v).keys.filter fun u => community[u]? = community[v]?)
    (List.range level.size)

/-- The level whose vertices are the pieces; `place` is the piece of a vertex. -/
def aggregate (level : Level) (pieces : List (List Nat)) (place : Array Nat) : Level where
  neighbours := (pieces.zipIdx.map fun (piece, p) =>
    (piece.flatMap fun v => (level.edges v).entries).foldl
      (fun m (u, w) =>
        let q := place[u]?.getD 0
        if q = p then m else m.upsert q fun old => old.getD 0 + w)
      SortedMap.empty).toArray
  degrees := (pieces.map fun piece => total (piece.map level.degree)).toArray

/-- Works through the levels of a pass. `home` is the vertex of the level that a vertex of the graph
belongs to, and `draw` is the number of the next visiting order. Returns the community of every
vertex of the graph, whether one moved, and the number of the next order. -/
def runLevels {R : Type} (rule : GainRule R) (orders : VisitingOrders) :
    Nat → Level → Array Nat → Array Nat → Bool → Nat → Array Nat × Bool × Nat
  | 0, _, home, community, moved, draw =>
    (home.map fun v => community[v]?.getD 0, moved, draw)
  | fuel + 1, level, home, community, moved, draw =>
    let (community, movedHere) :=
      localMoving rule level (orders draw level.size) (renumber community)
    let moved := moved || movedHere
    let pieces := pieces level community
    if pieces.length = level.size then
      (home.map fun v => community[v]?.getD 0, moved, draw + 1)
    else
      let place := Array.ofFn fun v : Fin level.size => Partition.placeOf pieces v
      let communityOf := (pieces.map fun piece => community[piece.headD 0]?.getD 0).toArray
      runLevels rule orders fuel (aggregate level pieces place)
        (home.map fun v => place[v]?.getD 0) communityOf moved (draw + 1)

/-- Runs passes until one moves nothing. -/
def runPasses {R : Type} (rule : GainRule R) (orders : VisitingOrders) (level : Level) :
    Nat → Array Nat → Nat → Array Nat
  | 0, membership, _ => membership
  | fuel + 1, membership, draw =>
    let (membership, moved, draw) :=
      runLevels rule orders (level.size + 1) level (Array.range level.size) membership false draw
    if moved then runPasses rule orders level fuel membership draw else membership

/-- The communities of a graph after at most the given number of passes, but at least one. -/
def communities {R : Type} (rule : GainRule R) (orders : VisitingOrders) (g : ConstraintGraph)
    (iterations : Nat) : Partition :=
  ⟨(runPasses rule orders (.ofGraph g) (max iterations 1) (Array.range g.size) 0).toList⟩

end CircuitEquiv.Modularity
