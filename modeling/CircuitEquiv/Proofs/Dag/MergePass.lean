-- SUMMARY: A merge pass ends, accounts for every merge, and only merges with the best neighbour there is.
import CircuitEquiv.Dag.Merge
import CircuitEquiv.Proofs.Dag.CycleTest

/-!
# Runs of merge passes

A pass takes turns. A turn takes the least selected node that is not fenced off, and merges it into its
best usable neighbour or, without one, fences it off. A merge takes two live nodes and brings one, and of
the two at least the selected one was not fenced off; a fence takes one of the nodes that are not fenced
off. So the number of live nodes and the number of those that are not fenced off add up to less after every
turn, and the steps that a pass is given never run out.
-/

namespace CircuitEquiv.Dag

variable {select : Dag → NodeId → Bool} {childScore parentScore : MergeScore} {d : Dag}
  {id target : NodeId}

/-! ## Best neighbours -/

/-- The higher score is better, of equal scores a successor, and then the lower number. -/
def MergeCandidate.AtLeast (x y : MergeCandidate) : Prop :=
  y.score < x.score ∨ x.score = y.score ∧
    (x.isSuccessor = true ∧ y.isSuccessor = false ∨ x.isSuccessor = y.isSuccessor ∧ x.id ≤ y.id)

namespace MergeCandidate

variable {x y z : MergeCandidate}

theorem precedes_iff : x.precedes y = true ↔ x.AtLeast y := by
  unfold precedes AtLeast
  grind

theorem AtLeast.refl (x : MergeCandidate) : x.AtLeast x := Or.inr ⟨rfl, Or.inr ⟨rfl, Nat.le_refl _⟩⟩

theorem AtLeast.trans (hxy : x.AtLeast y) (hyz : y.AtLeast z) : x.AtLeast z := by
  unfold AtLeast at *
  grind

theorem AtLeast.total (x y : MergeCandidate) : x.AtLeast y ∨ y.AtLeast x := by
  unfold AtLeast
  grind

/-- Two candidates that are as good as each other are one node. -/
theorem AtLeast.id_eq (hxy : x.AtLeast y) (hyx : y.AtLeast x) : x.id = y.id := by
  unfold AtLeast at *
  grind

end MergeCandidate

/-- A neighbour that has a score and with which no cycle closes. -/
structure IsUsable (childScore parentScore : MergeScore) (d : Dag) (id : NodeId) (c : MergeCandidate) :
    Prop where
  edge : if c.isSuccessor then d.Edge id c.id else d.Edge c.id id
  score : (if c.isSuccessor then childScore else parentScore) d id c.id = some c.score
  acyclic : Acyclic (Identify d.Edge id c.id id)

/-- The usable neighbour that is at least as good as every other one. -/
def IsBest (childScore parentScore : MergeScore) (d : Dag) (id target : NodeId) : Prop :=
  ∃ c : MergeCandidate, c.id = target ∧ IsUsable childScore parentScore d id c ∧
    ∀ other, IsUsable childScore parentScore d id other → c.AtLeast other

theorem mem_mergeCandidates {c : MergeCandidate} : c ∈ mergeCandidates childScore parentScore d id ↔
    (if c.isSuccessor then d.Edge id c.id else d.Edge c.id id) ∧
      (if c.isSuccessor then childScore else parentScore) d id c.id = some c.score := by
  simp only [mergeCandidates, List.mem_mergeSort, List.mem_append, List.mem_filterMap, mem_successors,
    mem_predecessors, Option.map_eq_some_iff]
  constructor
  · rintro (⟨x, hx, score, hscore, rfl⟩ | ⟨x, hx, score, hscore, rfl⟩)
    · exact ⟨hx, hscore⟩
    · exact ⟨hx, hscore⟩
  · obtain ⟨score, isSuccessor, x⟩ := c
    rintro ⟨hx, hscore⟩
    cases isSuccessor with
    | true => exact Or.inl ⟨x, hx, score, hscore, rfl⟩
    | false => exact Or.inr ⟨x, hx, score, hscore, rfl⟩

theorem pairwise_mergeCandidates (childScore parentScore : MergeScore) (d : Dag) (id : NodeId) :
    (mergeCandidates childScore parentScore d id).Pairwise MergeCandidate.AtLeast := by
  have hsorted : (mergeCandidates childScore parentScore d id).Pairwise
      fun x y => x.precedes y = true := by
    apply List.pairwise_mergeSort
    · intro x y z hxy hyz
      rw [MergeCandidate.precedes_iff] at *
      exact hxy.trans hyz
    · intro x y
      rw [Bool.or_eq_true, MergeCandidate.precedes_iff, MergeCandidate.precedes_iff]
      exact MergeCandidate.AtLeast.total x y
  exact hsorted.imp MergeCandidate.precedes_iff.1

section BestNeighbour

variable (h : d.IsClustering)
include h

theorem isUsable_iff {c : MergeCandidate} : IsUsable childScore parentScore d id c ↔
    c ∈ mergeCandidates childScore parentScore d id ∧ d.wouldCreateCycle id c.id = false := by
  rw [mem_mergeCandidates, h.wouldCreateCycle_eq_false_iff]
  exact ⟨fun hc => ⟨⟨hc.edge, hc.score⟩, hc.acyclic⟩, fun hc => ⟨hc.1.1, hc.1.2, hc.2⟩⟩

/-- No neighbour is found exactly if none is usable. -/
theorem bestNeighbour?_eq_none_iff : d.bestNeighbour? childScore parentScore id = none ↔
    ∀ c, ¬ IsUsable childScore parentScore d id c := by
  simp only [bestNeighbour?, Option.map_eq_none_iff, List.find?_eq_none, isUsable_iff h, not_and,
    Bool.not_eq_true', Bool.not_eq_false]

theorem isBest_of_bestNeighbour?
    (hbest : d.bestNeighbour? childScore parentScore id = some target) :
    IsBest childScore parentScore d id target := by
  obtain ⟨c, hfind, rfl⟩ := Option.map_eq_some_iff.1 hbest
  obtain ⟨hcycle, before, after, hsplit, hbefore⟩ := List.find?_eq_some_iff_append.1 hfind
  have hsorted := pairwise_mergeCandidates childScore parentScore d id
  rw [Bool.not_eq_true'] at hcycle
  refine ⟨c, rfl, (isUsable_iff h).2 ⟨List.mem_of_find?_eq_some hfind, hcycle⟩, ?_⟩
  intro other hother
  obtain ⟨hmem, hpass⟩ := (isUsable_iff h).1 hother
  rw [hsplit] at hmem hsorted
  rcases List.mem_append.1 hmem with hmem | hmem
  · -- what comes before the neighbour that was found would close a cycle
    have hfail := hbefore other hmem
    rw [hpass] at hfail
    cases hfail
  · rcases List.mem_cons.1 hmem with rfl | hmem
    · exact .refl _
    · exact List.rel_of_pairwise_cons (List.pairwise_append.1 hsorted).2.1 hmem

/-- The neighbour that is found is the best one. -/
theorem bestNeighbour?_eq_some_iff : d.bestNeighbour? childScore parentScore id = some target ↔
    IsBest childScore parentScore d id target := by
  refine ⟨isBest_of_bestNeighbour? h, ?_⟩
  rintro ⟨c, rfl, husable, hbest⟩
  cases hfound : d.bestNeighbour? childScore parentScore id with
  | none => exact absurd husable ((bestNeighbour?_eq_none_iff h).1 hfound c)
  | some found =>
    obtain ⟨c', rfl, husable', hbest'⟩ := isBest_of_bestNeighbour? h hfound
    rw [(hbest' c husable).id_eq (hbest c' husable')]

end BestNeighbour

/-- A node and its best neighbour are different live nodes, and merging them closes no cycle. -/
theorem IsBest.mergeable (h : d.IsClustering) (hbest : IsBest childScore parentScore d id target) :
    id ∈ d.live ∧ target ∈ d.live ∧ id ≠ target ∧ ¬ d.wouldCreateCycle id target = true := by
  obtain ⟨c, rfl, husable, -⟩ := hbest
  have hcycle : ¬ d.wouldCreateCycle id c.id = true := by
    rw [h.wouldCreateCycle_eq_false_iff.2 husable.acyclic]
    exact Bool.false_ne_true
  have hedge : d.Edge id c.id ∨ d.Edge c.id id := by
    have hedge := husable.edge
    split at hedge
    · exact Or.inl hedge
    · exact Or.inr hedge
  have hne : id ≠ c.id := by
    intro heq
    rw [← heq] at hedge
    exact h.acyclic id (.single (hedge.elim (fun hloop => hloop) fun hloop => hloop))
  rcases hedge with hedge | hedge
  · exact ⟨(h.edge_live _ _ hedge).1, (h.edge_live _ _ hedge).2, hne, hcycle⟩
  · exact ⟨(h.edge_live _ _ hedge).2, (h.edge_live _ _ hedge).1, hne, hcycle⟩

/-! ## Turns -/

/-- The least selected live node that is not fenced off. -/
structure IsNext (select : Dag → NodeId → Bool) (fenced : NodeId → Prop) (d : Dag) (id : NodeId) :
    Prop where
  live : id ∈ d.live
  not_fenced : ¬ fenced id
  selected : select d id = true
  least : ∀ x ∈ d.live, ¬ fenced x → select d x = true → id ≤ x

theorem isNext_of_find? {fenced : SortedSet NodeId}
    (hfind : (d.live.toList.find? fun id => id ∉ fenced ∧ select d id) = some id) :
    IsNext select (· ∈ fenced) d id := by
  obtain ⟨hid, before, after, hsplit, hbefore⟩ := List.find?_eq_some_iff_append.1 hfind
  have hid : id ∉ fenced ∧ select d id = true := of_decide_eq_true hid
  refine ⟨List.mem_of_find?_eq_some hfind, hid.1, hid.2, ?_⟩
  intro x hx hopen hselected
  have hsorted := d.live.sorted
  rw [SortedSet.mem_def, hsplit] at hx
  rw [hsplit] at hsorted
  rcases List.mem_append.1 hx with hx | hx
  · have hpassed := hbefore x hx
    simp [hopen, hselected] at hpassed
  · rcases List.mem_cons.1 hx with rfl | hx
    · exact Nat.le_refl _
    · have hlt := List.rel_of_pairwise_cons (List.pairwise_append.1 hsorted).2.1 hx
      exact Nat.le_of_lt (Nat.compare_eq_lt.1 hlt)

theorem exists_find? {fenced : SortedSet NodeId} (hid : id ∈ d.live) (hopen : id ∉ fenced)
    (hselected : select d id = true) :
    ∃ next, (d.live.toList.find? fun id => id ∉ fenced ∧ select d id) = some next := by
  apply Option.isSome_iff_exists.1
  apply List.find?_isSome.2
  exact ⟨id, hid, decide_eq_true ⟨hopen, hselected⟩⟩

/-- The node that is found is the next one. -/
theorem find?_eq_some_iff_isNext {fenced : SortedSet NodeId} :
    (d.live.toList.find? fun id => id ∉ fenced ∧ select d id) = some id ↔
      IsNext select (· ∈ fenced) d id := by
  refine ⟨isNext_of_find?, fun hnext => ?_⟩
  obtain ⟨next, hfound⟩ := exists_find? hnext.live hnext.not_fenced hnext.selected
  have hfirst := isNext_of_find? hfound
  have hle := hfirst.least id hnext.live hnext.not_fenced hnext.selected
  have hge := hnext.least next hfirst.live hfirst.not_fenced hfirst.selected
  rw [hfound, Nat.le_antisymm hle hge]

/-- What a turn of a pass does: it merges a node into another one, or fences it off. -/
structure Turn where
  node : NodeId
  target : Option NodeId

namespace Turn

/-- The graph after a turn. -/
def apply (d : Dag) (turn : Turn) : Dag :=
  match turn.target with
  | some target => d.tryMerge (turn.node, target)
  | none => d

/-- The nodes that are fenced off after a turn. -/
def fence (fenced : SortedSet NodeId) (turn : Turn) : SortedSet NodeId :=
  match turn.target with
  | some _ => fenced
  | none => fenced.insert turn.node

/-- The turn takes the next node, and merges it into its best neighbour or finds none usable. -/
def IsDone (select : Dag → NodeId → Bool) (childScore parentScore : MergeScore)
    (fenced : NodeId → Prop) (d : Dag) (turn : Turn) : Prop :=
  IsNext select fenced d turn.node ∧
    match turn.target with
    | some target => IsBest childScore parentScore d turn.node target ∧
        ∃ e, d.merge turn.node target = .ok (d.nodes.size, e)
    | none => ∀ c, ¬ IsUsable childScore parentScore d turn.node c

variable {turn : Turn} {fenced : NodeId → Prop}

/-- A node that is not fenced off has a turn: a merge with its best neighbour never fails. -/
theorem exists_isDone (childScore parentScore : MergeScore) (h : d.IsClustering)
    (hnext : IsNext select fenced d id) :
    ∃ turn : Turn, turn.IsDone select childScore parentScore fenced d := by
  cases hbest : d.bestNeighbour? childScore parentScore id with
  | none => exact ⟨⟨id, none⟩, hnext, (bestNeighbour?_eq_none_iff h).1 hbest⟩
  | some target =>
    have hbest := (bestNeighbour?_eq_some_iff h).1 hbest
    obtain ⟨hid, htarget, hne, hcycle⟩ := hbest.mergeable h
    refine ⟨⟨id, some target⟩, hnext, hbest, (d.mergeNodes id target).2, ?_⟩
    exact (merge_eq_ok_iff_of_ne hne).2 ⟨hid, htarget, hcycle, rfl, rfl⟩

/-- A turn that merges puts two different live nodes, of which it took one, into one. -/
theorem IsDone.apply_eq (h : d.IsClustering)
    (hturn : IsDone select childScore parentScore fenced d ⟨id, some target⟩) :
    id ∈ d.live ∧ target ∈ d.live ∧ id ≠ target ∧
      apply d ⟨id, some target⟩ = (d.mergeNodes id target).2 := by
  obtain ⟨hid, htarget, hne, hcycle⟩ := hturn.2.1.mergeable h
  refine ⟨hid, htarget, hne, ?_⟩
  simp [apply, tryMerge, merge_of_live hid htarget hne, hcycle]

theorem mem_fence {fenced : SortedSet NodeId} {x : NodeId} :
    x ∈ turn.fence fenced ↔ x ∈ fenced ∨ (⟨x, none⟩ : Turn) = turn := by
  obtain ⟨id, target⟩ := turn
  cases target with
  | none => simp [fence, or_comm]
  | some target => simp [fence]

theorem isWellFormed_apply (h : d.IsWellFormed) (turn : Turn) : (turn.apply d).IsWellFormed := by
  unfold apply
  split
  · exact (h.tryMerge _).1
  · exact h

end Turn

/-! ## What a turn uses up -/

section UsedUp

variable {a b : NodeId} {fenced : SortedSet NodeId} {turn : Turn}

theorem IsClustering.live_mergeNodes_perm (h : d.IsClustering) (a b : NodeId) :
    (d.mergeNodes a b).2.live.toList.Perm
      (d.nodes.size :: d.live.toList.filter fun x => x ≠ a ∧ x ≠ b) := by
  rw [(agreesUpToBoundaries_mergeNodes d a b).live]
  exact h.live_contract_perm

/-- A merge leaves one live node less. -/
theorem IsClustering.size_mergeNodes (h : d.IsClustering) (ha : a ∈ d.live) (hb : b ∈ d.live)
    (hne : a ≠ b) : (d.mergeNodes a b).2.size + 1 = d.size := by
  have hbefore := (IsClustering.live_perm ha hb hne).length_eq
  have hafter := (h.live_mergeNodes_perm a b).length_eq
  simp only [List.length_cons] at hbefore hafter
  unfold size SortedSet.size
  omega

/-- The live nodes, and once more those that are not fenced off. -/
def turnsLeft (fenced : SortedSet NodeId) (d : Dag) : Nat :=
  d.size + d.live.toList.countP (· ∉ fenced)

theorem turnsLeft_mergeNodes_lt (h : d.IsClustering) (ha : a ∈ d.live) (hb : b ∈ d.live)
    (hne : a ≠ b) (hopen : a ∉ fenced) :
    turnsLeft fenced (d.mergeNodes a b).2 < turnsLeft fenced d := by
  have hsize := h.size_mergeNodes ha hb hne
  have hbefore := (IsClustering.live_perm ha hb hne).countP_eq (· ∉ fenced)
  have hafter := (h.live_mergeNodes_perm a b).countP_eq (· ∉ fenced)
  rw [List.countP_cons_of_pos (by simpa using hopen), List.countP_cons] at hbefore
  rw [List.countP_cons] at hafter
  unfold turnsLeft
  split at hafter <;> omega

theorem turnsLeft_insert_lt (hid : id ∈ d.live) (hopen : id ∉ fenced) :
    turnsLeft (fenced.insert id) d < turnsLeft fenced d := by
  have hperm := List.perm_cons_erase (SortedSet.mem_def.1 hid)
  have hbefore := hperm.countP_eq (· ∉ fenced)
  have hafter := hperm.countP_eq (· ∉ fenced.insert id)
  have hle : (d.live.toList.erase id).countP (· ∉ fenced.insert id) ≤
      (d.live.toList.erase id).countP (· ∉ fenced) := by
    apply List.countP_mono_left
    intro x _ hx
    simp only [SortedSet.mem_insert, not_or, decide_eq_true_eq] at hx ⊢
    exact hx.2
  rw [List.countP_cons_of_pos (by simpa using hopen)] at hbefore
  rw [List.countP_cons_of_neg (by simp)] at hafter
  unfold turnsLeft
  omega

/-- Every turn uses something up. -/
theorem Turn.IsDone.turnsLeft_lt (h : d.IsClustering)
    (hturn : turn.IsDone select childScore parentScore (· ∈ fenced) d) :
    turnsLeft (turn.fence fenced) (turn.apply d) < turnsLeft fenced d := by
  obtain ⟨id, target⟩ := turn
  cases target with
  | none => exact turnsLeft_insert_lt hturn.1.live hturn.1.not_fenced
  | some target =>
    obtain ⟨hid, htarget, hne, happly⟩ := Turn.IsDone.apply_eq h hturn
    rw [happly]
    exact turnsLeft_mergeNodes_lt h hid htarget hne hturn.1.not_fenced

/-- A turn that merges leaves one live node less, and another one as many. -/
theorem Turn.IsDone.size_apply (h : d.IsClustering) {fenced : NodeId → Prop}
    (hturn : turn.IsDone select childScore parentScore fenced d) :
    (turn.apply d).size + (if turn.target.isSome then 1 else 0) = d.size := by
  obtain ⟨id, target⟩ := turn
  cases target with
  | none => rfl
  | some target =>
    obtain ⟨hid, htarget, hne, happly⟩ := Turn.IsDone.apply_eq h hturn
    rw [happly]
    exact h.size_mergeNodes hid htarget hne

end UsedUp

/-! ## Runs -/

/-- The turns of a pass from a graph with the given fenced nodes until no node is next. -/
inductive PassRun (select : Dag → NodeId → Bool) (childScore parentScore : MergeScore) :
    SortedSet NodeId → Dag → List Turn → Prop where
  | stop {fenced d} (hstop : ∀ id, ¬ IsNext select (· ∈ fenced) d id) :
      PassRun select childScore parentScore fenced d []
  | turn {fenced d turn rest}
      (hturn : turn.IsDone select childScore parentScore (· ∈ fenced) d)
      (hrest : PassRun select childScore parentScore (turn.fence fenced) (turn.apply d) rest) :
      PassRun select childScore parentScore fenced d (turn :: rest)

/-- From every well-formed graph there is a run, and it has no more turns than can be used up. -/
theorem exists_passRun (select : Dag → NodeId → Bool) (childScore parentScore : MergeScore)
    (h : d.IsWellFormed) (fenced : SortedSet NodeId) :
    ∃ turns, PassRun select childScore parentScore fenced d turns ∧
      turns.length ≤ turnsLeft fenced d := by
  induction hleft : turnsLeft fenced d using Nat.strong_induction_on generalizing fenced d with
  | h left ih =>
    by_cases hnext : ∃ id, IsNext select (· ∈ fenced) d id
    · obtain ⟨id, hnext⟩ := hnext
      obtain ⟨turn, hturn⟩ := Turn.exists_isDone childScore parentScore h.toIsClustering hnext
      have hlt := hturn.turnsLeft_lt h.toIsClustering
      obtain ⟨rest, hrest, hlength⟩ :=
        ih _ (hleft ▸ hlt) (Turn.isWellFormed_apply h turn) (turn.fence fenced) rfl
      refine ⟨turn :: rest, .turn hturn hrest, ?_⟩
      rw [List.length_cons]
      omega
    · exact ⟨[], .stop (not_exists.1 hnext), Nat.zero_le _⟩

/-- A step of a pass is a turn. -/
theorem mergePass_of_isDone (h : d.IsClustering) {fenced : SortedSet NodeId} {turn : Turn}
    (hturn : turn.IsDone select childScore parentScore (· ∈ fenced) d) (fuel : Nat) :
    mergePass select childScore parentScore (fuel + 1) fenced d =
      let rest := mergePass select childScore parentScore fuel (turn.fence fenced) (turn.apply d)
      (rest.1 + (if turn.target.isSome then 1 else 0), rest.2) := by
  obtain ⟨id, target⟩ := turn
  rw [mergePass, find?_eq_some_iff_isNext.2 hturn.1]
  cases target with
  | none =>
    have hnone := (bestNeighbour?_eq_none_iff h).2 hturn.2
    simp [hnone, Turn.fence, Turn.apply]
  | some target =>
    obtain ⟨hbest, e, hmerge⟩ := hturn.2
    have hsome := (bestNeighbour?_eq_some_iff h).2 hbest
    simp [hsome, hmerge, Turn.fence, Turn.apply, tryMerge]

namespace PassRun

variable {fenced : SortedSet NodeId} {turns : List Turn}

/-- Given more steps than the run has turns, a pass does the run and counts its merges. -/
theorem mergePass_eq (hrun : PassRun select childScore parentScore fenced d turns)
    (h : d.IsWellFormed) {fuel : Nat} (hfuel : turns.length < fuel) :
    mergePass select childScore parentScore fuel fenced d =
      (turns.countP (·.target.isSome), turns.foldl Turn.apply d) := by
  induction hrun generalizing fuel with
  | stop hstop =>
    obtain ⟨fuel, rfl⟩ := Nat.exists_eq_succ_of_ne_zero (Nat.ne_of_gt hfuel)
    have hnone := Option.eq_none_iff_forall_ne_some.2 fun id hfound =>
      hstop id (find?_eq_some_iff_isNext.1 hfound)
    rw [mergePass, hnone]
    rfl
  | @turn fenced d turn rest hturn hrest ih =>
    obtain ⟨fuel, rfl⟩ := Nat.exists_eq_succ_of_ne_zero (Nat.ne_of_gt (Nat.zero_lt_of_lt hfuel))
    rw [List.length_cons] at hfuel
    rw [mergePass_of_isDone h.toIsClustering hturn,
      ih (Turn.isWellFormed_apply h turn) (Nat.lt_of_succ_lt_succ hfuel), List.countP_cons]
    rfl

/-- Every merge of a run leaves one live node less. -/
theorem size_foldl (hrun : PassRun select childScore parentScore fenced d turns)
    (h : d.IsWellFormed) :
    turns.countP (·.target.isSome) + (turns.foldl Turn.apply d).size = d.size := by
  induction hrun with
  | stop hstop => exact Nat.zero_add _
  | @turn fenced d turn rest hturn hrest ih =>
    have hrest := ih (Turn.isWellFormed_apply h turn)
    have hstep := hturn.size_apply h.toIsClustering
    rw [List.countP_cons, List.foldl_cons]
    omega

/-- Every turn of a run is done on the graph that the turns before it lead to. -/
theorem isDone (hrun : PassRun select childScore parentScore fenced d turns)
    {earlier later : List Turn} {turn : Turn} (hsplit : turns = earlier ++ turn :: later) :
    turn.IsDone select childScore parentScore (fun x => x ∈ fenced ∨ ⟨x, none⟩ ∈ earlier)
      (earlier.foldl Turn.apply d) := by
  induction hrun generalizing earlier with
  | stop hstop => simp at hsplit
  | @turn fenced d first rest hfirst hrest ih =>
    cases earlier with
    | nil =>
      obtain ⟨rfl, -⟩ := List.cons.inj hsplit
      simpa using hfirst
    | cons _ earlier =>
      obtain ⟨rfl, htail⟩ := List.cons.inj hsplit
      have hfenced : (fun x => x ∈ first.fence fenced ∨ ⟨x, none⟩ ∈ earlier) =
          fun x => x ∈ fenced ∨ (⟨x, none⟩ : Turn) ∈ first :: earlier := by
        funext x
        rw [Turn.mem_fence, List.mem_cons, or_assoc]
      exact hfenced ▸ ih htail

/-- A selected node that is live in the end was fenced off. -/
theorem fenced_of_selected (hrun : PassRun select childScore parentScore fenced d turns)
    (hid : id ∈ (turns.foldl Turn.apply d).live)
    (hselected : select (turns.foldl Turn.apply d) id = true) :
    id ∈ fenced ∨ ⟨id, none⟩ ∈ turns := by
  induction hrun with
  | stop hstop =>
    by_contra hopen
    rw [not_or] at hopen
    obtain ⟨next, hfound⟩ := exists_find? hid hopen.1 hselected
    exact hstop next (isNext_of_find? hfound)
  | @turn fenced d turn rest hturn hrest ih =>
    have hfenced := ih hid hselected
    rwa [Turn.mem_fence, or_assoc, ← List.mem_cons] at hfenced

end PassRun

/-- In the graph of a partition, after any merges, a merge pass ends, whatever it selects by and scores
with: more steps than it is given make no difference. The number that it returns is the number of live
nodes that are no longer there. It takes at most two turns for every live node, each on the graph that the
turns before it lead to: the next selected node is merged into the best of its neighbours that have a
score and close no cycle, or fenced off if there is none. A selected node that is live in the end was
fenced off by a turn in which it had no usable neighbour. -/
theorem mergeUnderProperty_accounts (circuit : Circuit) (partition : Partition)
    (hsize : partition.size = circuit.nConstraints) (pairs : List (NodeId × NodeId))
    (select : Dag → NodeId → Bool) (childScore parentScore : MergeScore) :
    let d := (ofPartition circuit partition).tryMerges pairs
    let result := d.mergeUnderProperty select childScore parentScore
    (∀ fuel, 2 * d.size < fuel →
      mergePass select childScore parentScore fuel .empty d = result) ∧
    result.1 + result.2.size = d.size ∧
    ∃ turns : List Turn, turns.length ≤ 2 * d.size ∧
      result = (turns.countP (·.target.isSome), turns.foldl Turn.apply d) ∧
      (∀ earlier turn later, turns = earlier ++ turn :: later →
        turn.IsDone select childScore parentScore (fun x => ⟨x, none⟩ ∈ earlier)
          (earlier.foldl Turn.apply d)) ∧
      ∀ id ∈ result.2.live, select result.2 id = true →
        ∃ earlier later, turns = earlier ++ ⟨id, none⟩ :: later ∧
          ∀ c, ¬ IsUsable childScore parentScore (earlier.foldl Turn.apply d) id c := by
  intro d result
  have h : d.IsWellFormed := ((isWellFormed_ofPartition hsize).tryMerges pairs).1
  obtain ⟨turns, hrun, hlength⟩ := exists_passRun select childScore parentScore h .empty
  have hleft : turnsLeft .empty d ≤ 2 * d.size := by
    have hle : d.live.toList.countP (· ∉ SortedSet.empty) ≤ d.size := List.countP_le_length
    unfold turnsLeft
    omega
  have hlength : turns.length ≤ 2 * d.size := hlength.trans hleft
  have hpass := fun fuel (hfuel : 2 * d.size < fuel) =>
    hrun.mergePass_eq h (Nat.lt_of_le_of_lt hlength hfuel)
  have hresult : result = (turns.countP (·.target.isSome), turns.foldl Turn.apply d) :=
    hpass _ (Nat.lt_succ_self _)
  have hdone : ∀ earlier turn later, turns = earlier ++ turn :: later →
      turn.IsDone select childScore parentScore (fun x => ⟨x, none⟩ ∈ earlier)
        (earlier.foldl Turn.apply d) := by
    intro earlier turn later hsplit
    simpa using hrun.isDone hsplit
  refine ⟨fun fuel hfuel => (hpass fuel hfuel).trans hresult.symm, ?_, turns, hlength, hresult, hdone, ?_⟩
  · rw [hresult]
    exact hrun.size_foldl h
  · rw [hresult]
    intro id hid hselected
    have hfenced := (hrun.fenced_of_selected hid hselected).resolve_left SortedSet.not_mem_empty
    obtain ⟨earlier, later, hsplit⟩ := List.append_of_mem hfenced
    exact ⟨earlier, later, hsplit, (hdone earlier _ later hsplit).2⟩

open Sample in
/-- Where the first and the last node of the diamond are selected and only the second one has a score, the
first is merged into the second, and the last is fenced off. -/
theorem mergeUnderProperty_accounts_diamond : singletons.size = diamond.nConstraints ∧
    let d := (ofPartition diamond singletons).tryMerges []
    let select : Dag → NodeId → Bool := fun _ id => id = 0 ∨ id = 3
    let childScore : MergeScore := fun _ _ x => if x = 1 then some 1 else none
    let parentScore : MergeScore := fun _ _ _ => none
    let result := d.mergeUnderProperty select childScore parentScore
    result.1 = 1 ∧ result.1 + result.2.size = d.size ∧
      ∃ turns : List Turn, turns.length ≤ 2 * d.size ∧
        result = (turns.countP (·.target.isSome), turns.foldl Turn.apply d) ∧
        ∃ earlier later, turns = earlier ++ ⟨3, none⟩ :: later ∧
          ∀ c, ¬ IsUsable childScore parentScore (earlier.foldl Turn.apply d) 3 c := by
  obtain ⟨-, hsize, turns, hlength, hresult, -, hfenced⟩ :=
    mergeUnderProperty_accounts diamond singletons rfl [] (fun _ id => id = 0 ∨ id = 3)
      (fun _ _ x => if x = 1 then some 1 else none) (fun _ _ _ => none)
  exact ⟨rfl, by decide +kernel, hsize, turns, hlength, hresult,
    hfenced 3 (by decide +kernel) (by decide)⟩

end CircuitEquiv.Dag
