-- SUMMARY: The formula of the search for the largest common part: its models are the common parts, and its counter counts the constraints that they cover.
import CircuitEquiv.Proofs.Equivalence.CommonPart
import CircuitEquiv.Proofs.Equivalence.Encoder
import CircuitEquiv.Proofs.Sat.Totalizer

/-!
# The formula of the largest common part

The pairs that a model selects are a common part of the two circuits, in which the constraints whose
literals hold are covered. Every common part is selected by some model, whose counter shows the number
of covered constraints.
-/

namespace CircuitEquiv

namespace MaximalFormula

variable {left right : Circuit} {Q T : PairVariable → Prop} {d : Draft} {v : Nat → Bool}
  {threshold : Nat}

/-! ## Norm pairs -/

/-- The norms of a circuit by their shapes under the roles. -/
def shapeEntries (circuit : Circuit) : List (NormShape × Nat) :=
  circuit.normalize.toList.zipIdx.map fun e => (roleShape circuit e.1, e.2)

theorem mem_shapeEntries {circuit : Circuit} {shape : NormShape} {l : Nat} :
    (shape, l) ∈ shapeEntries circuit ↔
      ∃ n, circuit.normalize[l]? = some n ∧ roleShape circuit n = shape := by
  simp [shapeEntries, List.mem_zipIdx_iff_getElem?]

theorem nodup_shapeEntries (circuit : Circuit) : ((shapeEntries circuit).map (·.2)).Nodup := by
  have hindices : (shapeEntries circuit).map (·.2) = circuit.normalize.toList.zipIdx.map (·.2) :=
    List.map_map
  rw [hindices, List.zipIdx_map_snd]
  exact List.nodup_range'

theorem mem_filter_shapeEntries [DecidableEq NormShape] {circuit : Circuit} {shape : NormShape}
    {l : Nat} : l ∈ ((shapeEntries circuit).filter fun e => e.1 = shape).map (·.2) ↔
      ∃ n, circuit.normalize[l]? = some n ∧ roleShape circuit n = shape := by
  rw [← mem_shapeEntries, List.mem_map]
  constructor
  · rintro ⟨⟨shape', l'⟩, hmem, rfl⟩
    obtain ⟨hmem, heq⟩ := List.mem_filter.1 hmem
    exact of_decide_eq_true heq ▸ hmem
  · exact fun hmem => ⟨_, List.mem_filter.2 ⟨hmem, decide_eq_true rfl⟩, rfl⟩

/-- The shape of a norm pair, by the indices of the norms. -/
def shapeOf? (left right : Circuit) (l r : Nat) : Option PairShape :=
  PairShape.ofNorms? (sameRole left right) (left.normalize[l]?.getD default).constraint
    (right.normalize[r]?.getD default).constraint

theorem matchablePairs_eq (left right : Circuit) :
    matchablePairs left right left.normalize right.normalize =
      (SortedMap.groupValues (shapeEntries left)).entries.flatMap fun e =>
        PairShape.shapedPairs (shapeOf? left right) e.2
          ((SortedMap.groupValues (shapeEntries right)).getD e.1 []) := by
  rw [matchablePairs, coarseClasses, List.flatMap_map]
  rfl

/-- A pair is matchable when the norms look alike under the roles and have a shape. -/
theorem mem_matchablePairs {l r : Nat} {shape : PairShape} :
    ((l, r), shape) ∈ matchablePairs left right left.normalize right.normalize ↔
      CanMatch left right l r shape := by
  classical
  rw [matchablePairs_eq, List.mem_flatMap]
  simp only [Prod.exists, SortedMap.mem_entries_groupValues, PairShape.mem_shapedPairs,
    SortedMap.getD_groupValues]
  constructor
  · rintro ⟨k, _, ⟨-, rfl⟩, hl, hr, hshape⟩
    obtain ⟨n, hn, rfl⟩ := mem_filter_shapeEntries.1 hl
    obtain ⟨n', hn', heq⟩ := mem_filter_shapeEntries.1 hr
    rw [shapeOf?, hn, hn', Option.getD_some, Option.getD_some] at hshape
    exact ⟨n, n', hn, hn', heq.symm, hshape⟩
  · rintro ⟨n, n', hn, hn', heq, hshape⟩
    refine ⟨roleShape left n, _, ⟨List.mem_map_of_mem (mem_shapeEntries.2 ⟨n, hn, rfl⟩), rfl⟩,
      mem_filter_shapeEntries.2 ⟨n, hn, rfl⟩, mem_filter_shapeEntries.2 ⟨n', hn', heq.symm⟩, ?_⟩
    rw [shapeOf?, hn, hn', Option.getD_some, Option.getD_some, hshape]

theorem nodup_matchablePairs (left right : Circuit) :
    ((matchablePairs left right left.normalize right.normalize).map (·.1)).Nodup := by
  classical
  have hgroup : ∀ (circuit : Circuit) (k : NormShape),
      (((shapeEntries circuit).filter fun e => e.1 = k).map (·.2)).Nodup := fun circuit k =>
    (nodup_shapeEntries circuit).sublist (List.filter_sublist.map _)
  rw [matchablePairs_eq, List.map_flatMap, List.nodup_flatMap]
  constructor
  · rintro ⟨k, ls⟩ he
    obtain ⟨-, rfl⟩ := SortedMap.mem_entries_groupValues.1 he
    refine PairShape.nodup_map_shapedPairs (hgroup left k) ?_
    rw [SortedMap.getD_groupValues]
    exact hgroup right k
  · refine (SortedMap.groupValues (shapeEntries left)).sorted.imp_of_mem ?_
    -- a norm has one shape, so no pair belongs to two classes
    rintro ⟨k, ls⟩ ⟨k', ls'⟩ he he' hlt p hp hp'
    obtain ⟨-, rfl⟩ := SortedMap.mem_entries_groupValues.1 he
    obtain ⟨-, rfl⟩ := SortedMap.mem_entries_groupValues.1 he'
    obtain ⟨⟨⟨l, r⟩, shape⟩, hmem, rfl⟩ := List.mem_map.1 hp
    obtain ⟨⟨⟨l', r'⟩, shape'⟩, hmem', heq⟩ := List.mem_map.1 hp'
    obtain ⟨rfl, rfl⟩ := Prod.mk.inj heq
    obtain ⟨n, hn, rfl⟩ := mem_filter_shapeEntries.1 (PairShape.mem_shapedPairs.1 hmem).1
    obtain ⟨n', hn', rfl⟩ := mem_filter_shapeEntries.1 (PairShape.mem_shapedPairs.1 hmem').1
    rw [hn, Option.some_inj] at hn'
    exact ne_of_compare_lt hlt (congrArg (roleShape left) hn')

/-- The draft with the demands of all norm pairs that can be matched. -/
def paired (left right : Circuit) : Draft :=
  Draft.empty.addNormPairs (matchablePairs left right left.normalize right.normalize)

theorem addPairs_eq (d : Draft) (pairs : List ((Nat × Nat) × PairShape)) :
    addPairs d pairs = (pairs.map fun p => (p.1, (d.addNormPairs pairs).literalOf (normVariable p.1)),
      d.addNormPairs pairs) := by
  induction pairs generalizing d with
  | nil => rfl
  | cons p rest ih =>
    obtain ⟨⟨l, r⟩, shape⟩ := p
    show (((l, r), (d.addNormPair l r shape).1) :: (addPairs (d.addNormPair l r shape).2 rest).1,
      (addPairs (d.addNormPair l r shape).2 rest).2) = _
    rw [ih, Draft.addNormPair_fst_eq_literalOf rest]
    rfl

theorem binds_paired {l r : Nat} {shape : PairShape} (h : CanMatch left right l r shape) :
    (paired left right).Binds (.norm l r) :=
  Draft.binds_addNormPairs (mem_matchablePairs.2 h)

/-- The pairs that the formula is about. -/
def Mentions (left right : Circuit) : PairVariable → Prop
  | .norm l r => ∃ shape, CanMatch left right l r shape
  | .signal s t => sameRole left right s t = true

theorem grows_paired : Draft.Grows (Mentions left right) Draft.empty (paired left right) :=
  Draft.grows_addNormPairs fun p hp => by
    obtain ⟨⟨l, r⟩, shape⟩ := p
    have hmatch := mem_matchablePairs.1 hp
    have ⟨_, _, _, _, _, hshape⟩ := hmatch
    exact ⟨⟨shape, hmatch⟩, PairShape.within_ofNorms? hshape⟩

/-! ## Groups of pairs -/

theorem expresses_bySize (threshold : Nat) : Draft.Expresses
    (fun d lits => d.addAtMostOne (.bySize lits.length threshold) lits) AtMostOneHolds :=
  Draft.expresses_addAtMostOne fun n => .bySize n threshold

theorem grows_addGroups {groups : List (List Literal)}
    (hvar : ∀ lits ∈ groups, ∀ lit ∈ lits, lit.var < d.vars.nextId) :
    Draft.Grows Q d (addGroups threshold d groups) := (expresses_bySize threshold).grows_foldl hvar

theorem atMostOneHolds_of_addGroups {groups : List (List Literal)}
    (hvar : ∀ lits ∈ groups, ∀ lit ∈ lits, lit.var < d.vars.nextId)
    (h : (addGroups threshold d groups).Holds v) : ∀ lits ∈ groups, AtMostOneHolds v lits :=
  (expresses_bySize threshold).of_holds_foldl hvar h

theorem extensible_addGroups {groups : List (List Literal)} (hd : d.WellFormed) (h : d.Models T v)
    (hvar : ∀ lits ∈ groups, ∀ lit ∈ lits, lit.var < d.vars.nextId)
    (hone : ∀ lits ∈ groups, AtMostOneHolds v lits) :
    d.Extensible (addGroups threshold d groups) T v :=
  (expresses_bySize threshold).extensible_foldl hd h hvar hone

section Groups

variable {α κ : Type} [Ord κ] [Std.TransOrd κ] [Std.LawfulEqOrd κ] [DecidableEq κ] {l : List α}
  {key : α → κ} {var : α → PairVariable}

/-- The literals of members with one key, for every key. -/
def literalGroups (d : Draft) (l : List α) (key : α → κ) (var : α → PairVariable) :
    List (List Literal) :=
  (SortedMap.groupValues (l.map fun a => (key a, d.literalOf (var a)))).values

theorem mem_literalGroups {lits : List Literal} : lits ∈ literalGroups d l key var ↔
    ∃ a ∈ l, lits = ((l.filter fun b => key b = key a).map var).map d.literalOf := by
  unfold literalGroups
  rw [SortedMap.mem_values_groupValues_map]
  simp only [List.map_map]
  rfl

variable (hbinds : ∀ a ∈ l, d.Binds (var a))

include hbinds

theorem var_lt_of_mem_literalGroups {lits : List Literal} (hlits : lits ∈ literalGroups d l key var) :
    ∀ lit ∈ lits, lit.var < d.vars.nextId := by
  obtain ⟨a, -, rfl⟩ := mem_literalGroups.1 hlits
  simp only [List.mem_map, List.mem_filter]
  rintro _ ⟨_, ⟨b, ⟨hb, -⟩, rfl⟩, rfl⟩
  exact Draft.var_literalOf_lt (hbinds b hb)

/-- Where at most one literal of each group holds, selected members with one key are the same. -/
theorem eq_of_literalGroups (hone : ∀ lits ∈ literalGroups d l key var, AtMostOneHolds v lits)
    {a b : α} (ha : a ∈ l) (hb : b ∈ l) (hkey : key a = key b) (hSa : d.Selects v (var a))
    (hSb : d.Selects v (var b)) : var a = var b := by
  refine Draft.eq_of_selects (fun p hp => ?_) (hone _ (mem_literalGroups.2 ⟨b, hb, rfl⟩)) _ ?_ _ ?_
    hSa hSb
  · obtain ⟨c, hc, rfl⟩ := List.mem_map.1 hp
    exact hbinds c (List.mem_of_mem_filter hc)
  · exact List.mem_map_of_mem (List.mem_filter.2 ⟨ha, decide_eq_true hkey⟩)
  · exact List.mem_map_of_mem (List.mem_filter.2 ⟨hb, decide_eq_true rfl⟩)

theorem atMostOneHolds_literalGroups (h : d.Models T v) (hnodup : (l.map var).Nodup)
    (hT : ∀ a ∈ l, ∀ b ∈ l, key a = key b → T (var a) → T (var b) → var a = var b) :
    ∀ lits ∈ literalGroups d l key var, AtMostOneHolds v lits := by
  intro lits hlits
  obtain ⟨a, ha, rfl⟩ := mem_literalGroups.1 hlits
  refine Draft.atMostOneHolds_of_eq h (fun p hp => ?_)
    (hnodup.sublist (List.filter_sublist.map _)) fun p hp q hq => ?_
  · obtain ⟨b, hb, rfl⟩ := List.mem_map.1 hp
    exact hbinds b (List.mem_of_mem_filter hb)
  · obtain ⟨b, hb, rfl⟩ := List.mem_map.1 hp
    obtain ⟨c, hc, rfl⟩ := List.mem_map.1 hq
    simp only [List.mem_filter, decide_eq_true_eq] at hb hc
    exact hT b hb.1 c hc.1 (hb.2.trans hc.2.symm)

end Groups

/-! ## Signal pairs -/

/-- The signal pair that a variable stands for. -/
def signalPair? : PairVariable → Option (Signal × Signal)
  | .signal s t => some (s, t)
  | .norm .. => none

/-- The variable of a signal pair. -/
def signalVariable (pair : Signal × Signal) : PairVariable := .signal pair.1 pair.2

theorem signalPair?_eq_some_iff {p : PairVariable} {pair : Signal × Signal} :
    signalPair? p = some pair ↔ p = signalVariable pair := by
  obtain ⟨s, t⟩ := pair
  cases p <;> simp [signalPair?, signalVariable]

/-- The signal pairs that have a variable. -/
def boundSignals (d : Draft) : List (Signal × Signal) :=
  (d.vars.bindings.map (·.2)).filterMap signalPair?

theorem mem_boundSignals (hd : d.WellFormed) {pair : Signal × Signal} :
    pair ∈ boundSignals d ↔ d.Binds (signalVariable pair) := by
  simp only [boundSignals, List.mem_filterMap, List.mem_map, Prod.exists, signalPair?_eq_some_iff,
    exists_eq_right, hd.functional.mem_bindings, Draft.Binds]

theorem nodup_boundSignals (hd : d.WellFormed) : ((boundSignals d).map signalVariable).Nodup := by
  refine List.Nodup.map (fun x y hxy => ?_) (hd.functional.nodup_values.filterMap fun p q pair hp hq => ?_)
  · exact Option.some.inj ((signalPair?_eq_some_iff.2 rfl).symm.trans (signalPair?_eq_some_iff.2 hxy))
  · exact (signalPair?_eq_some_iff.1 hp).trans (signalPair?_eq_some_iff.1 hq).symm

/-- The signal pairs of a draft with their literals, read off the bindings. -/
theorem filterMap_bindings_eq (hd : d.WellFormed)
    {g : Nat × PairVariable → Option ((Signal × Signal) × Literal)}
    (hsignal : ∀ id s t, g (id, .signal s t) = some ((s, t), .positive id))
    (hnorm : ∀ id l r, g (id, .norm l r) = none) : d.vars.bindings.filterMap g =
      (boundSignals d).map fun p => (p, d.literalOf (signalVariable p)) := by
  rw [boundSignals, List.filterMap_map, List.map_filterMap]
  refine List.filterMap_congr fun e he => ?_
  obtain ⟨id, p⟩ := e
  cases p with
  | norm l r => rw [hnorm]; rfl
  | signal s t =>
    rw [hsignal]
    simp [Draft.literalOf, signalPair?, signalVariable, hd.functional.mem_bindings.1 he]

/-! ## Covered constraints -/

section Matched

variable {leftNorms : Array Norm} {byLeft : SortedMap Nat (List Literal)} {ks : List Nat}

/-- The draft with a literal that demands a partner for every norm of a constraint. -/
def addCovered (leftNorms : Array Norm) (byLeft : SortedMap Nat (List Literal)) (d : Draft) (k : Nat) :
    Draft :=
  d.auxiliary.2.addClauses ((Draft.siblings leftNorms k).map fun n =>
    d.auxiliary.1.negate :: byLeft.getD n [])

theorem addMatched_cons (k : Nat) : addMatched leftNorms byLeft d (k :: ks) =
    (d.auxiliary.1 :: (addMatched leftNorms byLeft (addCovered leftNorms byLeft d k) ks).1,
      (addMatched leftNorms byLeft (addCovered leftNorms byLeft d k) ks).2) := rfl

theorem length_addMatched : (addMatched leftNorms byLeft d ks).1.length = ks.length := by
  induction ks generalizing d with
  | nil => rfl
  | cons k rest ih => rw [addMatched_cons, List.length_cons, List.length_cons, ih]

theorem forall₂_range_iff {α : Type} {R : Nat → α → Prop} {n : Nat} {l : List α} :
    List.Forall₂ R (List.range n) l ↔ l.length = n ∧ ∀ k a, l[k]? = some a → R k a := by
  rw [List.forall₂_iff_get]
  simp only [List.length_range, List.get_eq_getElem, List.getElem_range, List.getElem?_eq_some_iff]
  constructor
  · rintro ⟨rfl, h⟩
    exact ⟨rfl, fun k a ⟨hk, ha⟩ => ha ▸ h k hk hk⟩
  · rintro ⟨rfl, h⟩
    exact ⟨rfl, fun k hk _ => h k _ ⟨hk, rfl⟩⟩

variable (hvar : ∀ n, ∀ lit ∈ byLeft.getD n [], lit.var < d.vars.nextId)

include hvar

theorem grows_addCovered (k : Nat) : Draft.Grows Q d (addCovered leftNorms byLeft d k) := by
  have hgrows : Draft.Grows Q d d.auxiliary.2 := Draft.grows_auxiliary d
  refine hgrows.trans (Draft.grows_addClauses fun c hc lit hlit => ?_)
  obtain ⟨n, -, rfl⟩ := List.mem_map.1 hc
  rcases List.mem_cons.1 hlit with rfl | hlit
  · exact Nat.lt_of_lt_of_eq (Nat.lt_succ_self _) (Numbering.nextId_fresh d.vars).symm
  · exact hgrows.lt_nextId (hvar n lit hlit)

theorem grows_addMatched :
    Draft.Grows Q d (addMatched leftNorms byLeft d ks).2 ∧
      ∀ lit ∈ (addMatched leftNorms byLeft d ks).1,
        lit.var < (addMatched leftNorms byLeft d ks).2.vars.nextId := by
  induction ks generalizing d with
  | nil => exact ⟨.refl Q d, fun _ h => absurd h List.not_mem_nil⟩
  | cons k rest ih =>
    have hgrows : Draft.Grows Q d (addCovered leftNorms byLeft d k) := grows_addCovered hvar k
    obtain ⟨hrest, hlits⟩ := ih fun n lit hlit => hgrows.lt_nextId (hvar n lit hlit)
    rw [addMatched_cons]
    refine ⟨hgrows.trans hrest, List.forall_mem_cons.2 ⟨hrest.lt_nextId ?_, hlits⟩⟩
    exact Nat.lt_of_lt_of_eq (Nat.lt_succ_self _) (Numbering.nextId_fresh d.vars).symm

/-- A literal that holds has, for every norm of its constraint, a literal of a pair that holds. -/
theorem forall₂_of_addMatched (h : (addMatched leftNorms byLeft d ks).2.Holds v) :
    List.Forall₂ (fun k lit => lit.holds v = true → ∀ n ∈ Draft.siblings leftNorms k,
      ∃ lit' ∈ byLeft.getD n [], lit'.holds v = true) ks (addMatched leftNorms byLeft d ks).1 := by
  induction ks generalizing d with
  | nil => exact .nil
  | cons k rest ih =>
    have hvar' : ∀ n, ∀ lit ∈ byLeft.getD n [],
        lit.var < (addCovered leftNorms byLeft d k).vars.nextId := fun n lit hlit =>
      (grows_addCovered (Q := fun _ => True) hvar k).lt_nextId (hvar n lit hlit)
    rw [addMatched_cons] at h ⊢
    refine .cons (fun hlit n hn => ?_) (ih hvar' h)
    have hcovered := (grows_addMatched (Q := fun _ => True) hvar').1.holds v h
    have hclause := Clause.allHold_iff.1 (Draft.holds_addClauses.1 hcovered).2 _ (List.mem_map_of_mem hn)
    exact Clause.holds_iff.1 (Clause.holds_negate_cons.1 hclause hlit)

/-- The literals can be made to hold for exactly the constraints of a set whose norms are paired. -/
theorem exists_addMatched (hd : d.WellFormed) (hmodels : d.Models T v) (K : Set Nat)
    (hK : ∀ k ∈ ks, k ∈ K → ∀ n ∈ Draft.siblings leftNorms k,
      ∃ lit ∈ byLeft.getD n [], lit.holds v = true) :
    ∃ w, AgreesBelow d.vars.nextId v w ∧ (addMatched leftNorms byLeft d ks).2.Models T w ∧
      List.Forall₂ (fun k lit => lit.holds w = true ↔ k ∈ K) ks
        (addMatched leftNorms byLeft d ks).1 := by
  classical
  induction ks generalizing d v with
  | nil => exact ⟨v, .refl _ _, hmodels, .nil⟩
  | cons k rest ih =>
    obtain ⟨hfirst, hrest⟩ := List.forall_mem_cons.1 hK
    have hgrows : Draft.Grows (fun _ => True) d (addCovered leftNorms byLeft d k) :=
      grows_addCovered hvar k
    have hstep : d.vars.nextId < (addCovered leftNorms byLeft d k).vars.nextId :=
      Nat.lt_of_lt_of_eq (Nat.lt_succ_self _) (Numbering.nextId_fresh d.vars).symm
    obtain ⟨w, hw, hmodels', hvalue⟩ :=
      Draft.extensible_auxiliaries hd hmodels 1 fun _ => decide (k ∈ K)
    have hlit : d.auxiliary.1.holds w = decide (k ∈ K) :=
      (Literal.holds_positive d.vars.nextId w).trans (hvalue 0)
    have hpaired : ∀ k', (∀ n ∈ Draft.siblings leftNorms k', ∃ lit ∈ byLeft.getD n [],
        lit.holds v = true) → ∀ n ∈ Draft.siblings leftNorms k', ∃ lit ∈ byLeft.getD n [],
          lit.holds w = true := fun k' hk' n hn => by
      obtain ⟨lit, hmem, hholds⟩ := hk' n hn
      exact ⟨lit, hmem, by rw [Literal.holds_of_agreesBelow hw (hvar n lit hmem), hholds]⟩
    have hcovered : (addCovered leftNorms byLeft d k).Models T w := by
      refine hmodels'.addClauses (Clause.allHold_iff.2 fun c hc => ?_)
      obtain ⟨n, hn, rfl⟩ := List.mem_map.1 hc
      refine Clause.holds_negate_cons.2 fun hholds => ?_
      rw [hlit, decide_eq_true_eq] at hholds
      exact Clause.holds_iff.2 (hpaired k (hfirst hholds) n hn)
    obtain ⟨u, hu, hmodels'', hlits⟩ := ih
      (fun n lit hmem => hgrows.lt_nextId (hvar n lit hmem)) (hgrows.wellFormed hd) hcovered
      fun k' hk' hK' => hpaired k' (hrest k' hk' hK')
    rw [addMatched_cons]
    refine ⟨u, hw.trans hu hstep.le, hmodels'', .cons ?_ hlits⟩
    rw [Literal.holds_of_agreesBelow hu hstep, hlit, decide_eq_true_eq]

end Matched

/-! ## The formula -/

/-- The norm pairs by their left norms, with their literals. -/
def pairsByLeft (left right : Circuit) : SortedMap Nat (List Literal) :=
  SortedMap.groupValues
    ((matchablePairs left right left.normalize right.normalize).map fun p =>
      (p.1.1, (paired left right).literalOf (normVariable p.1)))

/-- The literal groups of the norms of one side. -/
def normGroups (left right : Circuit) (side : Nat × Nat → Nat) : List (List Literal) :=
  literalGroups (paired left right) (matchablePairs left right left.normalize right.normalize)
    (fun p => side p.1) fun p => normVariable p.1

/-- The draft in which every norm is matched at most once. -/
def withNorms (left right : Circuit) (threshold : Nat) : Draft :=
  addGroups threshold (paired left right)
    (normGroups left right Prod.fst ++ normGroups left right Prod.snd)

/-- The literal groups of the signals of one side. -/
def signalGroups (d : Draft) (side : Signal × Signal → Signal) : List (List Literal) :=
  literalGroups d (boundSignals d) side signalVariable

/-- The draft in which every norm and every signal is matched at most once. -/
def withSignals (left right : Circuit) (threshold : Nat) : Draft :=
  addGroups threshold (withNorms left right threshold)
    (signalGroups (withNorms left right threshold) Prod.fst ++
      signalGroups (withNorms left right threshold) Prod.snd)

/-- The literals of the left constraints, and the draft with their clauses. -/
def withMatched (left right : Circuit) (threshold : Nat) : List Literal × Draft :=
  addMatched left.normalize (pairsByLeft left right) (withSignals left right threshold)
    (List.range left.nConstraints)

/-- The counter of the covered constraints, its clauses and the next variable. -/
def counterOf (left right : Circuit) (threshold : Nat) : List Literal × List Clause × Nat :=
  Totalizer.ofLiterals (withMatched left right threshold).1
    (withMatched left right threshold).2.vars.nextId

/-- The draft with room for the counter. -/
def withCounter (left right : Circuit) (threshold : Nat) : Draft :=
  let d := (withMatched left right threshold).2
  { d with vars := d.vars.skipTo (counterOf left right threshold).2.2 }

/-- The whole draft. -/
def drafted (left right : Circuit) (threshold : Nat) : Draft :=
  (withCounter left right threshold).addSiblings left.normalize right.normalize

/-! ### Growth -/

theorem wellFormed_paired : (paired left right).WellFormed :=
  grows_paired.wellFormed Draft.wellFormed_empty

theorem mentions_of_binds {p : PairVariable} (h : (paired left right).Binds p) :
    Mentions left right p := (grows_paired.binds p h).resolve_left (Draft.not_binds_empty p)

theorem binds_of_mem_matchablePairs {p : (Nat × Nat) × PairShape}
    (hp : p ∈ matchablePairs left right left.normalize right.normalize) :
    (paired left right).Binds (normVariable p.1) := Draft.binds_addNormPairs hp

theorem var_lt_of_mem_normGroups : ∀ lits ∈ normGroups left right Prod.fst ++
    normGroups left right Prod.snd, ∀ lit ∈ lits, lit.var < (paired left right).vars.nextId :=
  fun _ hlits => (List.mem_append.1 hlits).elim
    (var_lt_of_mem_literalGroups fun _ hp => binds_of_mem_matchablePairs hp)
    (var_lt_of_mem_literalGroups fun _ hp => binds_of_mem_matchablePairs hp)

theorem grows_withNorms : Draft.Grows Q (paired left right) (withNorms left right threshold) :=
  grows_addGroups var_lt_of_mem_normGroups

theorem wellFormed_withNorms : (withNorms left right threshold).WellFormed :=
  (grows_withNorms (Q := fun _ => True)).wellFormed wellFormed_paired

theorem binds_of_mem_boundSignals {pair : Signal × Signal}
    (h : pair ∈ boundSignals (withNorms left right threshold)) :
    (withNorms left right threshold).Binds (signalVariable pair) :=
  (mem_boundSignals wellFormed_withNorms).1 h

theorem var_lt_of_mem_signalGroups : ∀ lits ∈ signalGroups (withNorms left right threshold) Prod.fst ++
    signalGroups (withNorms left right threshold) Prod.snd, ∀ lit ∈ lits,
      lit.var < (withNorms left right threshold).vars.nextId :=
  fun _ hlits => (List.mem_append.1 hlits).elim
    (var_lt_of_mem_literalGroups fun _ hp => binds_of_mem_boundSignals hp)
    (var_lt_of_mem_literalGroups fun _ hp => binds_of_mem_boundSignals hp)

theorem grows_withSignals :
    Draft.Grows Q (withNorms left right threshold) (withSignals left right threshold) :=
  grows_addGroups var_lt_of_mem_signalGroups

theorem mem_pairsByLeft {l : Nat} {lit : Literal} : lit ∈ (pairsByLeft left right).getD l [] ↔
    ∃ r, (∃ shape, CanMatch left right l r shape) ∧
      lit = (paired left right).literalOf (.norm l r) := by
  rw [pairsByLeft, SortedMap.getD_groupValues]
  simp only [List.mem_map, List.mem_filter, decide_eq_true_eq]
  constructor
  · rintro ⟨_, ⟨⟨⟨⟨l, r⟩, shape⟩, hp, rfl⟩, rfl⟩, rfl⟩
    exact ⟨r, ⟨shape, mem_matchablePairs.1 hp⟩, rfl⟩
  · rintro ⟨r, ⟨shape, hmatch⟩, rfl⟩
    exact ⟨_, ⟨⟨_, mem_matchablePairs.2 hmatch, rfl⟩, rfl⟩, rfl⟩

theorem var_lt_of_mem_pairsByLeft (l : Nat) : ∀ lit ∈ (pairsByLeft left right).getD l [],
    lit.var < (withSignals left right threshold).vars.nextId := by
  intro lit hlit
  obtain ⟨r, ⟨shape, hmatch⟩, rfl⟩ := mem_pairsByLeft.1 hlit
  exact (grows_withNorms.trans grows_withSignals : Draft.Grows (fun _ => True) _ _).lt_nextId
    (Draft.var_literalOf_lt (binds_paired hmatch))

theorem grows_withMatched :
    Draft.Grows Q (withSignals left right threshold) (withMatched left right threshold).2 :=
  (grows_addMatched var_lt_of_mem_pairsByLeft).1

theorem var_lt_of_mem_withMatched : ∀ lit ∈ (withMatched left right threshold).1,
    lit.var < (withMatched left right threshold).2.vars.nextId :=
  (grows_addMatched (Q := fun _ => True) var_lt_of_mem_pairsByLeft).2

theorem grows_withCounter :
    Draft.Grows Q (withMatched left right threshold).2 (withCounter left right threshold) where
  vars := Numbering.isExtendedBy_skipTo _ _
  holds := fun _ h => h
  wellFormed := fun h => ⟨h.functional.skipTo _,
    h.below.mono (Numbering.isExtendedBy_skipTo _ _).nextId⟩
  binds := fun p ⟨id, hid⟩ => Or.inl ⟨id, by rwa [← Numbering.get?_skipTo]⟩

theorem grows_paired_withCounter :
    Draft.Grows Q (paired left right) (withCounter left right threshold) :=
  grows_withNorms.trans (grows_withSignals.trans (grows_withMatched.trans grows_withCounter))

theorem wellFormed_withCounter : (withCounter left right threshold).WellFormed :=
  (grows_paired_withCounter (Q := fun _ => True)).wellFormed wellFormed_paired

theorem grows_drafted :
    Draft.Grows Q (withCounter left right threshold) (drafted left right threshold) :=
  Draft.grows_addSiblings wellFormed_withCounter

theorem grows_withMatched_drafted :
    Draft.Grows Q (withMatched left right threshold).2 (drafted left right threshold) :=
  grows_withCounter.trans grows_drafted

theorem grows_withSignals_drafted :
    Draft.Grows Q (withSignals left right threshold) (drafted left right threshold) :=
  grows_withMatched.trans grows_withMatched_drafted

theorem grows_withNorms_drafted :
    Draft.Grows Q (withNorms left right threshold) (drafted left right threshold) :=
  grows_withSignals.trans grows_withSignals_drafted

theorem grows_paired_drafted : Draft.Grows Q (paired left right) (drafted left right threshold) :=
  grows_paired_withCounter.trans grows_drafted

theorem wellFormed_drafted : (drafted left right threshold).WellFormed :=
  (grows_drafted (Q := fun _ => True)).wellFormed wellFormed_withCounter

theorem ofCircuits_eq (left right : Circuit) (threshold : Nat) :
    ofCircuits left right left.normalize right.normalize threshold =
      ⟨(drafted left right threshold).clauses.toList, (counterOf left right threshold).2.1,
        (withMatched left right threshold).1, (counterOf left right threshold).1,
        (drafted left right threshold).vars⟩ := by
  unfold ofCircuits
  rw [addPairs_eq]
  dsimp -zeta only
  extract_lets byLeft byRight dNorms signals byLeftSignal byRightSignal dSignals dCounter dSiblings
  have hleft : byLeft = pairsByLeft left right := congrArg _ List.map_map
  have hright : byRight.values = normGroups left right Prod.snd :=
    congrArg (fun l => (SortedMap.groupValues l).values) List.map_map
  have hnormed : dNorms = withNorms left right threshold := by
    show addGroups _ _ (byLeft.values ++ byRight.values) = _
    rw [hleft, hright]
    rfl
  have hsignals : signals = (boundSignals (withNorms left right threshold)).map fun p =>
      (p, (withNorms left right threshold).literalOf (signalVariable p)) := by
    show List.filterMap _ dNorms.vars.bindings = _
    rw [hnormed]
    exact filterMap_bindings_eq wellFormed_withNorms (fun _ _ _ => rfl) fun _ _ _ => rfl
  have hsigned : dSignals = withSignals left right threshold := by
    show addGroups _ dNorms ((SortedMap.groupValues (signals.map _)).values ++
      (SortedMap.groupValues (signals.map _)).values) = _
    rw [hnormed, hsignals, List.map_map, List.map_map]
    rfl
  simp only [dSiblings, dCounter, hleft, hsigned]
  rfl

/-! ## From models to common parts -/

/-- The constraints whose literals hold. -/
def covered (lits : List Literal) (v : Nat → Bool) : Set Nat :=
  {k | ∃ lit, lits[k]? = some lit ∧ lit.holds v = true}

theorem trueCount_eq_length {lits : List Literal} {ks : List Nat} (hnodup : ks.Nodup)
    (hks : ∀ k, k ∈ ks ↔ k ∈ covered lits v) : trueCount v lits = ks.length := by
  let held := (lits.zipIdx.filter fun e => e.1.holds v).map (·.2)
  have hheld : held.Nodup := by
    have hindices : (lits.zipIdx.map (·.2)).Nodup := by
      rw [List.zipIdx_map_snd]
      exact List.nodup_range'
    exact hindices.sublist (List.filter_sublist.map _)
  have hperm : ks.Perm held := (List.perm_ext_iff_of_nodup hnodup hheld).2 fun k => by
    simp [held, hks, covered, List.mem_zipIdx_iff_getElem?]
  calc trueCount v lits = (lits.zipIdx.map Prod.fst).countP fun l => l.holds v := by
        rw [List.zipIdx_map_fst, trueCount]
    _ = held.length := by
        rw [List.countP_map, List.length_map, List.countP_eq_length_filter]
        rfl
    _ = ks.length := hperm.length_eq.symm

/-- What a model selects was paired, and is what the formula is about. -/
theorem selects_paired {p : PairVariable} (hS : (drafted left right threshold).Selects v p) :
    (paired left right).Selects v p ∧ Mentions left right p := by
  have hgrows : Draft.Grows (fun _ => False) (paired left right) (drafted left right threshold) :=
    grows_paired_drafted
  have ⟨id, hid, _⟩ := hS
  have hbinds := (hgrows.binds p ⟨id, hid⟩).resolve_right not_false
  exact ⟨hgrows.selects_of_binds hbinds hS, mentions_of_binds hbinds⟩

theorem selects_withNorms {p : PairVariable} (hS : (drafted left right threshold).Selects v p) :
    (withNorms left right threshold).Selects v p := grows_withNorms.selects (Q := fun _ => False)
  (selects_paired hS).1

theorem atMostOneHolds_withNorms (h : (withNorms left right threshold).Holds v) :
    ∀ lits ∈ normGroups left right Prod.fst ++ normGroups left right Prod.snd,
      AtMostOneHolds v lits := atMostOneHolds_of_addGroups var_lt_of_mem_normGroups h

theorem atMostOneHolds_withSignals (h : (withSignals left right threshold).Holds v) :
    ∀ lits ∈ signalGroups (withNorms left right threshold) Prod.fst ++
      signalGroups (withNorms left right threshold) Prod.snd,
      AtMostOneHolds v lits := atMostOneHolds_of_addGroups var_lt_of_mem_signalGroups h

section Sound

variable (h : (drafted left right threshold).Holds v)

include h

theorem eq_of_selects_norms {side : Nat × Nat → Nat} (hside : side = Prod.fst ∨ side = Prod.snd)
    {l r l' r' : Nat} (hS : (drafted left right threshold).Selects v (.norm l r))
    (hS' : (drafted left right threshold).Selects v (.norm l' r')) (heq : side (l, r) = side (l', r')) :
    l = l' ∧ r = r' := by
  have hone := atMostOneHolds_withNorms ((grows_withNorms_drafted (Q := fun _ => True)).holds v h)
  obtain ⟨hselects, shape, hmatch⟩ := selects_paired hS
  obtain ⟨hselects', shape', hmatch'⟩ := selects_paired hS'
  have hgroup : ∀ lits ∈ normGroups left right side, AtMostOneHolds v lits := by
    obtain rfl | rfl := hside
    · exact fun lits hlits => hone lits (List.mem_append_left _ hlits)
    · exact fun lits hlits => hone lits (List.mem_append_right _ hlits)
  have hvariable := eq_of_literalGroups (fun _ hp => binds_of_mem_matchablePairs hp) hgroup
    (mem_matchablePairs.2 hmatch) (mem_matchablePairs.2 hmatch') heq hselects hselects'
  exact PairVariable.norm.inj hvariable

theorem eq_of_selects_signals {side : Signal × Signal → Signal}
    (hside : side = Prod.fst ∨ side = Prod.snd) {s t s' t' : Signal}
    (hS : (drafted left right threshold).Selects v (.signal s t))
    (hS' : (drafted left right threshold).Selects v (.signal s' t'))
    (heq : side (s, t) = side (s', t')) : s = s' ∧ t = t' := by
  have hone := atMostOneHolds_withSignals ((grows_withSignals_drafted (Q := fun _ => True)).holds v h)
  have hmem : ∀ s t, (drafted left right threshold).Selects v (.signal s t) →
      (s, t) ∈ boundSignals (withNorms left right threshold) := fun s t hS => by
    obtain ⟨id, hid, -⟩ := selects_withNorms hS
    exact (mem_boundSignals wellFormed_withNorms).2 ⟨id, hid⟩
  have hgroup : ∀ lits ∈ signalGroups (withNorms left right threshold) side, AtMostOneHolds v lits := by
    obtain rfl | rfl := hside
    · exact fun lits hlits => hone lits (List.mem_append_left _ hlits)
    · exact fun lits hlits => hone lits (List.mem_append_right _ hlits)
  have hvariable := eq_of_literalGroups (fun _ hp => binds_of_mem_boundSignals hp) hgroup
    (hmem s t hS) (hmem s' t' hS') heq (selects_withNorms hS) (selects_withNorms hS')
  exact PairVariable.signal.inj hvariable

theorem signalMatching_of_holds : SignalMatching left right fun s t =>
    (drafted left right threshold).Selects v (.signal s t) := by
  have hrole : ∀ s t, (drafted left right threshold).Selects v (.signal s t) →
      t < right.nSignals ∧ left.role s = right.role t := fun s t hS => by
    have hmentions : sameRole left right s t = true := (selects_paired hS).2
    simpa [sameRole] using hmentions
  constructor
  case functional => exact fun s t t' hS hS' => (eq_of_selects_signals h (.inl rfl) hS hS' rfl).2
  case injective => exact fun s s' t hS hS' => (eq_of_selects_signals h (.inr rfl) hS hS' rfl).1
  case right_lt => exact fun s t hS => (hrole s t hS).1
  case role => exact fun s t hS => (hrole s t hS).2

/-- The pairs that a model selects are a common part, which covers the constraints whose literals
hold. -/
theorem commonPart_of_holds : CommonPart left right ((drafted left right threshold).Selects v)
    (covered (withMatched left right threshold).1 v) := by
  have hcovered := forall₂_of_addMatched var_lt_of_mem_pairsByLeft
    ((grows_withMatched_drafted (Q := fun _ => True)).holds v h)
  obtain ⟨hlength, hcovered⟩ := forall₂_range_iff.1 hcovered
  constructor
  case signals => exact signalMatching_of_holds h
  case norms =>
    intro l r hS
    obtain ⟨hselects, shape, hmatch⟩ := selects_paired hS
    refine ⟨shape, hmatch, ?_⟩
    have hholds : shape.Holds fun s t => (paired left right).Selects v (.signal s t) :=
      Draft.holds_of_addNormPairs (grows_paired_drafted.holds (Q := fun _ => True) v h)
        (mem_matchablePairs.2 hmatch) hselects
    exact hholds.mono fun s t => (grows_paired_drafted (Q := fun _ => True)).selects
  case functional => exact fun l r r' hS hS' => (eq_of_selects_norms h (.inl rfl) hS hS' rfl).2
  case injective => exact fun l l' r hS hS' => (eq_of_selects_norms h (.inr rfl) hS hS' rfl).1
  case siblings =>
    have hagree := Draft.siblingsAgree_of_addSiblings wellFormed_withCounter h
    intro l r l' hS hlt horigin hne
    obtain ⟨r', hlt', horigin', hne', hS'⟩ := hagree l r l'
      (grows_paired_withCounter.selects (Q := fun _ => True) (selects_paired hS).1) hlt horigin hne
    exact ⟨r', hlt', horigin', hne', (grows_drafted (Q := fun _ => True)).selects hS'⟩
  case lt_nConstraints =>
    rintro k ⟨lit, hlit, -⟩
    exact hlength ▸ (List.getElem?_eq_some_iff.1 hlit).1
  case covers =>
    rintro k ⟨lit, hlit, hholds⟩ l hl
    obtain ⟨lit', hlit', hholds'⟩ := hcovered k lit hlit hholds l hl
    obtain ⟨r, ⟨shape, hmatch⟩, rfl⟩ := mem_pairsByLeft.1 hlit'
    exact ⟨r, (grows_paired_drafted (Q := fun _ => True)).selects
      ((Draft.holds_literalOf (binds_paired hmatch)).1 hholds')⟩

end Sound

/-! ## From common parts to models -/

section Complete

variable {S : PairVariable → Prop} {K : Set Nat} (h : CommonPart left right S K)

include h

theorem extensible_paired : Draft.empty.Extensible (paired left right) S v := by
  refine Draft.extensible_addNormPairs Draft.wellFormed_empty Draft.models_empty fun p hp hS => ?_
  obtain ⟨⟨l, r⟩, shape⟩ := p
  obtain ⟨shape', hmatch', hholds⟩ := h.norms l r hS
  rwa [(mem_matchablePairs.1 hp).shape_eq hmatch']

theorem extensible_withNorms (hmodels : (paired left right).Models S v) :
    (paired left right).Extensible (withNorms left right threshold) S v := by
  refine extensible_addGroups wellFormed_paired hmodels var_lt_of_mem_normGroups fun lits hlits => ?_
  have hnodup : ((matchablePairs left right left.normalize right.normalize).map
      fun p => normVariable p.1).Nodup := by
    have hmap := (nodup_matchablePairs left right).map normVariable_injective
    rwa [List.map_map] at hmap
  have hone : ∀ side : Nat × Nat → Nat, (∀ p q, side p = side q → S (normVariable p) →
      S (normVariable q) → p = q) → ∀ lits ∈ normGroups left right side, AtMostOneHolds v lits :=
    fun side hside => atMostOneHolds_literalGroups (fun _ hp => binds_of_mem_matchablePairs hp)
      hmodels hnodup fun p _ q _ heq hp hq => congrArg normVariable (hside p.1 q.1 heq hp hq)
  rcases List.mem_append.1 hlits with hlits | hlits
  · refine hone Prod.fst (fun p q heq hp hq => Prod.ext heq ?_) lits hlits
    exact h.functional _ _ _ hp (heq ▸ hq)
  · refine hone Prod.snd (fun p q heq hp hq => Prod.ext ?_ heq) lits hlits
    exact h.injective _ _ _ hp (heq ▸ hq)

theorem extensible_withSignals (hmodels : (withNorms left right threshold).Models S v) :
    (withNorms left right threshold).Extensible (withSignals left right threshold) S v := by
  refine extensible_addGroups wellFormed_withNorms hmodels var_lt_of_mem_signalGroups
    fun lits hlits => ?_
  have hone : ∀ side : Signal × Signal → Signal, (∀ p q, side p = side q → S (signalVariable p) →
      S (signalVariable q) → p = q) →
        ∀ lits ∈ signalGroups (withNorms left right threshold) side, AtMostOneHolds v lits :=
    fun side hside => atMostOneHolds_literalGroups (fun _ hp => binds_of_mem_boundSignals hp)
      hmodels (nodup_boundSignals wellFormed_withNorms) fun p _ q _ heq hp hq =>
        congrArg signalVariable (hside p q heq hp hq)
  rcases List.mem_append.1 hlits with hlits | hlits
  · refine hone Prod.fst (fun p q heq hp hq => Prod.ext heq ?_) lits hlits
    exact h.signals.functional _ _ _ hp (heq ▸ hq)
  · refine hone Prod.snd (fun p q heq hp hq => Prod.ext ?_ heq) lits hlits
    exact h.signals.injective _ _ _ hp (heq ▸ hq)

/-- The literals of the left constraints can be made to hold for exactly the covered ones. -/
theorem exists_withMatched (hmodels : (withSignals left right threshold).Models S v) :
    ∃ w, (withMatched left right threshold).2.Models S w ∧
      covered (withMatched left right threshold).1 w = K := by
  have hgrows : Draft.Grows (fun _ => True) (paired left right) (withSignals left right threshold) :=
    grows_withNorms.trans grows_withSignals
  obtain ⟨w, -, hmodels', hlits⟩ := exists_addMatched var_lt_of_mem_pairsByLeft
    (hgrows.wellFormed wellFormed_paired) hmodels K fun k (_ : k ∈ List.range left.nConstraints)
      hk l hl => by
      obtain ⟨r, hS⟩ := h.covers k hk l hl
      obtain ⟨shape, hmatch, -⟩ := h.norms l r hS
      refine ⟨_, mem_pairsByLeft.2 ⟨r, ⟨shape, hmatch⟩, rfl⟩, ?_⟩
      rw [← hgrows.literalOf (binds_paired hmatch)]
      exact (hmodels.holds_literalOf_iff (hgrows.binds_of_binds (binds_paired hmatch))).2 hS
  obtain ⟨hlength, hlits⟩ := forall₂_range_iff.1 hlits
  refine ⟨w, hmodels', Set.ext fun k => ⟨?_, fun hk => ?_⟩⟩
  · rintro ⟨lit, hlit, hholds⟩
    exact (hlits k lit hlit).1 hholds
  · have hlt := hlength ▸ h.lt_nConstraints k hk
    exact ⟨_, List.getElem?_eq_getElem hlt, (hlits k _ (List.getElem?_eq_getElem hlt)).2 hk⟩

/-- Every common part is selected by a model, whose counter shows the number of covered constraints. -/
theorem exists_of_commonPart : ∃ v, (drafted left right threshold).Holds v ∧
    Clause.allHold (counterOf left right threshold).2.1 v = true ∧
    Totalizer.Counts v (counterOf left right threshold).1
      (trueCount v (withMatched left right threshold).1) ∧
    covered (withMatched left right threshold).1 v = K := by
  obtain ⟨v, -, hpaired⟩ := extensible_paired (v := fun _ => false) h
  obtain ⟨v, -, hnorms⟩ : (paired left right).Extensible (withNorms left right threshold) S v :=
    extensible_withNorms h hpaired
  obtain ⟨v, -, hsignals⟩ := extensible_withSignals h hnorms
  obtain ⟨v, hmatched, hcovered⟩ := exists_withMatched h hsignals
  obtain ⟨w, hw, hcounts, hbounds⟩ := Totalizer.exists_ofLiterals v var_lt_of_mem_withMatched
  have hsame : ∀ lit ∈ (withMatched left right threshold).1, lit.holds w = lit.holds v :=
    fun lit hlit => Literal.holds_of_agreesBelow hw (var_lt_of_mem_withMatched lit hlit)
  have hwithMatched : (withMatched left right threshold).2.WellFormed :=
    (grows_withMatched (Q := fun _ => True)).wellFormed
      ((grows_withSignals (Q := fun _ => True)).wellFormed wellFormed_withNorms)
  have hcounter : (withCounter left right threshold).Models S w := by
    have hmodels := hmatched.of_agreesBelow hwithMatched hw
    exact ⟨fun p id hid => hmodels.follows p id ((Numbering.get?_skipTo _ _ _).symm.trans hid),
      hmodels.holds⟩
  have hbinds : ∀ l r, l < left.normalize.size → r < right.normalize.size → S (.norm l r) →
      (withCounter left right threshold).Binds (.norm l r) := fun l r _ _ hS => by
    obtain ⟨shape, hmatch, -⟩ := h.norms l r hS
    exact (grows_paired_withCounter (Q := fun _ => True)).binds_of_binds (binds_paired hmatch)
  refine ⟨w, (Draft.models_addSiblings wellFormed_withCounter hcounter h.siblings hbinds).holds,
    hbounds, ?_, ?_⟩
  · rwa [trueCount, List.countP_congr fun lit hlit => by rw [hsame lit hlit]]
  · rw [← hcovered]
    refine Set.ext fun k => exists_congr fun lit => and_congr_right fun hlit => ?_
    rw [hsame lit (List.mem_of_getElem? hlit)]

end Complete

/-! ## What the formula says -/

/-- A formula whose hard clauses describe common parts, and that counts the constraints they cover. -/
structure Describes (f : MaximalFormula) (left right : Circuit) (d : Draft) : Prop where
  hard : f.hard = d.clauses.toList
  vars : f.vars = d.vars
  functional : d.vars.IsFunctional
  length_counter : f.counter.length = left.nConstraints
  le_trueCount : ∀ v, Clause.allHold f.bounds v = true → ∀ n bound,
    Totalizer.atLeast? f.counter n = some bound → bound.holds v = true → n ≤ trueCount v f.matched
  commonPart : ∀ v, d.Holds v → CommonPart left right (d.Selects v) (covered f.matched v)
  exists_model : ∀ S K, CommonPart left right S K → ∃ v, d.Holds v ∧
    Clause.allHold f.bounds v = true ∧ Totalizer.Counts v f.counter (trueCount v f.matched) ∧
    covered f.matched v = K

theorem describes_ofCircuits (left right : Circuit) (threshold : Nat) :
    (ofCircuits left right left.normalize right.normalize threshold).Describes left right
      (drafted left right threshold) := by
  rw [ofCircuits_eq]
  constructor
  case hard => dsimp only
  case vars => dsimp only
  case functional => exact wellFormed_drafted.functional
  case length_counter =>
    rw [counterOf, Totalizer.length_ofLiterals, withMatched, length_addMatched, List.length_range]
  case le_trueCount => exact fun v hbounds n bound => Totalizer.le_trueCount hbounds
  case commonPart => exact fun v => commonPart_of_holds
  case exists_model => exact fun S K => exists_of_commonPart

/-- The counter has at least as many clauses as there are pairs of different left constraints. -/
theorem sq_nConstraints_le (left right : Circuit) (threshold : Nat) :
    left.nConstraints ^ 2 ≤ left.nConstraints + 2 *
      (ofCircuits left right left.normalize right.normalize threshold).bounds.length := by
  have hlength : (withMatched left right threshold).1.length = left.nConstraints := by
    rw [withMatched, length_addMatched, List.length_range]
  have hsquare := Totalizer.sq_length_le (withMatched left right threshold).1
    (withMatched left right threshold).2.vars.nextId
  rw [hlength] at hsquare
  rw [ofCircuits_eq]
  exact hsquare

end MaximalFormula

end CircuitEquiv
