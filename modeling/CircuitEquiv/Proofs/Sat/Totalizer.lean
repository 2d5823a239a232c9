-- SUMMARY: The outputs of a totalizer count its inputs in unary.
import CircuitEquiv.Proofs.Sat.Cardinality
import CircuitEquiv.Sat.Totalizer
import Mathlib.Algebra.Order.BigOperators.Group.List
import Mathlib.Data.List.Forall2
import Mathlib.Tactic.Ring

/-!
# Correctness of the totalizer

Where the clauses of a totalizer hold, the outputs count the inputs; and every assignment of the inputs
extends to one under which the clauses hold. Both are kept by merging two counters, which adds up what
they count.
-/

namespace CircuitEquiv

/-- The number of literals that hold. -/
def trueCount (v : Nat → Bool) (lits : List Literal) : Nat := lits.countP fun l => l.holds v

namespace Totalizer

variable {v w : Nat → Bool} {a b outputs : List Literal} {c d i j k next : Nat} {l : Literal}
  {queue : List (List Literal)} {clauses : List Clause}

/-! ## Outputs -/

theorem atLeast?_eq_some_iff :
    atLeast? outputs k = some l ↔ 0 < k ∧ outputs[k - 1]? = some l := by
  cases k with
  | zero => simp [atLeast?]
  | succ k => simp [atLeast?]

theorem le_length_of_atLeast? (h : atLeast? outputs k = some l) : k ≤ outputs.length := by
  obtain ⟨hpos, hget⟩ := atLeast?_eq_some_iff.1 h
  have := (List.getElem?_eq_some_iff.1 hget).1
  omega

theorem exists_atLeast? (hpos : 0 < k) (hk : k ≤ outputs.length) :
    ∃ l, atLeast? outputs k = some l :=
  ⟨outputs.get ⟨k - 1, by omega⟩, atLeast?_eq_some_iff.2 ⟨hpos, List.getElem?_eq_getElem _⟩⟩

theorem mem_of_atLeast? (h : atLeast? outputs k = some l) : l ∈ outputs :=
  List.mem_of_getElem? (atLeast?_eq_some_iff.1 h).2

/-- Outputs that hold bound the count from below. -/
structure Bounds (v : Nat → Bool) (outputs : List Literal) (c : Nat) : Prop where
  le_length : c ≤ outputs.length
  le_of_holds : ∀ k l, atLeast? outputs k = some l → l.holds v = true → k ≤ c

/-- The outputs hold that the count reaches. -/
structure Counts (v : Nat → Bool) (outputs : List Literal) (c : Nat) : Prop where
  le_length : c ≤ outputs.length
  holds_iff : ∀ k l, atLeast? outputs k = some l → (l.holds v = true ↔ k ≤ c)

theorem Counts.bounds (h : Counts v outputs c) : Bounds v outputs c :=
  ⟨h.le_length, fun k l hk hl => (h.holds_iff k l hk).1 hl⟩

theorem counts_singleton (v : Nat → Bool) (l : Literal) : Counts v [l] (l.holds v).toNat := by
  refine ⟨by cases l.holds v <;> simp, fun k m hk => ?_⟩
  have hle := le_length_of_atLeast? hk
  obtain ⟨hpos, hget⟩ := atLeast?_eq_some_iff.1 hk
  obtain rfl : k = 1 := by
    rw [List.length_singleton] at hle
    omega
  obtain rfl : l = m := by simpa using hget
  cases l.holds v <;> simp

theorem Counts.of_agreesBelow (h : Counts v outputs c) (hw : AgreesBelow next v w)
    (hvars : ∀ l ∈ outputs, l.var < next) : Counts w outputs c := by
  refine ⟨h.le_length, fun k l hk => ?_⟩
  rw [Literal.holds_of_agreesBelow hw (hvars l (mem_of_atLeast? hk))]
  exact h.holds_iff k l hk

theorem Counts.exists_holds (h : Counts v outputs c) (hpos : 0 < k) (hk : k ≤ c) :
    ∃ l, atLeast? outputs k = some l ∧ l.holds v = true := by
  obtain ⟨l, hl⟩ := exists_atLeast? hpos (hk.trans h.le_length)
  exact ⟨l, hl, (h.holds_iff k l hl).2 hk⟩

theorem Counts.exists_not_holds (h : Counts v outputs c) (hc : c < k) (hk : k ≤ outputs.length) :
    ∃ l, atLeast? outputs k = some l ∧ l.holds v = false := by
  obtain ⟨l, hl⟩ := exists_atLeast? (Nat.zero_lt_of_lt hc) hk
  refine ⟨l, hl, ?_⟩
  rw [← Bool.not_eq_true, h.holds_iff k l hl]
  omega

/-! ## Merging -/

theorem atLeast?_merge_eq_some_iff : atLeast? (merge a b next).1 k = some l ↔
    0 < k ∧ k ≤ a.length + b.length ∧ l = .positive (next + (k - 1)) := by
  rw [atLeast?_eq_some_iff, List.getElem?_eq_some_iff]
  simp only [merge, List.length_map, List.length_range, List.getElem_map, List.getElem_range]
  constructor
  · rintro ⟨hpos, hlt, rfl⟩
    exact ⟨hpos, by omega, rfl⟩
  · rintro ⟨hpos, hle, rfl⟩
    exact ⟨hpos, by omega, rfl⟩

theorem length_merge (a b : List Literal) (next : Nat) :
    (merge a b next).1.length = a.length + b.length := by simp [merge]

theorem var_lt_of_mem_merge (hl : l ∈ (merge a b next).1) :
    l.var < next + (merge a b next).1.length := by
  rw [length_merge]
  simp only [merge, List.mem_map, List.mem_range] at hl
  obtain ⟨k, hk, rfl⟩ := hl
  exact Nat.add_lt_add_left hk next

theorem mem_clauses_merge {cl : Clause} : cl ∈ (merge a b next).2 ↔
    ∃ i ≤ a.length, ∃ j ≤ b.length, cl ∈ sumClauses a b (merge a b next).1 i j := by
  simp only [merge, List.mem_flatMap, List.mem_range, Nat.lt_succ_iff]

theorem holds_append {cl cl' : Clause} :
    Clause.holds (cl ++ cl') v = true ↔ cl.holds v = true ∨ cl'.holds v = true := by
  simp [Clause.holds]

theorem holds_toList {o : Option Literal} :
    Clause.holds o.toList v = true ↔ ∃ l, o = some l ∧ l.holds v = true := by
  cases o <;> simp [Clause.holds]

theorem holds_map_negate {o : Option Literal} :
    Clause.holds (o.toList.map Literal.negate) v = true ↔ ∃ l, o = some l ∧ l.holds v = false := by
  cases o <;> simp [Clause.holds]

/-- An output of the sum that holds is reached: the clause of the largest parts that the summands may
count up to would fail otherwise. -/
theorem bounds_merge (ha : Bounds v a c) (hb : Bounds v b d)
    (h : Clause.allHold (merge a b next).2 v = true) :
    Bounds v (merge a b next).1 (c + d) := by
  have hc := ha.le_length
  have hd := hb.le_length
  refine ⟨by rw [length_merge]; omega, fun k l hk hl => ?_⟩
  by_contra hlt
  have hlength := le_length_of_atLeast? hk
  rw [length_merge] at hlength
  obtain ⟨i, j, hi, hj, hci, hdj, hij⟩ : ∃ i j, i ≤ a.length ∧ j ≤ b.length ∧ c ≤ i ∧ d ≤ j ∧
      i + j + 1 = k :=
    ⟨min a.length (k - 1 - d), k - 1 - min a.length (k - 1 - d), by omega, by omega, by omega,
      by omega, by omega⟩
  have hupper := Clause.allHold_iff.1 h _ (mem_clauses_merge.2 ⟨i, hi, j, hj,
    List.mem_append_right _ (by rw [if_pos (by omega)]; exact List.mem_singleton_self _)⟩)
  rw [holds_append, holds_append, holds_toList, holds_toList, holds_map_negate, hij] at hupper
  rcases hupper with (⟨l', hl', hholds⟩ | ⟨l', hl', hholds⟩) | ⟨l', hl', hholds⟩
  · have := ha.le_of_holds _ _ hl' hholds
    omega
  · have := hb.le_of_holds _ _ hl' hholds
    omega
  · rw [hk, Option.some_inj] at hl'
    rw [hl', hholds] at hl
    cases hl

/-- Merging adds up what two counters count. An output that is reached holds: the clause of two parts that
the summands reach would fail otherwise. -/
theorem counts_merge (ha : Counts v a c) (hb : Counts v b d)
    (h : Clause.allHold (merge a b next).2 v = true) :
    Counts v (merge a b next).1 (c + d) := by
  have hbounds := bounds_merge ha.bounds hb.bounds h
  refine ⟨hbounds.le_length, fun k l hk => ⟨hbounds.le_of_holds k l hk, ?_⟩⟩
  intro hle
  obtain ⟨hpos, -⟩ := atLeast?_eq_some_iff.1 hk
  obtain ⟨i, j, hi, hj, rfl⟩ : ∃ i j, i ≤ c ∧ j ≤ d ∧ i + j = k :=
    ⟨min c k, k - min c k, by omega, by omega, by omega⟩
  have hlower := Clause.allHold_iff.1 h _ (mem_clauses_merge.2 ⟨i, hi.trans ha.le_length, j,
    hj.trans hb.le_length,
    List.mem_append_left _ (by rw [if_pos hpos]; exact List.mem_singleton_self _)⟩)
  simp only [holds_append, holds_map_negate, holds_toList] at hlower
  rcases hlower with (⟨l', hl', hfails⟩ | ⟨l', hl', hfails⟩) | ⟨l', hl', hholds⟩
  · simp [(ha.holds_iff i l' hl').2 hi] at hfails
  · simp [(hb.holds_iff j l' hl').2 hj] at hfails
  · simp only [hk, Option.some_inj] at hl'
    simpa [hl'] using hholds

/-- At least `i` and at least `j` make at least `i + j`. -/
theorem holds_lower (ha : Counts v a c) (hb : Counts v b d) (hout : Counts v outputs (c + d))
    (hi : i ≤ a.length) (hj : j ≤ b.length) (hpos : 0 < i + j) :
    Clause.holds ((atLeast? a i).toList.map Literal.negate ++
      (atLeast? b j).toList.map Literal.negate ++ (atLeast? outputs (i + j)).toList) v = true := by
  rw [holds_append, holds_append, holds_map_negate, holds_map_negate, holds_toList]
  rcases Nat.lt_or_ge c i with hc | hc
  · exact Or.inl (Or.inl (ha.exists_not_holds hc hi))
  rcases Nat.lt_or_ge d j with hd | hd
  · exact Or.inl (Or.inr (hb.exists_not_holds hd hj))
  · exact Or.inr (hout.exists_holds hpos (Nat.add_le_add hc hd))

/-- At most `i` and at most `j` make at most `i + j`. -/
theorem holds_upper (ha : Counts v a c) (hb : Counts v b d) (hout : Counts v outputs (c + d))
    (hlt : i + j < outputs.length) :
    Clause.holds ((atLeast? a (i + 1)).toList ++ (atLeast? b (j + 1)).toList ++
      (atLeast? outputs (i + j + 1)).toList.map Literal.negate) v = true := by
  rw [holds_append, holds_append, holds_toList, holds_toList, holds_map_negate]
  rcases Nat.lt_or_ge i c with hc | hc
  · exact Or.inl (Or.inl (ha.exists_holds (Nat.succ_pos i) hc))
  rcases Nat.lt_or_ge j d with hd | hd
  · exact Or.inl (Or.inr (hb.exists_holds (Nat.succ_pos j) hd))
  · exact Or.inr (hout.exists_not_holds (by omega) hlt)

/-- The clauses hold where the outputs count the sum. -/
theorem allHold_merge (ha : Counts v a c) (hb : Counts v b d)
    (hout : Counts v (merge a b next).1 (c + d)) : Clause.allHold (merge a b next).2 v = true := by
  rw [Clause.allHold_iff]
  intro cl hcl
  obtain ⟨i, hi, j, hj, hcl⟩ := mem_clauses_merge.1 hcl
  rcases List.mem_append.1 hcl with hcl | hcl
  · split at hcl
    case isFalse => cases hcl
    case isTrue hpos =>
      obtain rfl := List.mem_singleton.1 hcl
      exact holds_lower ha hb hout hi hj hpos
  · split at hcl
    case isFalse => cases hcl
    case isTrue hlt =>
      obtain rfl := List.mem_singleton.1 hcl
      exact holds_upper ha hb hout (by rwa [length_merge])

/-- The fresh outputs can be chosen so that they count the sum. -/
theorem exists_merge (ha : Counts v a c) (hb : Counts v b d) (havars : ∀ l ∈ a, l.var < next)
    (hbvars : ∀ l ∈ b, l.var < next) :
    ∃ w, AgreesBelow next v w ∧ Counts w (merge a b next).1 (c + d) ∧
      Clause.allHold (merge a b next).2 w = true := by
  let w : Nat → Bool := fun n => if n < next then v n else decide (n < next + (c + d))
  have hw : AgreesBelow next v w := fun n hn => if_pos hn
  have hsum : Counts w (merge a b next).1 (c + d) := by
    refine ⟨?_, fun k l hk => ?_⟩
    · rw [length_merge]
      exact Nat.add_le_add ha.le_length hb.le_length
    · obtain ⟨hpos, -, rfl⟩ := atLeast?_merge_eq_some_iff.1 hk
      simp only [Literal.holds_positive, w]
      rw [if_neg (by omega), decide_eq_true_eq]
      omega
  exact ⟨w, hw, hsum, allHold_merge (ha.of_agreesBelow hw havars) (hb.of_agreesBelow hw hbvars) hsum⟩

theorem exists_mem_of_mem_sumClauses {cl : Clause} (hcl : cl ∈ sumClauses a b outputs i j)
    (hl : l ∈ cl) : ∃ l' ∈ a ++ b ++ outputs, l.var = l'.var := by
  have hmem : ∀ {lits : List Literal} {k : Nat} {l' : Literal}, atLeast? lits k = some l' → l' ∈ lits :=
    mem_of_atLeast?
  rcases List.mem_append.1 hcl with hcl | hcl
  · split at hcl
    case isFalse => cases hcl
    case isTrue =>
      obtain rfl := List.mem_singleton.1 hcl
      simp only [List.mem_append, List.mem_map, Option.mem_toList] at hl ⊢
      rcases hl with (⟨l', hl', rfl⟩ | ⟨l', hl', rfl⟩) | hl
      · exact ⟨l', Or.inl (Or.inl (hmem hl')), rfl⟩
      · exact ⟨l', Or.inl (Or.inr (hmem hl')), rfl⟩
      · exact ⟨l, Or.inr (hmem hl), rfl⟩
  · split at hcl
    case isFalse => cases hcl
    case isTrue =>
      obtain rfl := List.mem_singleton.1 hcl
      simp only [List.mem_append, List.mem_map, Option.mem_toList] at hl ⊢
      rcases hl with (hl | hl) | ⟨l', hl', rfl⟩
      · exact ⟨l, Or.inl (Or.inl (hmem hl)), rfl⟩
      · exact ⟨l, Or.inl (Or.inr (hmem hl)), rfl⟩
      · exact ⟨l', Or.inr (hmem hl'), rfl⟩

theorem allBelow_merge (havars : ∀ l ∈ a, l.var < next) (hbvars : ∀ l ∈ b, l.var < next) :
    Clause.AllBelow (next + (merge a b next).1.length) (merge a b next).2 := by
  intro cl hcl l hl
  obtain ⟨i, -, j, -, hcl⟩ := mem_clauses_merge.1 hcl
  obtain ⟨l', hl', heq⟩ := exists_mem_of_mem_sumClauses hcl hl
  rw [heq]
  rcases List.mem_append.1 hl' with hl' | hl'
  · rcases List.mem_append.1 hl' with hl' | hl'
    · exact Nat.lt_add_right _ (havars l' hl')
    · exact Nat.lt_add_right _ (hbvars l' hl')
  · exact var_lt_of_mem_merge hl'

/-! ## The whole counter -/

theorem mergeAll_cons_cons (a b : List Literal) (rest : List (List Literal)) (clauses : List Clause)
    (next : Nat) : mergeAll (a :: b :: rest) clauses next =
      mergeAll (rest ++ [(merge a b next).1]) (clauses ++ (merge a b next).2)
        (next + (merge a b next).1.length) := by
  rw [mergeAll]

theorem allHold_of_mergeAll (h : Clause.allHold (mergeAll queue clauses next).2.1 v = true) :
    Clause.allHold clauses v = true := by
  induction queue, clauses, next using mergeAll.induct with
  | case1 clauses next => simpa [mergeAll] using h
  | case2 clauses next outputs => simpa [mergeAll] using h
  | case3 clauses next a b rest out added hmerge ih =>
    obtain ⟨rfl, rfl⟩ := Prod.ext_iff.1 hmerge
    rw [mergeAll_cons_cons] at h
    exact (Clause.allHold_append.1 (ih h)).1

theorem sum_merged (c d : Nat) (cs : List Nat) : (c :: d :: cs).sum = (cs ++ [c + d]).sum := by
  rw [List.sum_append, List.sum_singleton, List.sum_cons, List.sum_cons]
  omega

/-- The last counter counts the sum of what the counters of the queue count. -/
theorem counts_mergeAll {cs : List Nat} (hqueue : List.Forall₂ (Counts v) queue cs)
    (h : Clause.allHold (mergeAll queue clauses next).2.1 v = true) :
    Counts v (mergeAll queue clauses next).1 cs.sum := by
  induction queue, clauses, next using mergeAll.induct generalizing cs with
  | case1 clauses next =>
    obtain rfl := List.forall₂_nil_left_iff.1 hqueue
    exact ⟨by simp, by simp [mergeAll, atLeast?_eq_some_iff]⟩
  | case2 clauses next outputs =>
    obtain ⟨c, cs, hc, hcs, rfl⟩ := List.forall₂_cons_left_iff.1 hqueue
    obtain rfl := List.forall₂_nil_left_iff.1 hcs
    simpa [mergeAll] using hc
  | case3 clauses next a b rest out added hmerge ih =>
    obtain ⟨rfl, rfl⟩ := Prod.ext_iff.1 hmerge
    obtain ⟨c, cs, hc, hcs, rfl⟩ := List.forall₂_cons_left_iff.1 hqueue
    obtain ⟨d, cs, hd, hrest, rfl⟩ := List.forall₂_cons_left_iff.1 hcs
    rw [mergeAll_cons_cons] at h ⊢
    have hmerged := counts_merge hc hd (Clause.allHold_append.1 (allHold_of_mergeAll h)).2
    have hsum := ih (List.rel_append hrest (.cons hmerged .nil)) h
    rwa [sum_merged]

theorem length_mergeAll (queue : List (List Literal)) (clauses : List Clause) (next : Nat) :
    (mergeAll queue clauses next).1.length = (queue.map List.length).sum := by
  induction queue, clauses, next using mergeAll.induct with
  | case1 clauses next => simp [mergeAll]
  | case2 clauses next outputs => simp [mergeAll]
  | case3 clauses next a b rest out added hmerge ih =>
    obtain ⟨rfl, rfl⟩ := Prod.ext_iff.1 hmerge
    rw [mergeAll_cons_cons, ih]
    simp only [List.map_append, List.map_cons, List.map_nil, List.sum_append, List.sum_cons,
      List.sum_nil, length_merge]
    omega

/-- The variables of a counter lie below the next free one. -/
theorem allBelow_mergeAll (hqueue : ∀ q ∈ queue, ∀ l ∈ q, l.var < next)
    (hclauses : Clause.AllBelow next clauses) :
    next ≤ (mergeAll queue clauses next).2.2 ∧
      Clause.AllBelow (mergeAll queue clauses next).2.2 (mergeAll queue clauses next).2.1 ∧
      ∀ l ∈ (mergeAll queue clauses next).1, l.var < (mergeAll queue clauses next).2.2 := by
  induction queue, clauses, next using mergeAll.induct with
  | case1 clauses next => simpa [mergeAll] using hclauses
  | case2 clauses next outputs =>
    simp only [mergeAll]
    exact ⟨le_rfl, hclauses, hqueue outputs (List.mem_singleton_self _)⟩
  | case3 clauses next a b rest out added hmerge ih =>
    obtain ⟨rfl, rfl⟩ := Prod.ext_iff.1 hmerge
    simp only [List.forall_mem_cons] at hqueue
    obtain ⟨ha, hb, hrest⟩ := hqueue
    have hle : next ≤ next + (merge a b next).1.length := Nat.le_add_right _ _
    have hqueue : ∀ q ∈ rest ++ [(merge a b next).1], ∀ l ∈ q,
        l.var < next + (merge a b next).1.length := by
      rw [List.forall_mem_append, List.forall_mem_singleton]
      exact ⟨fun q hq l hl => Nat.lt_add_right _ (hrest q hq l hl), fun l => var_lt_of_mem_merge⟩
    obtain ⟨hnext, hbelow⟩ := ih hqueue ((hclauses.mono hle).append (allBelow_merge ha hb))
    rw [mergeAll_cons_cons]
    exact ⟨hle.trans hnext, hbelow⟩

/-- The fresh outputs can be chosen so that the last counter counts what the counters of the queue count
together. -/
theorem exists_mergeAll {cs : List Nat} (hclauses : Clause.AllBelow next clauses)
    (hholds : Clause.allHold clauses v = true)
    (hqueue : List.Forall₂ (fun q c => Counts v q c ∧ ∀ l ∈ q, l.var < next) queue cs) :
    ∃ w, AgreesBelow next v w ∧ Counts w (mergeAll queue clauses next).1 cs.sum ∧
      Clause.allHold (mergeAll queue clauses next).2.1 w = true := by
  induction queue, clauses, next using mergeAll.induct generalizing cs v with
  | case1 clauses next =>
    obtain rfl := List.forall₂_nil_left_iff.1 hqueue
    refine ⟨v, AgreesBelow.refl _ _, ⟨by simp, by simp [mergeAll, atLeast?_eq_some_iff]⟩, ?_⟩
    simpa [mergeAll] using hholds
  | case2 clauses next outputs =>
    obtain ⟨c, cs, ⟨hc, -⟩, hcs, rfl⟩ := List.forall₂_cons_left_iff.1 hqueue
    obtain rfl := List.forall₂_nil_left_iff.1 hcs
    exact ⟨v, AgreesBelow.refl _ _, by simpa [mergeAll] using hc, by simpa [mergeAll] using hholds⟩
  | case3 clauses next a b rest out added hmerge ih =>
    obtain ⟨rfl, rfl⟩ := Prod.ext_iff.1 hmerge
    obtain ⟨c, cs, ⟨hc, havars⟩, hcs, rfl⟩ := List.forall₂_cons_left_iff.1 hqueue
    obtain ⟨d, cs, ⟨hd, hbvars⟩, hrest, rfl⟩ := List.forall₂_cons_left_iff.1 hcs
    have hle : next ≤ next + (merge a b next).1.length := Nat.le_add_right _ _
    obtain ⟨u, hu, hsum, hmerged⟩ := exists_merge hc hd havars hbvars
    have hrest' : List.Forall₂ (fun q c => Counts u q c ∧
        ∀ l ∈ q, l.var < next + (merge a b next).1.length) rest cs :=
      hrest.imp fun q c hq => ⟨hq.1.of_agreesBelow hu hq.2, fun l hl => Nat.lt_add_right _ (hq.2 l hl)⟩
    obtain ⟨w, hw, hcounts, hall⟩ := ih ((hclauses.mono hle).append (allBelow_merge havars hbvars))
      (Clause.allHold_append.2 ⟨by rwa [Clause.allHold_of_agreesBelow hu hclauses], hmerged⟩)
      (List.rel_append hrest' (.cons ⟨hsum, fun l => var_lt_of_mem_merge⟩ .nil))
    rw [mergeAll_cons_cons]
    refine ⟨w, hu.trans hw hle, ?_, hall⟩
    rwa [sum_merged]

/-- Merging two counters takes a clause for every two of their outputs. -/
theorem length_mul_length_le (a b : List Literal) (next : Nat) :
    a.length * b.length ≤ (merge a b next).2.length := by
  rcases Nat.eq_zero_or_pos a.length with ha | ha
  · rw [ha, Nat.zero_mul]
    exact Nat.zero_le _
  have hone : ∀ i j, 1 ≤ (sumClauses a b (merge a b next).1 i j).length := by
    intro i j
    rw [sumClauses, List.length_append]
    rcases Nat.eq_zero_or_pos (i + j) with hij | hij
    · rw [if_pos (show i + j < a.length + b.length by omega)]
      exact Nat.le_add_left _ _
    · rw [if_pos hij]
      exact Nat.le_add_right _ _
  have hrow : ∀ i, b.length + 1 ≤ ((List.range (b.length + 1)).flatMap fun j =>
      sumClauses a b (merge a b next).1 i j).length := by
    intro i
    have hsum := List.card_nsmul_le_sum ((List.range (b.length + 1)).map fun j =>
      (sumClauses a b (merge a b next).1 i j).length) 1 (by simpa using fun j _ => hone i j)
    simpa [List.length_flatMap] using hsum
  have hsum := List.card_nsmul_le_sum ((List.range (a.length + 1)).map fun i =>
    ((List.range (b.length + 1)).flatMap fun j => sumClauses a b (merge a b next).1 i j).length)
      (b.length + 1) (by simpa using fun i _ => hrow i)
  calc a.length * b.length ≤ (a.length + 1) * (b.length + 1) :=
        Nat.mul_le_mul (Nat.le_succ _) (Nat.le_succ _)
    _ ≤ (merge a b next).2.length := by
        simpa [merge, List.length_flatMap] using hsum

/-- The clauses are as many as the pairs of inputs: every two inputs are first counted together by one
merge. -/
theorem sum_sq_le (queue : List (List Literal)) (clauses : List Clause) (next : Nat) :
    (queue.map List.length).sum ^ 2 + 2 * clauses.length ≤
      (queue.map fun q => q.length ^ 2).sum + 2 * (mergeAll queue clauses next).2.1.length := by
  induction queue, clauses, next using mergeAll.induct with
  | case1 clauses next => simp [mergeAll]
  | case2 clauses next outputs => simp [mergeAll]
  | case3 clauses next a b rest out added hmerge ih =>
    obtain ⟨rfl, rfl⟩ := Prod.ext_iff.1 hmerge
    rw [mergeAll_cons_cons]
    have hpairs := length_mul_length_le a b next
    simp only [List.map_append, List.map_cons, List.map_nil, List.sum_append, List.sum_cons,
      List.sum_nil, length_merge, List.length_append] at ih ⊢
    rw [show a.length + (b.length + (rest.map List.length).sum) =
      (rest.map List.length).sum + (a.length + b.length + 0) by omega]
    have hsquare : (a.length + b.length) ^ 2 =
        a.length ^ 2 + b.length ^ 2 + 2 * (a.length * b.length) := by ring
    omega

/-! ## The counter of a list of literals -/

variable {lits : List Literal}

theorem sum_toNat_holds (v : Nat → Bool) (lits : List Literal) :
    (lits.map fun l => (l.holds v).toNat).sum = trueCount v lits := by
  induction lits with
  | nil => rfl
  | cons l rest ih =>
    rw [List.map_cons, List.sum_cons, ih, trueCount, trueCount, List.countP_cons]
    cases l.holds v <;> simp [Nat.add_comm]

theorem forall₂_singletons {R : List Literal → Nat → Prop}
    (h : ∀ l ∈ lits, R [l] (l.holds v).toNat) :
    List.Forall₂ R (lits.map ([·])) (lits.map fun l => (l.holds v).toNat) := by
  rw [List.forall₂_map_left_iff, List.forall₂_map_right_iff, List.forall₂_same]
  exact h

theorem length_ofLiterals (lits : List Literal) (next : Nat) :
    (ofLiterals lits next).1.length = lits.length := by
  simp [ofLiterals, length_mergeAll, Function.comp_def]

/-- Where the clauses hold, the outputs count the literals. -/
theorem counts_ofLiterals (h : Clause.allHold (ofLiterals lits next).2.1 v = true) :
    Counts v (ofLiterals lits next).1 (trueCount v lits) := by
  rw [← sum_toNat_holds]
  exact counts_mergeAll (forall₂_singletons fun l _ => counts_singleton v l) h

/-- Where the clauses hold, an output holds only if as many literals do. -/
theorem le_trueCount (h : Clause.allHold (ofLiterals lits next).2.1 v = true)
    (hk : atLeast? (ofLiterals lits next).1 k = some l) (hl : l.holds v = true) :
    k ≤ trueCount v lits := ((counts_ofLiterals h).holds_iff k l hk).1 hl

theorem allBelow_ofLiterals (hlits : ∀ l ∈ lits, l.var < next) :
    Clause.AllBelow (ofLiterals lits next).2.2 (ofLiterals lits next).2.1 :=
  (allBelow_mergeAll (by simpa using hlits) (by simp [Clause.AllBelow])).2.1

/-- The outputs can be chosen so that they count the literals. -/
theorem exists_ofLiterals (v : Nat → Bool) (hlits : ∀ l ∈ lits, l.var < next) :
    ∃ w, AgreesBelow next v w ∧ Counts w (ofLiterals lits next).1 (trueCount v lits) ∧
      Clause.allHold (ofLiterals lits next).2.1 w = true := by
  rw [← sum_toNat_holds]
  exact exists_mergeAll (by simp [Clause.AllBelow]) rfl
    (forall₂_singletons fun l hl => ⟨counts_singleton v l, by simpa using hlits l hl⟩)

theorem sq_length_le (lits : List Literal) (next : Nat) :
    lits.length ^ 2 ≤ lits.length + 2 * (ofLiterals lits next).2.1.length := by
  simpa [ofLiterals, Function.comp_def] using sum_sq_le (lits.map ([·])) [] next

end Totalizer

end CircuitEquiv
