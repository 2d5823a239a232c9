-- SUMMARY: Which constraints set two signals equal, and what is left of a circuit without them.
import CircuitEquiv.Clustering.SignalEquivalence
import CircuitEquiv.Proofs.Clustering.Graph
import CircuitEquiv.Proofs.Constraint.Canonical
import CircuitEquiv.Proofs.Constraint.Satisfaction

/-!
# Signal equivalences

A linear constraint says that a sum of terms and a constant vanish. With two terms whose coefficients
cancel it fixes the difference of the two signals, and a nonzero factor changes neither the difference
nor whether it is recognised. Taking such constraints out leaves components of the others; every
constraint taken out is a part of its own.
-/

namespace CircuitEquiv

/-! ## Linear constraints -/

namespace Terms

variable {κ : Type} [Ord κ] [Std.LawfulEqOrd κ] [DecidableEq κ] {F : PrimeField}

theorem filter_entries_eq (t : SortedMap κ Nat) (k : κ) :
    (t.entries.filter fun e => e.1 = k) = (t.get? k).toList.map fun v => (k, v) := by
  cases hk : t.get? k with
  | none =>
    refine List.filter_eq_nil_iff.2 fun e he heq => ?_
    exact SortedMap.get?_eq_none_iff.1 hk (of_decide_eq_true heq ▸ List.mem_map_of_mem he)
  | some v =>
    refine List.perm_singleton.1 ((List.perm_ext_iff_of_nodup (t.nodup_entries.filter _)
      (List.nodup_singleton _)).2 fun e => ?_)
    rw [List.mem_filter, List.mem_singleton, decide_eq_true_eq]
    constructor
    · rintro ⟨he, rfl⟩
      have hget := SortedMap.get?_eq_some_iff.2 he
      exact Prod.ext rfl (Option.some.inj (hget.symm.trans hk))
    · rintro rfl
      exact ⟨SortedMap.get?_eq_some_iff.1 hk, rfl⟩

/-- One term can be split off the value of a linear combination. -/
theorem value_eq_value_erase_add (t : SortedMap κ Nat) (k : κ) (x : κ → ZMod F.modulus) :
    value t x = value (t.erase k) x + t.getD k 0 * x k := by
  have hperm := (List.filter_append_perm (fun e : κ × Nat => decide (e.1 = k)) t.entries).map
    fun e => (e.2 : ZMod F.modulus) * x e.1
  have herase : (t.erase k).entries = t.entries.filter fun e => !decide (e.1 = k) := by
    rw [SortedMap.entries_erase]
    exact List.filter_congr fun e _ => decide_not
  rw [value, value, herase, ← hperm.sum_eq, List.map_append, List.sum_append, filter_entries_eq,
    add_comm, SortedMap.getD]
  cases t.get? k <;> simp

theorem entries_erase_scale (t : SortedMap κ Nat) (k : κ) (d : Nat) :
    ((scale F t d).erase k).entries = (t.erase k).entries.map fun e => (e.1, F.mul e.2 d) := by
  rw [SortedMap.entries_erase, SortedMap.entries_erase, scale, SortedMap.mapValues, List.filter_map]
  rfl

end Terms

namespace Constraint

variable {F : PrimeField} {c d : Constraint} {relaxed : Bool} {x y : Signal}

/-- The terms of a linear constraint on other signals than the constant one. -/
def linearTerms : Constraint → Terms
  | .r1cs r => r.c.erase constantSignal
  | .acir p => p.linear

/-- The constant of a linear constraint. -/
def constantTerm : Constraint → Nat
  | .r1cs r => r.c.getD constantSignal 0
  | .acir p => p.constant

/-- Whether a linear constraint states a constant. -/
def hasConstant : Constraint → Bool
  | .r1cs r => r.c.contains constantSignal
  | .acir p => p.constant != 0

theorem constantTerm_eq_zero (h : c.hasConstant = false) : c.constantTerm = 0 := by
  cases c with
  | r1cs r =>
    have hnone : r.c.get? constantSignal = none :=
      Option.isNone_iff_eq_none.1 (Option.isSome_eq_false_iff.1 h)
    rw [constantTerm, SortedMap.getD, hnone, Option.getD_none]
  | acir p => exact of_not_not fun hne => Bool.noConfusion (h.symm.trans (bne_iff_ne.2 hne))

/-- What is recognised of the terms of a constraint: just two, which cancel. -/
theorem recognised_eq_some_iff (isLinear hasConstant : Bool) (terms : Terms) :
    (if !isLinear || (hasConstant && !relaxed) then none
      else match terms.entries with
        | [(x, u), (y, v)] => if F.add u v = 0 then some (x, y) else none
        | _ => none) = some (x, y) ↔
      (!isLinear) = false ∧ (hasConstant = true → relaxed = true) ∧
        ∃ u v, terms.entries = [(x, u), (y, v)] ∧ F.add u v = 0 := by
  cases isLinear with
  | false => simp
  | true =>
    have hcondition : (!true || (hasConstant && !relaxed)) = true ↔
        ¬(hasConstant = true → relaxed = true) := by
      cases hasConstant <;> cases relaxed <;> decide
    by_cases hconstant : hasConstant = true → relaxed = true
    · rw [if_neg (fun h => hcondition.1 h hconstant)]
      simp only [Bool.not_true, true_and, and_iff_right hconstant]
      split
      · rename_i x' u v y' hentries
        simp only [hentries, List.cons.injEq, Prod.mk.injEq, and_true]
        split <;> simp_all
      · rename_i hother
        simp only [reduceCtorEq, false_iff, not_exists]
        rintro u v ⟨hentries, -⟩
        exact hother x u y v hentries
    · rw [if_pos (hcondition.2 hconstant)]
      simp [hconstant]

/-- What is recognised: a linear constraint with two terms that cancel, and without a constant unless this
is let pass. -/
theorem signalEquivalence?_eq_some_iff : c.signalEquivalence? F relaxed = some (x, y) ↔
    c.isNonlinear = false ∧ (c.hasConstant = true → relaxed = true) ∧
      ∃ u v, c.linearTerms.entries = [(x, u), (y, v)] ∧ F.add u v = 0 := by
  cases c with
  | r1cs r => exact recognised_eq_some_iff r.isLinear _ _
  | acir p =>
    refine (recognised_eq_some_iff (!p.isNonlinear) _ _).trans ?_
    rw [Bool.not_not]
    rfl

/-! ## Meaning -/

/-- Where the constant signal carries one, a linear constraint says that its terms and its constant add up
to zero. -/
theorem holdsAt_iff_of_linear {z : Signal → ZMod F.modulus} (hlinear : c.isNonlinear = false)
    (hz : z constantSignal = 1) :
    c.HoldsAt z ↔ Terms.value c.linearTerms z + (c.constantTerm : ZMod F.modulus) = 0 := by
  cases c with
  | r1cs r =>
    have hproduct := R1csConstraint.value_factor_of_isLinear (r := r) (x := z)
      ((Bool.not_eq_false' _).mp hlinear)
    show Terms.value r.a z * Terms.value r.b z = Terms.value r.c z ↔ _
    rw [hproduct, Terms.value_eq_value_erase_add r.c constantSignal, hz, mul_one, eq_comm]
    rfl
  | acir p =>
    have hmult : Terms.value p.mult (fun k => z k.1 * z k.2) = 0 :=
      Terms.value_of_isEmpty ((Bool.not_eq_false' _).mp hlinear)
    show (p.constant : ZMod F.modulus) + Terms.value p.mult (fun k => z k.1 * z k.2) +
      Terms.value p.linear z = 0 ↔ _
    rw [hmult, add_zero, add_comm]
    rfl

/-- The coefficients of the terms are nonzero elements. -/
theorem isReduced_linearTerms (hc : c.HasReducedCoefficients F) : Terms.IsReduced F c.linearTerms := by
  cases c with
  | r1cs r =>
    intro v hv
    obtain ⟨e, he, rfl⟩ := List.mem_map.1 hv
    rw [linearTerms, SortedMap.entries_erase] at he
    exact hc.c _ (List.mem_map_of_mem (List.mem_of_mem_filter he))
  | acir p => exact hc.linear

theorem mem_signals_of_mem_linearTerms {s : Signal} (h : s ∈ c.linearTerms.keys) : s ∈ c.signals := by
  cases c with
  | r1cs r =>
    obtain ⟨e, he, rfl⟩ := List.mem_map.1 h
    rw [linearTerms, SortedMap.entries_erase] at he
    obtain ⟨he, hne⟩ := List.mem_filter.1 he
    exact R1csConstraint.mem_signals.2 ⟨Or.inr (Or.inr (List.mem_map_of_mem he)), of_decide_eq_true hne⟩
  | acir p => exact AcirConstraint.mem_signals.2 (Or.inr h)

variable [Fact F.modulus.Prime]

/-- A recognised constraint fixes the difference of the two signals. -/
theorem exists_difference (hc : c.HasReducedCoefficients F)
    (h : c.signalEquivalence? F relaxed = some (x, y)) :
    ∃ d : ZMod F.modulus, (relaxed = false → d = 0) ∧ ∀ values : List Nat,
      values[0]? = some 1 → (∀ s ∈ c.signals, s < values.length) →
        (c.isSatisfied F values = true ↔ F.assignment values x - F.assignment values y = d) := by
  obtain ⟨hlinear, hconstant, u, v, hentries, hcancel⟩ := signalEquivalence?_eq_some_iff.1 h
  have hu : (u : ZMod F.modulus) ≠ 0 := by
    refine PrimeField.IsNonzero.cast_ne_zero (isReduced_linearTerms hc u ?_)
    rw [SortedMap.values, hentries]
    exact List.mem_cons_self
  have hv : (v : ZMod F.modulus) = -u := by
    have hsum := congrArg (Nat.cast : Nat → ZMod F.modulus) hcancel
    rw [PrimeField.cast_add, Nat.cast_zero] at hsum
    exact eq_neg_of_add_eq_zero_right hsum
  refine ⟨-(c.constantTerm : ZMod F.modulus) / u, fun hstrict => ?_, fun values hone hcover => ?_⟩
  · have hnone : c.hasConstant = false := by
      cases hhas : c.hasConstant with
      | false => rfl
      | true => exact absurd (hconstant hhas) (by simp [hstrict])
    rw [constantTerm_eq_zero hnone, Nat.cast_zero, neg_zero, zero_div]
  · have hpos : constantSignal < values.length := (List.getElem?_eq_some_iff.1 hone).1
    have hz : F.assignment values constantSignal = 1 := by
      rw [PrimeField.assignment, List.getD_eq_getElem?_getD, constantSignal, hone, Option.getD_some,
        Nat.cast_one]
    rw [isSatisfied_iff hc hpos hcover, holdsAt_iff_of_linear hlinear hz, Terms.value, hentries,
      eq_div_iff hu]
    simp only [List.map_cons, List.map_nil, List.sum_cons, List.sum_nil, hv]
    -- the constraint says that u x - u y + e = 0
    constructor
    · intro hsum
      linear_combination hsum
    · intro hdifference
      linear_combination hdifference

/-! ## Scalar multiples -/

/-- Coefficients that cancel still do after a multiplication, and no others do. -/
theorem add_mul_eq_zero_iff {u v k : Nat} (hk : F.IsNonzero k) :
    F.add (F.mul u k) (F.mul v k) = 0 ↔ F.add u v = 0 := by
  rw [← PrimeField.cast_eq_zero_iff (PrimeField.add_lt _ _),
    ← PrimeField.cast_eq_zero_iff (PrimeField.add_lt u v), PrimeField.cast_add, PrimeField.cast_add,
    PrimeField.cast_mul, PrimeField.cast_mul, ← add_mul, mul_eq_zero, or_iff_left hk.cast_ne_zero]

/-- What a scalar multiple has in common with a constraint. -/
theorem linear_of_isRescaling (hc : c.HasReducedCoefficients F) (h : c.IsRescaling F d) :
    d.isNonlinear = c.isNonlinear ∧ d.hasConstant = c.hasConstant ∧ ∃ k, F.IsNonzero k ∧
      d.linearTerms.entries = c.linearTerms.entries.map fun e => (e.1, F.mul e.2 k) := by
  cases c with
  | r1cs r =>
    cases d with
    | acir q => exact h.elim
    | r1cs s =>
      obtain ⟨ka, kb, kc, ha, hb, hkc, -, hs⟩ := h
      -- an exchange of the factors leaves the linear part as it is
      have hparts : s.isLinear = r.isLinear ∧ s.c = Terms.scale F r.c kc := by
        rcases hs with rfl | rfl
        · exact ⟨R1csConstraint.isLinear_scaled r ka kb kc, rfl⟩
        · exact ⟨(R1csConstraint.isLinear_exchanged _).trans
            (R1csConstraint.isLinear_scaled r ka kb kc), rfl⟩
      refine ⟨congrArg (!·) hparts.1, ?_, kc, hkc, ?_⟩
      · rw [Bool.eq_iff_iff]
        show s.c.contains constantSignal = true ↔ r.c.contains constantSignal = true
        rw [SortedMap.contains_iff, SortedMap.contains_iff, hparts.2, Terms.keys_scale]
      · show (s.c.erase constantSignal).entries = _
        rw [hparts.2, Terms.entries_erase_scale]
        rfl
  | acir p =>
    cases d with
    | r1cs s => exact h.elim
    | acir q =>
      obtain ⟨k, hk, rfl⟩ := h
      refine ⟨congrArg (!·) (Terms.isEmpty_scale k), ?_, k, hk, rfl⟩
      rw [Bool.eq_iff_iff]
      show (F.mul p.constant k != 0) = true ↔ (p.constant != 0) = true
      rw [bne_iff_ne, bne_iff_ne, Ne, Ne, not_iff_not,
        ← PrimeField.cast_eq_zero_iff (PrimeField.mul_lt _ _), PrimeField.cast_mul, mul_eq_zero,
        or_iff_left hk.cast_ne_zero, PrimeField.cast_eq_zero_iff hc.constant]

/-- Scalar multiples are recognised alike. -/
theorem signalEquivalence?_of_isRescaling (hc : c.HasReducedCoefficients F) (h : c.IsRescaling F d) :
    d.signalEquivalence? F relaxed = c.signalEquivalence? F relaxed := by
  obtain ⟨hnonlinear, hconstant, k, hk, hentries⟩ := linear_of_isRescaling hc h
  apply Option.ext
  rintro ⟨x, y⟩
  rw [signalEquivalence?_eq_some_iff, signalEquivalence?_eq_some_iff, hnonlinear, hconstant]
  refine and_congr_right fun _ => and_congr_right fun _ => ?_
  constructor
  · rintro ⟨u', v', hd, hcancel⟩
    obtain ⟨⟨x', u⟩, rest, hterms, hfirst, hrest⟩ := List.map_eq_cons_iff.1 (hentries.symm.trans hd)
    obtain ⟨⟨y', v⟩, rest', rfl, hsecond, hnil⟩ := List.map_eq_cons_iff.1 hrest
    obtain rfl := List.map_eq_nil_iff.1 hnil
    cases hfirst
    cases hsecond
    exact ⟨u, v, hterms, (add_mul_eq_zero_iff hk).1 hcancel⟩
  · rintro ⟨u, v, hc, hcancel⟩
    exact ⟨F.mul u k, F.mul v k, by rw [hentries, hc]; rfl, (add_mul_eq_zero_iff hk).2 hcancel⟩

end Constraint

/-! ## Parts -/

namespace Circuit

variable (circuit : Circuit) (relaxed : Bool)

/-- The components of the constraints that are left. -/
def remainingComponents : List (List Nat) :=
  (ConstraintGraph.restricted circuit fun k => !circuit.equatesSignals relaxed k).components
    fun k => !circuit.equatesSignals relaxed k

/-- The constraints that were taken out, each on its own. -/
def removedParts : List (List Nat) :=
  ((List.range circuit.nConstraints).filter (circuit.equatesSignals relaxed)).map fun k => [k]

/-- The parts as they are put together, in the order of their first constraints. -/
def assembledParts : List (List Nat) :=
  (circuit.remainingComponents relaxed ++ circuit.removedParts relaxed).mergeSort fun part part' =>
    decide (part.headD 0 ≤ part'.headD 0)

variable {circuit relaxed} {i j : Nat}

theorem mem_flatten_remainingComponents : i ∈ (circuit.remainingComponents relaxed).flatten ↔
    i < circuit.nConstraints ∧ circuit.equatesSignals relaxed i = false := by
  refine (ConstraintGraph.perm_flatten_components _ _ _).mem_iff.trans ?_
  rw [List.mem_filter, List.mem_range, Bool.not_eq_true']

theorem nodup_flatten_remainingComponents :
    (circuit.remainingComponents relaxed).flatten.Nodup :=
  (ConstraintGraph.perm_flatten_components _ _ _).nodup_iff.2 (List.nodup_range.filter _)

theorem samePart_remainingComponents_iff : SamePart (circuit.remainingComponents relaxed) i j ↔
    i < circuit.nConstraints ∧ circuit.Linked (circuit.equatesSignals relaxed · = false) i j := by
  refine (ConstraintGraph.samePart_components_iff fun _ hk => hk).trans ?_
  simp only [Bool.not_eq_true']

/-- Constraints that are left are together if they are linked; the others are alone. -/
theorem samePart_withoutEquivalences_iff : SamePart (withoutEquivalences circuit relaxed).parts i j ↔
    i < circuit.nConstraints ∧ (circuit.Linked (circuit.equatesSignals relaxed · = false) i j ∨
      i = j ∧ circuit.equatesSignals relaxed i = true) := by
  refine (Partition.samePart_ofDisjoint_iff nodup_flatten_remainingComponents fun i hi =>
    (mem_flatten_remainingComponents.1 hi).1).trans ?_
  rw [samePart_remainingComponents_iff, mem_flatten_remainingComponents, ← Bool.not_eq_false]
  tauto

theorem isDivision_unsorted : IsDivision circuit.nConstraints
    (circuit.remainingComponents relaxed ++ circuit.removedParts relaxed) where
  cover := by
    have hremoved : (circuit.removedParts relaxed).flatten =
        (List.range circuit.nConstraints).filter (circuit.equatesSignals relaxed) := by
      rw [removedParts, ← List.flatMap_def, List.flatMap_singleton']
    rw [List.flatten_append, hremoved]
    exact (List.Perm.append_right _ (ConstraintGraph.perm_flatten_components _ _ _)).trans
      (List.perm_append_comm.trans (List.filter_append_perm _ _))
  ne_nil part hpart := by
    rcases List.mem_append.1 hpart with hpart | hpart
    · exact Reach.component_ne_nil hpart
    · obtain ⟨k, -, rfl⟩ := List.mem_map.1 hpart
      exact List.cons_ne_nil k []
  sorted part hpart := by
    rcases List.mem_append.1 hpart with hpart | hpart
    · exact ConstraintGraph.pairwise_of_mem_components hpart
    · obtain ⟨k, -, rfl⟩ := List.mem_map.1 hpart
      exact List.pairwise_singleton _ _

theorem isDivision_assembledParts : IsDivision circuit.nConstraints (circuit.assembledParts relaxed) :=
  isDivision_unsorted.of_perm (List.mergeSort_perm _ _).symm

theorem inOrder_assembledParts : InOrder (circuit.assembledParts relaxed) := by
  refine isDivision_assembledParts.inOrder_of_pairwise_le ?_
  have hsorted : (circuit.assembledParts relaxed).Pairwise fun part part' =>
      decide (part.headD 0 ≤ part'.headD 0) = true :=
    List.pairwise_mergeSort
      (fun a b c hab hbc => decide_eq_true ((of_decide_eq_true hab).trans (of_decide_eq_true hbc)))
      (fun a b => by simpa using Nat.le_total (a.headD 0) (b.headD 0)) _
  exact hsorted.imp of_decide_eq_true

/-- Putting components and single constraints together and ordering them gives the parts. -/
theorem parts_eq_assembledParts :
    (withoutEquivalences circuit relaxed).parts = circuit.assembledParts relaxed := by
  refine (Partition.isDivision_ofFunction _ _).eq_of_samePart_iff isDivision_assembledParts
    (fun i j => samePart_withoutEquivalences_iff.trans ?_) (Partition.inOrder_parts _)
    inOrder_assembledParts
  have hunsorted : SamePart (circuit.assembledParts relaxed) i j ↔
      SamePart (circuit.remainingComponents relaxed) i j ∨
        SamePart (circuit.removedParts relaxed) i j := by
    simp only [SamePart, assembledParts, (List.mergeSort_perm _ _).mem_iff, List.mem_append,
      or_and_right, exists_or]
  have hremoved : SamePart (circuit.removedParts relaxed) i j ↔
      i < circuit.nConstraints ∧ i = j ∧ circuit.equatesSignals relaxed i = true := by
    simp only [SamePart, removedParts, List.mem_map, exists_exists_and_eq_and, List.mem_singleton,
      List.mem_filter, List.mem_range]
    constructor
    · rintro ⟨k, ⟨hk, hremoved⟩, rfl, rfl⟩
      exact ⟨hk, rfl, hremoved⟩
    · rintro ⟨hi, rfl, hremoved⟩
      exact ⟨i, ⟨hi, hremoved⟩, rfl, rfl⟩
  rw [hunsorted, hremoved, samePart_remainingComponents_iff, and_or_left]

end Circuit

open Constraint in
/-- What is left without signal equivalences. The parts are the components of the constraints that are not
recognised and the recognised ones on their own, in the order of their first constraints. Constraints that
are not recognised are together if a chain of such constraints links them. A constraint is recognised only
if its solutions are the values in which its two signals differ by a constant, which is zero unless others
are let pass. Scalar multiples are recognised alike. -/
theorem withoutEquivalences_exact (circuit : Circuit) (relaxed : Bool) :
    let parts := (withoutEquivalences circuit relaxed).parts
    let F := circuit.field
    (IsDivision circuit.nConstraints parts ∧ InOrder parts ∧ parts = circuit.assembledParts relaxed ∧
        (∀ k < circuit.nConstraints, circuit.equatesSignals relaxed k = true → [k] ∈ parts) ∧
        ∀ i < circuit.nConstraints, ∀ j < circuit.nConstraints,
          circuit.equatesSignals relaxed i = false → circuit.equatesSignals relaxed j = false →
          (SamePart parts i j ↔ circuit.Linked (circuit.equatesSignals relaxed · = false) i j)) ∧
      (F.modulus.Prime → ∀ c : Constraint, c.HasReducedCoefficients F →
        (∀ x y, c.signalEquivalence? F relaxed = some (x, y) → x ∈ c.signals ∧ y ∈ c.signals ∧
          ∃ d : ZMod F.modulus, (relaxed = false → d = 0) ∧ ∀ values : List Nat,
            values[0]? = some 1 → (∀ s ∈ c.signals, s < values.length) →
              (c.isSatisfied F values = true ↔ F.assignment values x - F.assignment values y = d)) ∧
        (∀ d, c.IsRescaling F d → d.signalEquivalence? F relaxed = c.signalEquivalence? F relaxed) ∧
        ∀ d, d.HasReducedCoefficients F → c.isScalarMultipleOf F d = true →
          d.signalEquivalence? F relaxed = c.signalEquivalence? F relaxed) := by
  intro parts F
  have hdivision : IsDivision circuit.nConstraints parts := Partition.isDivision_ofFunction _ _
  refine ⟨⟨hdivision, Partition.inOrder_parts _, Circuit.parts_eq_assembledParts,
    fun k hk hrecognised => ?_, fun i hi j hj hri hrj => ?_⟩, fun hprime c hc => ?_⟩
  · show [k] ∈ (withoutEquivalences circuit relaxed).parts
    rw [Circuit.parts_eq_assembledParts]
    refine (List.mergeSort_perm _ _).mem_iff.2 (List.mem_append_right _ ?_)
    exact List.mem_map_of_mem (List.mem_filter.2 ⟨List.mem_range.2 hk, hrecognised⟩)
  · refine Circuit.samePart_withoutEquivalences_iff.trans ?_
    rw [and_iff_right hi, or_iff_left fun h => Bool.false_ne_true (hri.symm.trans h.2)]
  · have : Fact F.modulus.Prime := ⟨hprime⟩
    refine ⟨fun x y hxy => ?_, fun d hd => signalEquivalence?_of_isRescaling hc hd,
      fun d hd hmultiple => signalEquivalence?_of_isRescaling hc
        ((isScalarMultipleOf_iff_isRescaling hc hd).1 hmultiple)⟩
    obtain ⟨-, -, u, v, hentries, -⟩ := signalEquivalence?_eq_some_iff.1 hxy
    have hkeys : c.linearTerms.keys = [x, y] := by
      rw [SortedMap.keys, hentries]
      rfl
    exact ⟨mem_signals_of_mem_linearTerms (hkeys ▸ List.mem_cons_self),
      mem_signals_of_mem_linearTerms (hkeys ▸ List.mem_cons_of_mem _ List.mem_cons_self),
      exists_difference hc hxy⟩

namespace Circuit.Sample

/-- Three products. The signals 3 and 4 differ by two, and the signals 5 and 6 are equal. -/
def shifted : Circuit where
  field := ⟨101⟩
  dialect := .r1cs
  nSignals := 8
  constraints := #[.r1cs (.ofInts ⟨101⟩ [(1, 1)] [(2, 1)] [(3, 1)]),
    .r1cs (.ofInts ⟨101⟩ [] [] [(3, 1), (4, -1), (0, 2)]),
    .r1cs (.ofInts ⟨101⟩ [(4, 1)] [(4, 1)] [(5, 1)]),
    .r1cs (.ofInts ⟨101⟩ [(1, 1)] [] [(5, 3), (6, -3)]),
    .r1cs (.ofInts ⟨101⟩ [(6, 1)] [(1, 1)] [(7, 1)])]
  inputs := .ofList [1, 2]
  outputs := .ofList [7]
  nSignals_pos := by decide
  inputs_declarable := by decide
  outputs_declarable := by decide
  inputs_disjoint_outputs := by decide
  constraints_wellFormed := by decide

/-- The constraint between the signals 3 and 4. -/
def shift : Constraint := .r1cs (.ofInts ⟨101⟩ [] [] [(3, 1), (4, -1), (0, 2)])

end Circuit.Sample

open Circuit.Sample in
/-- With constants let pass the products fall apart: the shift is recognised, and so is its multiple by
five. Without, the first product is linked with the last one through the shift. -/
theorem withoutEquivalences_exact_shifted :
    (withoutEquivalences shifted true).parts = [[0, 4], [1], [2], [3]] ∧
      [1] ∈ (withoutEquivalences shifted true).parts ∧
      shifted.Linked (shifted.equatesSignals false · = false) 0 2 ∧
      (∃ d : ZMod 101, ∀ values : List Nat, values[0]? = some 1 →
        (∀ s ∈ shift.signals, s < values.length) → (shift.isSatisfied ⟨101⟩ values = true ↔
          PrimeField.assignment ⟨101⟩ values 3 - PrimeField.assignment ⟨101⟩ values 4 = d)) ∧
      shift.isScalarMultipleOf ⟨101⟩ (.r1cs (.ofInts ⟨101⟩ [] [] [(3, 5), (4, -5), (0, 10)])) = true ∧
      Constraint.signalEquivalence? ⟨101⟩ true
        (.r1cs (.ofInts ⟨101⟩ [] [] [(3, 5), (4, -5), (0, 10)])) = some (3, 4) := by
  have hprime : Nat.Prime 101 := by decide +kernel
  have hreduced : shift.HasReducedCoefficients ⟨101⟩ := by decide +kernel
  have hshift : Constraint.signalEquivalence? ⟨101⟩ true shift = some (3, 4) := by decide +kernel
  have hmultiple : shift.isScalarMultipleOf ⟨101⟩
      (.r1cs (.ofInts ⟨101⟩ [] [] [(3, 5), (4, -5), (0, 10)])) = true := by decide +kernel
  obtain ⟨⟨-, -, -, hsingle, -⟩, hrecognised⟩ := withoutEquivalences_exact shifted true
  obtain ⟨⟨-, -, -, -, hlinked⟩, -⟩ := withoutEquivalences_exact shifted false
  obtain ⟨hmeaning, -, hscaled⟩ := hrecognised hprime shift hreduced
  obtain ⟨-, -, d, -, hd⟩ := hmeaning 3 4 hshift
  refine ⟨by decide +kernel, hsingle 1 (by decide) (by decide +kernel), ?_, ⟨d, hd⟩, hmultiple, ?_⟩
  · refine (hlinked 0 (by decide) 2 (by decide) (by decide +kernel) (by decide +kernel)).1 ?_
    exact ⟨[0, 1, 2, 4], by decide +kernel, by decide, by decide⟩
  · exact (hscaled _ (by decide +kernel) hmultiple).trans hshift

end CircuitEquiv
