-- SUMMARY: Full equivalences of circuits, as functions and as mappings, and the renaming that one comes from.
import CircuitEquiv.Mapping
import CircuitEquiv.Proofs.Constraint.Shape
import Mathlib.Data.Set.Card
import Mathlib.Tactic.IntervalCases

/-!
# Full equivalences

A full equivalence of two circuits is a bijection of their signals that keeps the constant signal
and all roles, together with a bijection of their constraints under which every left constraint, its
signals renamed, is a scalar multiple of its image. This is the notion that comparing circuits
decides. A mapping is a full equivalence when it is defined exactly on the signals and constraints
of the left circuit and acts as one.
-/

namespace CircuitEquiv

/-! ## Circuits with reduced coefficients -/

/-- Every constraint has reduced coefficients. -/
def Circuit.IsReduced (circuit : Circuit) : Prop :=
  ∀ c ∈ circuit.constraints.toList, c.IsReduced circuit.field

instance (circuit : Circuit) : Decidable circuit.IsReduced :=
  inferInstanceAs (Decidable (∀ c ∈ circuit.constraints.toList, c.IsReduced circuit.field))

/-- Every constraint is keyed as construction leaves it. -/
def Circuit.HasProperKeys (circuit : Circuit) : Prop :=
  ∀ c ∈ circuit.constraints.toList, c.HasProperKeys

instance (circuit : Circuit) : Decidable circuit.HasProperKeys :=
  inferInstanceAs (Decidable (∀ c ∈ circuit.constraints.toList, c.HasProperKeys))

/-- The field of a circuit has a prime modulus and its coefficients are reduced. -/
structure Circuit.IsProper (circuit : Circuit) : Prop where
  prime : circuit.field.modulus.Prime
  reduced : circuit.IsReduced

namespace Circuit

variable {circuit : Circuit} {c : Constraint} {k : Nat} {s : Signal}

theorem mem_constraints_of_getElem? (h : circuit.constraints[k]? = some c) :
    c ∈ circuit.constraints.toList := by
  rw [Array.mem_toList_iff]
  exact Array.mem_of_getElem? h

theorem exists_constraint (h : k < circuit.nConstraints) :
    ∃ c, circuit.constraints[k]? = some c := ⟨_, Array.getElem?_eq_getElem h⟩

theorem lt_nConstraints (h : circuit.constraints[k]? = some c) : k < circuit.nConstraints :=
  (Array.getElem?_eq_some_iff.1 h).1

theorem IsReduced.constraint (h : circuit.IsReduced) (hc : circuit.constraints[k]? = some c) :
    c.IsReduced circuit.field := h c (mem_constraints_of_getElem? hc)

theorem IsReduced.hasProperKeys (h : circuit.IsReduced) : circuit.HasProperKeys :=
  fun c hc => (h c hc).hasProperKeys

theorem HasProperKeys.constraint (h : circuit.HasProperKeys) (hc : circuit.constraints[k]? = some c) :
    c.HasProperKeys := h c (mem_constraints_of_getElem? hc)

theorem role_eq_constant_iff : circuit.role s = .constant ↔ s = constantSignal := by
  unfold role
  split
  · simp [*]
  · rename_i hs
    simp only [hs, iff_false]
    split
    · simp
    · split <;> simp

theorem lt_nSignals_of_mem_signals (hc : circuit.constraints[k]? = some c) (hs : s ∈ c.signals) :
    s < circuit.nSignals :=
  (circuit.constraints_wellFormed c (mem_constraints_of_getElem? hc)).2 s hs

end Circuit

/-! ## Full equivalences -/

/-- A full equivalence of two circuits: a bijection of signals and one of constraints. -/
structure FullEquivalence (left right : Circuit) (σ : Signal → Signal) (κ : Nat → Nat) : Prop where
  field : left.field = right.field
  dialect : left.dialect = right.dialect
  signals : Set.BijOn σ (Set.Iio left.nSignals) (Set.Iio right.nSignals)
  constant : σ constantSignal = constantSignal
  role : ∀ s < left.nSignals, right.role (σ s) = left.role s
  constraints : Set.BijOn κ (Set.Iio left.nConstraints) (Set.Iio right.nConstraints)
  scalarMultiple : ∀ k c, left.constraints[k]? = some c →
    ∃ renamed d, c.signalMap σ = .ok renamed ∧ right.constraints[κ k]? = some d ∧
      renamed.isScalarMultipleOf left.field d = true

/-- A mapping that is defined on the signals and constraints of the left circuit and acts as a full
equivalence. -/
structure Mapping.IsFullEquivalence (left right : Circuit) (m : Mapping) : Prop where
  signals_keys : m.signals.keys = List.range left.nSignals
  constraints_keys : m.constraints.keys = List.range left.nConstraints
  acts : FullEquivalence left right (fun s => m.signals.getD s constantSignal)
    (fun k => m.constraints.getD k 0)

/-- Some full equivalence exists. -/
def Circuit.Equivalent (left right : Circuit) : Prop := ∃ σ κ, FullEquivalence left right σ κ

/-! ## Bijections of initial segments -/

theorem eq_of_bijOn_Iio {f : Nat → Nat} {n m : Nat} (h : Set.BijOn f (Set.Iio n) (Set.Iio m)) :
    n = m := by
  have hrange : ∀ n : Nat, (Set.Iio n).ncard = n := fun n => by
    rw [← Finset.coe_range, Set.ncard_coe_finset, Finset.card_range]
  rw [← hrange n, h.ncard_eq, hrange]

theorem bijOn_Iio_of_injOn {f : Nat → Nat} {n : Nat} (hmaps : ∀ k < n, f k < n)
    (hinj : Set.InjOn f (Set.Iio n)) : Set.BijOn f (Set.Iio n) (Set.Iio n) := by
  refine ⟨hmaps, hinj, ?_⟩
  have himage : f '' Set.Iio n = Set.Iio n :=
    Set.eq_of_subset_of_ncard_le (Set.image_subset_iff.2 hmaps)
      (hinj.ncard_image ▸ Nat.le_refl _) (Set.finite_Iio n)
  exact himage.ge

namespace FullEquivalence

variable {left right : Circuit} {σ σ' : Signal → Signal} {κ κ' : Nat → Nat}

theorem nSignals_eq (h : FullEquivalence left right σ κ) : left.nSignals = right.nSignals :=
  eq_of_bijOn_Iio h.signals

theorem nConstraints_eq (h : FullEquivalence left right σ κ) :
    left.nConstraints = right.nConstraints := eq_of_bijOn_Iio h.constraints

/-- Only the values on the signals and constraints of the left circuit matter. -/
theorem congr (h : FullEquivalence left right σ κ) (hσ : ∀ s < left.nSignals, σ' s = σ s)
    (hκ : ∀ k < left.nConstraints, κ' k = κ k) : FullEquivalence left right σ' κ' where
  field := h.field
  dialect := h.dialect
  signals := h.signals.congr fun s hs => (hσ s hs).symm
  constant := (hσ constantSignal left.nSignals_pos).trans h.constant
  role := fun s hs => by rw [hσ s hs, h.role s hs]
  constraints := h.constraints.congr fun k hk => (hκ k hk).symm
  scalarMultiple := fun k c hc => by
    obtain ⟨renamed, d, hrenamed, hd, hmultiple⟩ := h.scalarMultiple k c hc
    refine ⟨renamed, d, Constraint.signalMap_congr (fun s hs => ?_) hrenamed, ?_, hmultiple⟩
    · exact hσ s (Circuit.lt_nSignals_of_mem_signals hc hs)
    · rw [hκ k (Circuit.lt_nConstraints hc), hd]

/-! ### The renaming behind a full equivalence -/

/-- The signal bijection, continued by the identity beyond the signals of the circuits. -/
def signalRenaming (left : Circuit) (σ : Signal → Signal) (s : Signal) : Signal :=
  if s < left.nSignals then σ s else s

theorem signalRenaming_of_lt {s : Signal} (hs : s < left.nSignals) : signalRenaming left σ s = σ s := if_pos hs

theorem isRenaming_of_bijOn
    (h : Set.BijOn σ (Set.Iio left.nSignals) (Set.Iio right.nSignals))
    (h0 : σ constantSignal = constantSignal) : IsRenaming (signalRenaming left σ) where
  injective := by
    have hlt : ∀ s < left.nSignals, σ s < left.nSignals := fun s hs => by
      rw [eq_of_bijOn_Iio h]
      exact h.mapsTo hs
    intro s t heq
    unfold signalRenaming at heq
    split at heq
    · rename_i hs
      split at heq
      · rename_i ht
        exact h.injOn hs ht heq
      · rename_i ht
        exact absurd (heq ▸ hlt s hs) ht
    · rename_i hs
      split at heq
      · rename_i ht
        exact absurd (heq ▸ hlt t ht) hs
      · exact heq
  constant := (signalRenaming_of_lt left.nSignals_pos).trans h0

theorem isRenaming (h : FullEquivalence left right σ κ) : IsRenaming (signalRenaming left σ) :=
  isRenaming_of_bijOn h.signals h.constant

theorem signalMap_eq (hσ : IsRenaming (signalRenaming left σ)) (hl : left.IsReduced) {k : Nat}
    {c : Constraint} (hc : left.constraints[k]? = some c) :
    c.signalMap σ = .ok (c.rename (signalRenaming left σ)) :=
  Constraint.signalMap_of_agree hσ
    (fun _ hs => (hl.constraint hc).ne_constant_of_mem_signals hs)
    fun _ hs => (signalRenaming_of_lt (Circuit.lt_nSignals_of_mem_signals hc hs)).symm

/-- The renamed constraint is a scalar multiple of its image. -/
theorem isScalarMultipleOf (h : FullEquivalence left right σ κ) (hl : left.IsReduced) {k : Nat}
    {c : Constraint} (hc : left.constraints[k]? = some c) :
    ∃ d, right.constraints[κ k]? = some d ∧
      (c.rename (signalRenaming left σ)).isScalarMultipleOf left.field d = true := by
  obtain ⟨renamed, d, hrenamed, hd, hmultiple⟩ := h.scalarMultiple k c hc
  rw [signalMap_eq h.isRenaming hl hc] at hrenamed
  cases hrenamed
  exact ⟨d, hd, hmultiple⟩

/-- The normal forms of the image of a constraint are its renamed normal forms. -/
theorem normalize_perm [Fact left.field.modulus.Prime] (h : FullEquivalence left right σ κ)
    (hl : left.IsReduced) (hr : right.IsReduced) {k : Nat} {c d : Constraint}
    (hc : left.constraints[k]? = some c) (hd : right.constraints[κ k]? = some d) :
    (d.normalize left.field).Perm
      ((c.normalize left.field).map (·.renameNormal (signalRenaming left σ))) := by
  obtain ⟨d', hd', hmultiple⟩ := h.isScalarMultipleOf hl hc
  rw [hd] at hd'
  cases hd'
  exact Constraint.normalize_perm_of_isScalarMultipleOf (hl.constraint hc)
    (h.field ▸ hr.constraint hd) h.isRenaming hmultiple

end FullEquivalence

/-! ## Mappings from functions -/

namespace Mapping

/-- The mapping that acts as two given functions on the signals and constraints of a circuit. -/
def ofFunctions (left : Circuit) (σ : Signal → Signal) (κ : Nat → Nat) : Mapping where
  signals := SortedMap.ofList ((List.range left.nSignals).map fun s => (s, σ s))
  constraints := SortedMap.ofList ((List.range left.nConstraints).map fun k => (k, κ k))

theorem get?_ofList_range (n : Nat) (f : Nat → Nat) (k : Nat) :
    (SortedMap.ofList ((List.range n).map fun i => (i, f i))).get? k =
      if k < n then some (f k) else none := by
  have hkeys : ((List.range n).map fun i => (i, f i)).map (·.1) = List.range n := by
    simp [Function.comp_def]
  apply Option.ext
  intro v
  rw [SortedMap.get?_ofList_of_nodup (by rw [hkeys]; exact List.nodup_range), List.mem_map]
  constructor
  · rintro ⟨i, hi, heq⟩
    obtain ⟨rfl, rfl⟩ := Prod.mk.inj heq
    rw [if_pos (List.mem_range.1 hi)]
  · intro h
    split at h
    · rename_i hk
      exact ⟨k, List.mem_range.2 hk, by rw [Option.some.inj h]⟩
    · cases h

theorem keys_eq_range_iff {n : Nat} {m : SortedMap Nat Nat} :
    m.keys = List.range n ↔ ∀ k, (∃ v, m.get? k = some v) ↔ k < n := by
  constructor
  · intro h k
    rw [← SortedMap.mem_keys_iff, h, List.mem_range]
  · intro h
    have hperm : m.keys.Perm (List.range n) :=
      (List.perm_ext_iff_of_nodup m.nodup_keys List.nodup_range).2 fun k => by
        rw [SortedMap.mem_keys_iff, h, List.mem_range]
    have hsorted : m.keys.Pairwise (fun a b => compare a b = .lt) := by
      rw [SortedMap.keys, List.pairwise_map]
      exact m.sorted
    refine hperm.eq_of_pairwise (fun a b _ _ hab hba => absurd hba (compare_lt_asymm hab)) hsorted ?_
    exact List.pairwise_lt_range.imp fun hab => Nat.compare_eq_lt.2 hab

theorem isFullEquivalence_ofFunctions {left right : Circuit} {σ : Signal → Signal} {κ : Nat → Nat}
    (h : FullEquivalence left right σ κ) : (ofFunctions left σ κ).IsFullEquivalence left right where
  signals_keys := keys_eq_range_iff.2 fun s => by
    rw [ofFunctions, get?_ofList_range]
    split <;> simp [*]
  constraints_keys := keys_eq_range_iff.2 fun k => by
    rw [ofFunctions, get?_ofList_range]
    split <;> simp [*]
  acts := by
    refine h.congr (fun s hs => ?_) fun k hk => ?_
    · rw [SortedMap.getD, ofFunctions, get?_ofList_range, if_pos hs]
      rfl
    · rw [SortedMap.getD, ofFunctions, get?_ofList_range, if_pos hk]
      rfl

theorem ofFunctions_congr {left : Circuit} {σ σ' : Signal → Signal} {κ κ' : Nat → Nat}
    (hσ : ∀ s < left.nSignals, σ s = σ' s) (hκ : ∀ k < left.nConstraints, κ k = κ' k) :
    ofFunctions left σ κ = ofFunctions left σ' κ' := by
  refine congrArg₂ Mapping.mk (congrArg _ (List.map_congr_left fun s hs => ?_))
    (congrArg _ (List.map_congr_left fun k hk => ?_))
  · rw [hσ s (List.mem_range.1 hs)]
  · rw [hκ k (List.mem_range.1 hk)]

/-- A full equivalence is determined by how it acts. -/
theorem IsFullEquivalence.eq_ofFunctions {left right : Circuit} {m : Mapping}
    (h : m.IsFullEquivalence left right) :
    m = ofFunctions left (fun s => m.signals.getD s constantSignal) fun k => m.constraints.getD k 0 := by
  have hget : ∀ (e : SortedMap Nat Nat) (n d : Nat), e.keys = List.range n →
      e = SortedMap.ofList ((List.range n).map fun i => (i, e.getD i d)) := by
    intro e n d hkeys
    apply SortedMap.ext_get?
    intro k
    rw [get?_ofList_range]
    have hk := keys_eq_range_iff.1 hkeys k
    rw [SortedMap.getD]
    cases hv : e.get? k with
    | none => rw [if_neg fun hlt => by simpa [hv] using hk.2 hlt]
    | some v => rw [if_pos (hk.1 ⟨v, hv⟩), Option.getD_some]
  exact congrArg₂ Mapping.mk (hget _ _ _ h.signals_keys) (hget _ _ _ h.constraints_keys)

/-- Circuits are equivalent when some mapping is a full equivalence of them. -/
theorem equivalent_iff_exists {left right : Circuit} :
    left.Equivalent right ↔ ∃ m : Mapping, m.IsFullEquivalence left right := by
  constructor
  · rintro ⟨σ, κ, h⟩
    exact ⟨_, isFullEquivalence_ofFunctions h⟩
  · rintro ⟨m, hm⟩
    exact ⟨_, _, hm.acts⟩

end Mapping

/-! ## Two small circuits

A product of two inputs, once plain and once with other signal numbers, scaled, and with its factors
exchanged. -/

namespace Circuit.Sample

/-- The field with seven elements. -/
def field : PrimeField := ⟨7⟩

/-- Signal 3 is the product of the inputs 1 and 2. -/
def left : Circuit where
  field := field
  dialect := .r1cs
  nSignals := 4
  constraints := #[.r1cs (.ofTerms [(1, 1)] [(2, 1)] [(3, 1)])]
  inputs := .ofList [1, 2]
  outputs := .ofList [3]
  nSignals_pos := by decide
  inputs_declarable := by decide
  outputs_declarable := by decide
  inputs_disjoint_outputs := by decide
  constraints_wellFormed := by decide

/-- Signal 2 is the product of the inputs 1 and 3. -/
def right : Circuit where
  field := field
  dialect := .r1cs
  nSignals := 4
  constraints := #[.r1cs (.ofTerms [(1, 3)] [(3, 2)] [(2, 6)])]
  inputs := .ofList [1, 3]
  outputs := .ofList [2]
  nSignals_pos := by decide
  inputs_declarable := by decide
  outputs_declarable := by decide
  inputs_disjoint_outputs := by decide
  constraints_wellFormed := by decide

/-- The signal map from the one to the other. -/
def signalMap : Signal → Signal
  | 1 => 3
  | 2 => 1
  | 3 => 2
  | s => s

instance : Fact field.modulus.Prime := ⟨by decide⟩

theorem isProper_left : left.IsProper := ⟨by decide, by decide⟩

theorem isProper_right : right.IsProper := ⟨by decide, by decide⟩

/-- The two circuits are equivalent. -/
theorem fullEquivalence : FullEquivalence left right signalMap id where
  field := rfl
  dialect := rfl
  signals := by
    refine ⟨fun s hs => ?_, fun s hs t ht => ?_, fun s hs => ?_⟩
    · have hs : s < 4 := hs
      show signalMap s < 4
      interval_cases s <;> decide
    · have hs : s < 4 := hs
      have ht : t < 4 := ht
      interval_cases s <;> interval_cases t <;> decide
    · have hs : s < 4 := hs
      interval_cases s
      · exact ⟨0, by decide, rfl⟩
      · exact ⟨2, by decide, rfl⟩
      · exact ⟨3, by decide, rfl⟩
      · exact ⟨1, by decide, rfl⟩
  constant := rfl
  role := by decide
  constraints := Set.bijOn_id _
  scalarMultiple := by
    intro k c hc
    have hk : k = 0 := by
      have hlt : k < 1 := lt_nConstraints hc
      omega
    subst hk
    obtain rfl : c = .r1cs (.ofTerms [(1, 1)] [(2, 1)] [(3, 1)]) := (Option.some.inj hc).symm
    refine ⟨.r1cs (.ofTerms [(3, 1)] [(1, 1)] [(2, 1)]), .r1cs (.ofTerms [(1, 3)] [(3, 2)] [(2, 6)]),
      by decide, rfl, ?_⟩
    have hred : (Constraint.r1cs (.ofTerms [(3, 1)] [(1, 1)] [(2, 1)])).IsReduced field := by
      decide
    have hscaled : (Constraint.r1cs (.ofTerms [(3, 1)] [(1, 1)] [(2, 1)])).IsRescaling field
        (.r1cs (.ofTerms [(1, 3)] [(3, 2)] [(2, 6)])) :=
      ⟨2, 3, 6, by decide, by decide, by decide, fun _ => rfl, Or.inr rfl⟩
    exact (Constraint.isScalarMultipleOf_iff_normalize_eq hred.coefficients
      (hred.rescaling hscaled).coefficients).2
      (Constraint.normalize_rescaling hred.coefficients hscaled).symm

end Circuit.Sample

end CircuitEquiv
