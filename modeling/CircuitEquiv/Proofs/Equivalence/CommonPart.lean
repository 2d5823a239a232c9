-- SUMMARY: The pairs of signals and norms that a common part of two circuits consists of, and the partial equivalences that they stand for.
import CircuitEquiv.Equivalence.Maximal
import CircuitEquiv.Proofs.Circuit.PartialEquivalence

/-!
# Common parts

A common part of two circuits matches signals of one role, and norms that meet their shapes under the
matched signals, those of one constraint together. The constraints whose norms are all matched are
mapped by a partial equivalence, and every partial equivalence comes from the common part of its pairs.
-/

namespace CircuitEquiv

open Draft (originOf)
open MaximalFormula (roleShape)

/-- A right signal in range of the role of a left one. -/
def sameRole (left right : Circuit) (s t : Signal) : Bool :=
  t < right.nSignals && left.role s = right.role t

/-- Two norms look alike under the roles, and matching them within the roles has a shape. -/
def CanMatch (left right : Circuit) (l r : Nat) (shape : PairShape) : Prop :=
  ∃ n n', left.normalize[l]? = some n ∧ right.normalize[r]? = some n' ∧
    roleShape left n = roleShape right n' ∧
    PairShape.ofNorms? (sameRole left right) n.constraint n'.constraint = some shape

theorem CanMatch.shape_eq {left right : Circuit} {l r : Nat} {shape shape' : PairShape}
    (h : CanMatch left right l r shape) (h' : CanMatch left right l r shape') : shape = shape' := by
  obtain ⟨n, n', hn, hn', -, hshape⟩ := h
  obtain ⟨n₁, n₁', hn₁, hn₁', -, hshape'⟩ := h'
  obtain rfl : n = n₁ := Option.some.inj (hn.symm.trans hn₁)
  obtain rfl : n' = n₁' := Option.some.inj (hn'.symm.trans hn₁')
  exact Option.some.inj (hshape.symm.trans hshape')

/-- Pairs of signals and norms that two circuits have in common, and the left constraints whose norms
are all matched. -/
structure CommonPart (left right : Circuit) (S : PairVariable → Prop) (K : Set Nat) : Prop where
  signals : SignalMatching left right fun s t => S (.signal s t)
  norms : ∀ l r, S (.norm l r) →
    ∃ shape, CanMatch left right l r shape ∧ shape.Holds fun s t => S (.signal s t)
  functional : ∀ l r r', S (.norm l r) → S (.norm l r') → r = r'
  injective : ∀ l l' r, S (.norm l r) → S (.norm l' r) → l = l'
  siblings : Draft.SiblingsAgree left.normalize right.normalize S
  lt_nConstraints : ∀ k ∈ K, k < left.nConstraints
  covers : ∀ k ∈ K, ∀ l ∈ Draft.siblings left.normalize k, ∃ r, S (.norm l r)

variable {left right : Circuit} {S : PairVariable → Prop} {K : Set Nat} {m : Mapping}

/-! ## From common parts to partial equivalences -/

theorem mem_restrictToConstraints {s t : Signal} :
    (m.restrictToConstraints left).signals.get? s = some t ↔ m.signals.get? s = some t ∧
      (s = constantSignal ∨
        ∃ k ∈ m.constraints.keys, s ∈ (left.constraints[k]?.getD default).signals) := by
  have hused : ∀ s, s ∈ m.constraints.keys.foldl
      (fun used k => used.union (left.constraints[k]?.getD default).signals)
      (SortedSet.ofList [constantSignal]) ↔ s = constantSignal ∨
        ∃ k ∈ m.constraints.keys, s ∈ (left.constraints[k]?.getD default).signals := fun s => by
    have hunion := @PairShape.mem_foldl_union s
      (m.constraints.keys.map fun k => (left.constraints[k]?.getD default).signals)
      (SortedSet.ofList [constantSignal])
    rw [List.foldl_map] at hunion
    simpa using hunion
  rw [← hused, Mapping.restrictToConstraints, SortedMap.get?_filter, Option.filter_eq_some_iff,
    decide_eq_true_eq]

namespace CommonPart

variable (h : CommonPart left right S K) (hl : left.IsProper) (hr : right.IsProper)
  (hfield : left.field = right.field)

include h hl

theorem subset_matchedConstraints : K ⊆ matchedConstraints left fun l r => S (.norm l r) := by
  have : Fact left.field.modulus.Prime := ⟨hl.prime⟩
  intro k hk
  obtain ⟨l, n, hn, rfl⟩ := Circuit.exists_norm_of_lt hl.reduced (h.lt_nConstraints k hk)
  have horigin := originOf_of_getElem? hn
  obtain ⟨r, hS⟩ := h.covers _ hk l
    (Draft.mem_siblings.2 ⟨(Array.getElem?_eq_some_iff.1 hn).1, horigin⟩)
  exact ⟨l, r, hS, horigin⟩

include hr hfield

/-- The norm pairs of a common part are a matching under some renaming that follows the signal pairs. -/
theorem exists_normMatching : ∃ f, NormMatching left right f (fun l r => S (.norm l r)) ∧
    (∀ s t, S (.signal s t) → f s = t) ∧
    ∀ s, f s < right.nSignals → s = constantSignal ∨ S (.signal s (f s)) := by
  obtain ⟨f, hf, hfollows, hback⟩ := h.signals.exists_isRenaming
  refine ⟨f, .of_shapes hf hl hr.reduced hfield h.functional h.injective (fun l r hS => ?_)
    h.siblings, hfollows, hback⟩
  obtain ⟨shape, ⟨n, n', hn, hn', -, hshape⟩, hholds⟩ := h.norms l r hS
  exact ⟨n, n', hn, hn', _, shape, hshape, hholds.mono fun s t => hfollows s t⟩

/-- A mapping that follows the pairs of a common part on `K`, and on the signals of `K`, is a partial
equivalence. -/
theorem isPartialEquivalence {κ : Nat → Nat}
    (hκ : FollowsNorms left right (fun l r => S (.norm l r)) κ)
    (hconstraints : ∀ k j, m.constraints.get? k = some j ↔ k ∈ K ∧ κ k = j)
    (hsignals : ∀ s t, m.signals.get? s = some t ↔
      s = constantSignal ∧ t = constantSignal ∨ S (.signal s t)) :
    (m.restrictToConstraints left).IsPartialEquivalence left right := by
  obtain ⟨f, hmatching, hfollows, hback⟩ := h.exists_normMatching hl hr hfield
  refine hmatching.isPartialEquivalence hκ hl hr hfield h.signals hfollows hback
    (h.subset_matchedConstraints hl) hconstraints fun s t => ?_
  rw [mem_restrictToConstraints, hsignals]
  refine and_congr_right fun _ => or_congr_right ⟨?_, ?_⟩
  · rintro ⟨k, hk, hs⟩
    obtain ⟨j, hj⟩ := SortedMap.mem_keys_iff.1 hk
    obtain ⟨hk, -⟩ := (hconstraints k j).1 hj
    obtain ⟨c, hc⟩ := Circuit.exists_constraint (h.lt_nConstraints k hk)
    rw [hc, Option.getD_some] at hs
    exact ⟨k, hk, c, hc, hs⟩
  · rintro ⟨k, hk, c, hc, hs⟩
    exact ⟨k, SortedMap.mem_keys_iff.2 ⟨_, (hconstraints k _).2 ⟨hk, rfl⟩⟩, by
      rwa [hc, Option.getD_some]⟩

end CommonPart

/-! ## From partial equivalences to common parts -/

/-- The pairs of a mapping: a norm is paired with its renamed norm of the image of its constraint. -/
def Mapping.Pairs (left right : Circuit) (m : Mapping) (f : Signal → Signal) : PairVariable → Prop
  | .signal s t => m.signals.get? s = some t
  | .norm l r => ∃ n n', left.normalize[l]? = some n ∧ right.normalize[r]? = some n' ∧
    m.constraints.get? n.origin = some n'.origin ∧ n'.constraint = n.constraint.renameNormal f

namespace Mapping.IsPartialEquivalence

variable (h : m.IsPartialEquivalence left right)

include h

theorem signalMatching : SignalMatching left right fun s t => m.signals.get? s = some t where
  functional _ _ _ ht ht' := Option.some.inj (ht.symm.trans ht')
  injective := h.signals_injective
  right_lt s t ht := (h.signals s t ht).2.1
  role s t ht := (h.signals s t ht).2.2

variable {f : Signal → Signal} (hf : IsRenaming f)
  (hfollows : ∀ s t, m.signals.get? s = some t → f s = t) (hl : left.IsProper) (hr : right.IsProper)
  (hfield : left.field = right.field) {l l' r r' : Nat} {n : Norm}

include hfollows in
omit h in
theorem get?_of_contains {s : Signal} (hs : m.signals.contains s = true) :
    m.signals.get? s = some (f s) := by
  obtain ⟨t, ht⟩ := SortedMap.mem_keys_iff.1 (SortedMap.contains_iff.1 hs)
  rw [ht, hfollows s t ht]

include hf hfollows hl

/-- A mapped constraint, its signals renamed, is a multiple of its image. -/
theorem exists_image {k j : Nat} (hk : m.constraints.get? k = some j) :
    ∃ c d, left.constraints[k]? = some c ∧ right.constraints[j]? = some d ∧
      (∀ s ∈ c.signals, m.signals.get? s = some (f s)) ∧
      (c.rename f).isScalarMultipleOf left.field d = true := by
  obtain ⟨c, d, renamed, hc, hd, hsignals, hrenamed, hmultiple⟩ := h.scalarMultiple k j hk
  have hmapped : ∀ s ∈ c.signals, m.signals.get? s = some (f s) :=
    fun s hs => get?_of_contains hfollows (hsignals s hs)
  rw [Constraint.signalMap_of_agree hf
    (fun _ hs => (hl.reduced.constraint hc).ne_constant_of_mem_signals hs) fun s hs => by
      rw [SortedMap.getD, hmapped s hs, Option.getD_some]] at hrenamed
  cases hrenamed
  exact ⟨c, d, hc, hd, hmapped, hmultiple⟩

include hr hfield

/-- A norm of a mapped constraint is paired with one norm of the image. -/
theorem exists_pair {j : Nat} (hn : left.normalize[l]? = some n)
    (hk : m.constraints.get? n.origin = some j) :
    ∃ r : Nat, right.normalize[r]? = some ⟨n.constraint.renameNormal f, j⟩ := by
  have : Fact left.field.modulus.Prime := ⟨hl.prime⟩
  obtain ⟨c, d, hc, hd, -, hmultiple⟩ := h.exists_image hf hfollows hl hk
  obtain ⟨c', hc', hnormal⟩ := Circuit.exists_constraint_of_norm hn
  obtain rfl : c = c' := Option.some.inj (hc.symm.trans hc')
  refine Circuit.exists_norm_of_mem_normalize hd ?_
  rw [← hfield, (Constraint.normalize_perm_of_isScalarMultipleOf (hl.reduced.constraint hc)
    (hfield ▸ hr.reduced.constraint hd) hf hmultiple).mem_iff]
  exact List.mem_map_of_mem hnormal

variable (hback : ∀ s, f s < right.nSignals → s = constantSignal ∨ m.signals.get? s = some (f s))

include hback

omit hr hfield in
/-- Paired norms can be matched, and the signal pairs of the mapping meet their shape. -/
theorem canMatch (hpair : m.Pairs left right f (.norm l r)) :
    ∃ shape, CanMatch left right l r shape ∧
      shape.Holds fun s t => m.Pairs left right f (.signal s t) := by
  have : Fact left.field.modulus.Prime := ⟨hl.prime⟩
  obtain ⟨n, n', hn, hn', hk, hconstraint⟩ := hpair
  obtain ⟨c, d, hc, -, hmapped, -⟩ := h.exists_image hf hfollows hl hk
  obtain ⟨c', hc', hnormal⟩ := Circuit.exists_constraint_of_norm hn
  obtain rfl : c = c' := Option.some.inj (hc.symm.trans hc')
  have hcred := hl.reduced.constraint hc
  have hsignals : ∀ s ∈ n.constraint.signals, f s < right.nSignals ∧
      left.role s = right.role (f s) := fun s hs => by
    rw [Circuit.signals_of_norm hl.reduced hc hnormal] at hs
    exact (h.signals s _ (hmapped s hs)).2
  have hrole : ∀ s ∈ n.constraint.signals, sameRole left right s (f s) = true := fun s hs => by
    simpa [sameRole] using hsignals s hs
  obtain ⟨shape, hshape, hmet⟩ := PairShape.exists_ofNorms? hf hcred hnormal hrole
  refine ⟨shape, ⟨n, n', hn, hn', ?_, hconstraint ▸ hshape⟩, ?_⟩
  · rw [roleShape, roleShape, hconstraint]
    refine (Constraint.shape_renameNormal hcred hnormal hf (fun s hs => ?_) ?_).symm
    · rw [(hsignals s hs).2]
    · rw [Circuit.role_eq_constant_iff.2 rfl, Circuit.role_eq_constant_iff.2 rfl]
  · refine hmet.mono_within (PairShape.within_ofNorms? hshape) fun s t hrole heq => ?_
    have hlt : t < right.nSignals := by
      rw [sameRole, Bool.and_eq_true, decide_eq_true_eq] at hrole
      exact hrole.1
    rcases hback s (heq ▸ hlt) with rfl | hs
    · rw [← heq, hf.constant]
      exact h.constant
    · exact heq ▸ hs

/-- The pairs of a partial equivalence are a common part. -/
theorem commonPart : CommonPart left right (m.Pairs left right f) {k | k ∈ m.constraints.keys} := by
  have : Fact left.field.modulus.Prime := ⟨hl.prime⟩
  have hinjective : ∀ l l' r, m.Pairs left right f (.norm l r) → m.Pairs left right f (.norm l' r) →
      l = l' := by
    rintro l l' r ⟨n, n', hn, hn', hk, hconstraint⟩ ⟨n₁, n₁', hn₁, hn₁', hk₁, hconstraint₁⟩
    obtain rfl : n' = n₁' := Option.some.inj (hn'.symm.trans hn₁')
    have horigin := h.constraints_injective _ _ _ hk hk₁
    obtain ⟨c, hc, hnormal⟩ := Circuit.exists_constraint_of_norm hn
    obtain ⟨c₁, hc₁, hnormal₁⟩ := Circuit.exists_constraint_of_norm hn₁
    obtain ⟨g, hg⟩ := hf.exists_leftInverse
    have hsame : n.constraint = n₁.constraint := by
      rw [← Constraint.renameNormal_renameNormal (hl.reduced.constraint hc) hnormal hg,
        ← hconstraint, hconstraint₁,
        Constraint.renameNormal_renameNormal (hl.reduced.constraint hc₁) hnormal₁ hg]
    have heq : n = n₁ := by
      obtain ⟨a, k⟩ := n
      obtain ⟨a₁, k₁⟩ := n₁
      exact congrArg₂ Norm.mk hsame horigin
    exact Circuit.index_eq_of_norm_eq hn (heq ▸ hn₁)
  have hpair : ∀ l n j, left.normalize[l]? = some n → m.constraints.get? n.origin = some j →
      ∃ r : Nat, right.normalize[r]? = some ⟨n.constraint.renameNormal f, j⟩ ∧
        m.Pairs left right f (.norm l r) := fun l n j hn hk => by
    obtain ⟨r, hr'⟩ := h.exists_pair hf hfollows hl hr hfield hn hk
    exact ⟨r, hr', n, _, hn, hr', hk, rfl⟩
  constructor
  case signals => exact h.signalMatching
  case norms => exact fun l r => h.canMatch hf hfollows hl hback
  case functional =>
    rintro l r r' ⟨n, ⟨a, j⟩, hn, hn', hk, hconstraint⟩ ⟨n₁, ⟨a', j'⟩, hn₁, hn₁', hk₁, hconstraint₁⟩
    obtain rfl : n = n₁ := Option.some.inj (hn.symm.trans hn₁)
    obtain rfl : a = a' := hconstraint.trans hconstraint₁.symm
    obtain rfl : j = j' := Option.some.inj (hk.symm.trans hk₁)
    exact Circuit.index_eq_of_norm_eq hn' hn₁'
  case injective => exact hinjective
  case siblings =>
    rintro l r l' hS hlt horigin hne
    have ⟨n, n', hn, hn', hk, hconstraint⟩ := hS
    have hn₁ := Array.getElem?_eq_getElem hlt
    rw [originOf_of_getElem? hn, originOf_of_getElem? hn₁] at horigin
    obtain ⟨r', hr', hS'⟩ := hpair l' _ _ hn₁ (horigin ▸ hk)
    refine ⟨r', (Array.getElem?_eq_some_iff.1 hr').1, ?_, fun heq => ?_, hS'⟩
    · rw [originOf_of_getElem? hr', originOf_of_getElem? hn']
    · exact hne (hinjective l' l r (heq ▸ hS') hS)
  case lt_nConstraints => exact fun k hk => h.lt_nConstraints hk
  case covers =>
    intro k hk l hmem
    obtain ⟨hlt, horigin⟩ := Draft.mem_siblings.1 hmem
    have hn := Array.getElem?_eq_getElem hlt
    rw [originOf_of_getElem? hn] at horigin
    obtain ⟨j, hj⟩ := SortedMap.mem_keys_iff.1 hk
    obtain ⟨r, -, hS⟩ := hpair l _ j hn (horigin ▸ hj)
    exact ⟨r, hS⟩

end Mapping.IsPartialEquivalence

end CircuitEquiv
