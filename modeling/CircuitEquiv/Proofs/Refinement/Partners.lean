-- SUMMARY: What refinement leaves open of the signals of polynomials: classes agree on all but the labels of partners.
import CircuitEquiv.Proofs.Refinement.Saturation

/-!
# Signals of polynomials

The part that a signal plays in a polynomial shows the labels of its partners, the signals that it is
multiplied with. A round that relabels signals puts the open classes of their norms onto the frontier,
but not the classes of their partners. So the signals of a class that is open at the end agree on their
norms and coefficients, while the labels of their partners may have been told apart later. Where no norm
has more than one quadratic term the other norms of the class fix the labels of the partners, and the
refinement stops saturated.
-/

namespace CircuitEquiv

/-- Elements that correspond by one pair of functions correspond by another one that they determine. -/
theorem perm_map_of_perm_map {α β γ δ : Type} {f : α → γ} {f' : β → γ} {g : α → δ} {g' : β → δ}
    {l : List α} {l' : List β} (h : (l.map f).Perm (l'.map f'))
    (hfg : ∀ a ∈ l, ∀ b ∈ l', f a = f' b → g a = g' b) : (l.map g).Perm (l'.map g') := by
  obtain ⟨l'', heq, hperm⟩ : Relation.Comp (· = List.map f' ·) List.Perm (l.map f) l' := by
    rw [List.eq_map_comp_perm]
    exact h
  have hlength : l.length = l''.length := by simpa using congrArg List.length heq
  have hmap : l.map g = l''.map g' := by
    refine List.ext_getElem (by simpa using hlength) fun k hk hk' => ?_
    rw [List.length_map] at hk hk'
    rw [List.getElem_map, List.getElem_map]
    refine hfg _ (List.getElem_mem hk) _ (hperm.mem_iff.1 (List.getElem_mem hk')) ?_
    have hk'' := List.getElem_of_eq heq (by rwa [List.length_map] : k < (l.map f).length)
    rwa [List.getElem_map, List.getElem_map] at hk''
  rw [hmap]
  exact hperm.map g'

/-! ## Parts without partners -/

/-- The part of a signal without the labels of its partners. -/
def Characteristic.withoutPartners : Characteristic → Characteristic
  | .product ab side c => .product ab side c
  | .polynomial mult linear => .polynomial (ascending (mult.map fun t => (default, t.2))) linear

/-- The number of quadratic terms of a polynomial; a product has none. -/
def Constraint.nQuadratic : Constraint → Nat
  | .r1cs _ => 0
  | .acir p => p.mult.size

/-- Labels that are all the same tell no partners apart. -/
theorem Constraint.characteristic_default (c : Constraint) (s : Signal)
    (labels : Signal → ClassLabel) :
    c.characteristic s (fun _ => default) = (c.characteristic s labels).withoutPartners := by
  cases c with
  | r1cs r =>
    show r.characteristic s = (r.characteristic s).withoutPartners
    simp only [R1csConstraint.characteristic]
    split
    · rfl
    · split <;> rfl
  | acir p =>
    refine congrArg (Characteristic.polynomial · _) (ascending_eq_of_perm ?_)
    refine .trans (.of_eq ?_) ((ascending_perm _).map _).symm
    rw [List.map_filterMap]
    refine List.filterMap_congr fun e _ => ?_
    show (AcirConstraint.partner? s e.1).map _ = ((AcirConstraint.partner? s e.1).map _).map _
    rw [Option.map_map]
    rfl

theorem ascendingPair_right_injective {α : Type} [Ord α] {a b c : α}
    (h : ascendingPair a b = ascendingPair a c) : b = c := by
  unfold ascendingPair at h
  split at h <;> split at h <;> simp_all

namespace AcirConstraint

variable {p q : AcirConstraint} {labels : Signal → ClassLabel} {s t u v : Signal}
  {pair pair' : Signal × Signal}

theorem ascendingPair_of_partner? (h : partner? s pair = some t) :
    ascendingPair (labels pair.1) (labels pair.2) = ascendingPair (labels s) (labels t) := by
  unfold partner? at h
  split at h
  · rename_i hs
    rw [hs, Option.some.inj h]
  · split at h
    · rename_i hs
      rw [hs, Option.some.inj h, ascendingPair_comm]
    · cases h

/-- Quadratic terms that look alike fix the label of one signal by that of the other. -/
theorem label_eq_of_partner?
    (hpair : ascendingPair (labels pair.1) (labels pair.2) =
      ascendingPair (labels pair'.1) (labels pair'.2))
    (ht : partner? s pair = some t) (hu : partner? v pair' = some u) (h : labels s = labels v) :
    labels t = labels u := by
  rw [ascendingPair_of_partner? ht, ascendingPair_of_partner? hu, h] at hpair
  exact ascendingPair_right_injective hpair

theorem ascendingPair_of_shape_eq {value value' : Nat} (hp : p.mult.entries = [(pair, value)])
    (hq : q.mult.entries = [(pair', value')]) (h : p.shape labels = q.shape labels) :
    ascendingPair (labels pair.1) (labels pair.2) =
      ascendingPair (labels pair'.1) (labels pair'.2) := by
  unfold shape at h
  rw [hp, hq] at h
  injection h with hmult
  exact congrArg Prod.fst (List.cons.inj hmult).1

/-- The part that a signal plays in a polynomial with at most one quadratic term. -/
theorem characteristic_of_entries_eq_toList {term : Option ((Signal × Signal) × Nat)}
    (hp : p.mult.entries = term.toList) :
    p.characteristic s labels = .polynomial
      (term.bind fun e => (partner? s e.1).map fun t => (labels t, e.2)).toList
      (Terms.coefficient p.linear s) := by
  rw [characteristic, hp]
  refine congrArg (Characteristic.polynomial · _) ?_
  cases term with
  | none => simp [ascending]
  | some e =>
    show ascending (List.filterMap _ [e]) = ((partner? s e.1).map _).toList
    cases hpartner : partner? s e.1 <;> simp [ascending, hpartner]

end AcirConstraint

theorem exists_eq_toList_of_length_le_one {α : Type} {l : List α} (h : l.length ≤ 1) :
    ∃ o : Option α, l = o.toList := by
  match l, h with
  | [], _ => exact ⟨none, rfl⟩
  | [a], _ => exact ⟨some a, rfl⟩

/-- At most one part shows its coefficient even without the label. -/
theorem map_snd_eq_of_withoutPartners_eq {x y : Option (ClassLabel × Nat)} {k l : Nat}
    (h : (Characteristic.polynomial x.toList k).withoutPartners =
      (Characteristic.polynomial y.toList l).withoutPartners) :
    x.map (·.2) = y.map (·.2) ∧ k = l := by
  injection h with hmult hlinear
  refine ⟨?_, hlinear⟩
  cases x <;> cases y <;> simp_all [ascending]

/-- Constraints of one shape are of one dialect. -/
theorem Constraint.dialect_eq_of_shape_eq {c d : Constraint} {labels labels' : Signal → ClassLabel}
    (h : c.shape labels = d.shape labels') : c.dialect = d.dialect := by
  have hproduct : ∀ (r : R1csConstraint) (p : AcirConstraint) (l l' : Signal → ClassLabel),
      r.shape l ≠ p.shape l' := by
    intro r p l l' h
    unfold R1csConstraint.shape at h
    dsimp only at h
    split at h <;> cases h
  cases c with
  | r1cs r =>
    cases d with
    | r1cs r' => rfl
    | acir q => exact absurd h (hproduct r q labels labels')
  | acir p =>
    cases d with
    | r1cs r' => exact absurd h.symm (hproduct r' p labels' labels)
    | acir q => rfl

/-- Constraints of one shape with at most one quadratic term each: two signals of one label whose parts
agree but for the labels of partners play the same part. -/
theorem Constraint.characteristic_eq_of_withoutPartners_eq {c d : Constraint} {s v : Signal}
    {labels : Signal → ClassLabel} (hc : c.nQuadratic ≤ 1) (hd : d.nQuadratic ≤ 1)
    (hshape : c.shape labels = d.shape labels) (hlabel : labels s = labels v)
    (h : (c.characteristic s labels).withoutPartners =
      (d.characteristic v labels).withoutPartners) :
    c.characteristic s labels = d.characteristic v labels := by
  have hdialect := dialect_eq_of_shape_eq hshape
  match c, d, hdialect with
  | .r1cs r, .r1cs r', _ =>
    rw [← characteristic_default, ← characteristic_default] at h
    exact h
  | .acir p, .acir q, _ =>
    obtain ⟨term, hp⟩ := exists_eq_toList_of_length_le_one hc
    obtain ⟨term', hq⟩ := exists_eq_toList_of_length_le_one hd
    show p.characteristic s labels = q.characteristic v labels
    replace h : (p.characteristic s labels).withoutPartners =
      (q.characteristic v labels).withoutPartners := h
    rw [AcirConstraint.characteristic_of_entries_eq_toList hp,
      AcirConstraint.characteristic_of_entries_eq_toList hq] at h ⊢
    obtain ⟨hvalue, hlinear⟩ := map_snd_eq_of_withoutPartners_eq h
    rw [hlinear]
    refine congrArg (fun o => Characteristic.polynomial (Option.toList o) _) ?_
    cases hx : term.bind fun e => (AcirConstraint.partner? s e.1).map fun t => (labels t, e.2) with
    | none =>
      rw [hx] at hvalue
      exact (Option.map_eq_none_iff.1 hvalue.symm).symm
    | some a =>
      rw [hx] at hvalue
      obtain ⟨b, hy, hab⟩ := Option.map_eq_some_iff.1 hvalue.symm
      obtain ⟨e, rfl, ha⟩ := Option.bind_eq_some_iff.1 hx
      obtain ⟨e', rfl, hb⟩ := Option.bind_eq_some_iff.1 hy
      obtain ⟨t, ht, rfl⟩ := Option.map_eq_some_iff.1 ha
      obtain ⟨u, hu, rfl⟩ := Option.map_eq_some_iff.1 hb
      have hpair := AcirConstraint.ascendingPair_of_shape_eq hp hq hshape
      rw [hy, AcirConstraint.label_eq_of_partner? hpair ht hu hlabel, hab]

namespace RefinementState

variable {graphs : Array SideGraph} {s : RefinementState} {i j : Item} {norms norms' signals : Labelling}

/-! ## Keys without partners -/

/-- The key of a signal with the labels of all partners left out. -/
def partnerlessKey (graphs : Array SideGraph) (norms : Labelling) (i : Item) : SignalKey :=
  signalKey graphs norms #[] i

theorem partnerlessKey_eq (norms signals : Labelling) (i : Item) :
    partnerlessKey graphs norms i = ascending ((normsOf graphs i).map fun n =>
      (norms.label n, ((normOf graphs n).characteristic i.index fun s =>
        signals.label ⟨i.side, s⟩).withoutPartners)) := by
  simp only [← Constraint.characteristic_default]
  simp [partnerlessKey, signalKey_eq, Labelling.label]

/-- Signals with one key have one key without partners. -/
theorem partnerlessKey_eq_of_signalKey_eq
    (h : signalKey graphs norms signals i = signalKey graphs norms signals j) :
    partnerlessKey graphs norms i = partnerlessKey graphs norms j := by
  have hperm := (perm_of_ascending_eq h).map fun e => (e.1, e.2.withoutPartners)
  rw [List.map_map, List.map_map] at hperm
  rw [partnerlessKey_eq norms signals i, partnerlessKey_eq norms signals j]
  exact ascending_eq_of_perm hperm

/-- The key without partners depends on the labels of the norms only. -/
theorem partnerlessKey_congr (h : ∀ n ∈ normsOf graphs i, norms.label n = norms'.label n) :
    partnerlessKey graphs norms i = partnerlessKey graphs norms' i := by
  rw [partnerlessKey_eq norms #[], partnerlessKey_eq norms' #[]]
  congr 1
  exact List.map_congr_left fun n hn => by rw [h n hn]

/-! ## Runs -/

/-- What every state of a run satisfies of the signals of polynomials, too: the open classes that are on
no frontier are uniform up to the labels of partners. -/
structure IsStableUpToPartners (graphs : Array SideGraph) (s : RefinementState) : Prop
    extends s.IsStable graphs where
  uniform_partnerless : IsUniform s.signals (partnerlessKey graphs s.norms.labels)

section Stable

variable (hsides : graphs.size = 1 ∨ graphs.size = 2) (hgraphs : ∀ G ∈ graphs, G.IsIncidence)
include hgraphs

theorem IsStableUpToPartners.afterNorms (hs : s.IsStableUpToPartners graphs) :
    (s.afterNorms graphs).IsStableUpToPartners graphs := by
  refine ⟨hs.toIsStable.afterNorms hgraphs, fun i j hi hj heq hopen hfrontier => ?_⟩
  rw [signal_labels_afterNorms] at hi hj heq hopen hfrontier
  have hkey : ∀ k, s.signals.labels.Valid k → s.signals.labels.label k = s.signals.labels.label i →
      partnerlessKey graphs (s.afterNorms graphs).norms.labels k =
        partnerlessKey graphs s.norms.labels k := by
    intro k hk hlabel
    rw [← hlabel] at hopen hfrontier
    exact partnerlessKey_congr fun n hn => hs.norm_label_afterNorms hgraphs hk hopen hfrontier hn
  rw [hkey i hi rfl, hkey j hj heq.symm]
  exact hs.uniform_partnerless i j hi hj heq hopen fun h =>
    hfrontier (mem_insertAll_openLabels.2 (Or.inr h))

include hsides in
theorem IsStableUpToPartners.afterSignals (hs : s.IsStableUpToPartners graphs)
    (hcheck : checkGroups .signal graphs.size (s.round + 1) (s.signalGroups graphs) = .ok ()) :
    (s.afterSignals graphs).IsStableUpToPartners graphs := by
  refine ⟨hs.toIsStable.afterSignals hsides hgraphs hcheck, fun i j hi hj heq hopen _ => ?_⟩
  rw [signal_labels_afterSignals] at hi hj heq hopen
  rw [norm_labels_afterSignals]
  -- the round looks at the partners, too, so it leaves no more together than it would without them
  exact key_eq_of_label_relabel_eq (fun _ _ => partnerlessKey_eq_of_signalKey_eq)
    hs.issued_signals hs.uniform_partnerless ((Labelling.valid_relabel _).1 hi)
    ((Labelling.valid_relabel _).1 hj) heq hopen

include hsides in
theorem roundOf_isStableUpToPartners (kind : ItemKind) (s t : RefinementState) (split : Bool)
    (hs : s.IsStableUpToPartners graphs) (h : s.roundOf graphs kind = .ok (t, split)) :
    t.IsStableUpToPartners graphs := by
  cases kind with
  | norm =>
    obtain ⟨-, rfl, -⟩ := (normRound_eq_ok_iff graphs s).1 h
    exact hs.afterNorms hgraphs
  | signal =>
    obtain ⟨hcheck, rfl, -⟩ := (signalRound_eq_ok_iff graphs s).1 h
    exact hs.afterSignals hsides hgraphs hcheck

omit hgraphs in
theorem seeded_isStableUpToPartners (graphs : Array SideGraph) :
    (seeded graphs).IsStableUpToPartners graphs where
  toIsStable := seeded_isStable graphs
  uniform_partnerless _ _ hi _ _ _ hfrontier :=
    absurd (mem_signal_frontier_seeded hi) hfrontier

end Stable

/-! ## Norms with at most one quadratic term -/

/-- No norm has more than one quadratic term. -/
def HasSingleProducts (graphs : Array SideGraph) : Prop :=
  ∀ G ∈ graphs, ∀ c ∈ G.norms, c.nQuadratic ≤ 1

theorem nQuadratic_normOf (h : HasSingleProducts graphs) (i : Item) :
    (normOf graphs i).nQuadratic ≤ 1 := by
  rcases normOf_eq_default_or_mem graphs i with heq | ⟨G, hG, hc⟩
  · rw [heq]
    exact Nat.zero_le 1
  · exact h G hG _ hc

end RefinementState

open RefinementState

/-! ## Saturation up to partners -/

/-- On one side the items of a class have one key, in settled classes, too. -/
theorem Labelling.IsSaturated.key_eq {κ : Type} [Ord κ] [Std.TransOrd κ] {l : Labelling}
    {key : Item → κ} {i j : Item} (h : l.IsSaturated key) (hsize : l.size = 1) (hi : l.Valid i)
    (hj : l.Valid j) (heq : l.label i = l.label j) : key i = key j := by
  cases hopen : (l.label i).isSingular with
  | false => exact h.uniform i j hi hj heq hopen
  | true =>
    have hside := side_lt_of_valid hi
    have hside' := side_lt_of_valid hj
    rw [h.settled i j hi hj heq hopen (by omega)]

namespace Refinement

variable {graphs : Array SideGraph} {r : Refinement} {i j : Item}

theorem isSaturated_partnerlessKey (hsides : graphs.size = 1 ∨ graphs.size = 2)
    (hgraphs : ∀ G ∈ graphs, G.IsIncidence) (h : ofGraphs graphs = .ok r) :
    r.signalLabels.IsSaturated (partnerlessKey graphs r.normLabels) := by
  obtain ⟨-, -, s, hruns, rfl⟩ := ofGraphs_eq_ok_iff.1 h
  have hs := hruns.invariant (roundOf_isStableUpToPartners hsides hgraphs)
    (seeded_isStableUpToPartners graphs)
  exact Labelling.isSaturated_of_isUniform hs.settled_signals hs.uniform_partnerless
    (hruns.frontierOf_eq_empty (fun h => by cases h) .signal)

/-- Where no norm has more than one quadratic term, a norm fixes the labels of partners. -/
theorem signalKey_eq_of_partnerlessKey_eq (hsize : graphs.size = 1)
    (hgraphs : ∀ G ∈ graphs, G.IsIncidence) (hsingle : HasSingleProducts graphs)
    (hr : r.IsSaturated graphs) (hi : r.signalLabels.Valid i) (hj : r.signalLabels.Valid j)
    (heq : r.signalLabels.label i = r.signalLabels.label j)
    (h : partnerlessKey graphs r.normLabels i = partnerlessKey graphs r.normLabels j) :
    signalKey graphs r.normLabels r.signalLabels i =
      signalKey graphs r.normLabels r.signalLabels j := by
  have hvalid : ∀ i, r.signalLabels.Valid i → ∀ n ∈ normsOf graphs i, r.normLabels.Valid n ∧
      n.side = 0 ∧ i.side = 0 := by
    intro i hi n hn
    obtain ⟨hside, G, hG, c, hc, -⟩ :=
      (mem_normsOf hgraphs (valid_uniformSignals.2 ((hr.valid_signals i).1 hi))).1 hn
    have hlt := side_lt_of_valid hi
    rw [hr.size_signals] at hlt
    exact ⟨(hr.valid_norms n).2 ⟨G, hside ▸ hG, (Array.getElem?_eq_some_iff.1 hc).1⟩, by omega, by omega⟩
  rw [partnerlessKey_eq r.normLabels r.signalLabels i, partnerlessKey_eq r.normLabels r.signalLabels j] at h
  rw [signalKey_eq, signalKey_eq]
  refine ascending_eq_of_perm (perm_map_of_perm_map (perm_of_ascending_eq h) fun n hn m hm hnm => ?_)
  obtain ⟨hlabel, hpart⟩ := Prod.ext_iff.1 hnm
  obtain ⟨hnvalid, hn0, hi0⟩ := hvalid i hi n hn
  obtain ⟨hmvalid, hm0, hj0⟩ := hvalid j hj m hm
  have hshape := hr.norms.key_eq (hr.size_norms.trans hsize) hnvalid hmvalid hlabel
  rw [normKey_eq, normKey_eq, hn0, hm0] at hshape
  rw [hi0, hj0] at hpart ⊢
  rw [← show (⟨0, i.index⟩ : Item) = i by rw [← hi0], ← show (⟨0, j.index⟩ : Item) = j by rw [← hj0]] at heq
  exact Prod.ext hlabel (Constraint.characteristic_eq_of_withoutPartners_eq (nQuadratic_normOf hsingle n)
    (nQuadratic_normOf hsingle m) hshape heq hpart)

/-- A refined circuit is saturated up to the labels of partners: signals that carry one label that is
not settled agree on the labels of their norms and on their coefficients there. Where every norm has at
most one quadratic term, they agree on the labels of their partners, too. -/
theorem single_saturated_up_to_partners (circuit : Circuit) (norms : Array Norm) :
    (single circuit norms).signalLabels.IsSaturated
      (partnerlessKey #[.ofCircuit circuit norms] (single circuit norms).normLabels) ∧
    ((∀ n ∈ norms, n.constraint.nQuadratic ≤ 1) →
      (single circuit norms).signalLabels.IsSaturated
        (signalKey #[.ofCircuit circuit norms] (single circuit norms).normLabels
          (single circuit norms).signalLabels)) := by
  have hgraphs : ∀ G ∈ #[SideGraph.ofCircuit circuit norms], G.IsIncidence := fun G hG => by
    rw [Array.mem_singleton.1 hG]
    exact SideGraph.isIncidence_ofCircuit _ _
  have hr := isSaturated_of_ofGraphs (Or.inl rfl) hgraphs (ofGraphs_single circuit norms)
  have hpartnerless := isSaturated_partnerlessKey (Or.inl rfl) hgraphs (ofGraphs_single circuit norms)
  refine ⟨hpartnerless, fun hsingle => ?_⟩
  have hproducts : HasSingleProducts #[SideGraph.ofCircuit circuit norms] := fun G hG c hc => by
    rw [Array.mem_singleton.1 hG] at hc
    obtain ⟨n, hn, rfl⟩ := Array.mem_map.1 hc
    exact hsingle n hn
  refine @Labelling.isSaturated_of_isUniform _ _ _ _ _ ⟨(single circuit norms).signalLabels, .empty⟩ _
    hpartnerless.settled (fun i j hi hj heq hopen _ => ?_) rfl
  exact signalKey_eq_of_partnerlessKey_eq rfl hgraphs hproducts hr hi hj heq
    (hpartnerless.uniform i j hi hj heq hopen)

/-- Inputs 1 and 2 are each multiplied with a partner, in constraints of their own. -/
def twinProducts : Circuit where
  field := Circuit.Sample.field
  dialect := .acir
  nSignals := 5
  constraints := #[.acir (.ofTerms Circuit.Sample.field [((1, 3), 1)] [] 1),
    .acir (.ofTerms Circuit.Sample.field [((2, 4), 1)] [] 1)]
  inputs := .ofList [1, 2]
  outputs := .empty
  nSignals_pos := by decide
  inputs_declarable := by decide
  outputs_declarable := by decide
  inputs_disjoint_outputs := by decide
  constraints_wellFormed := by decide

theorem single_saturated_up_to_partners_twinProducts :
    (∀ n ∈ twinProducts.normalize, n.constraint.nQuadratic ≤ 1) ∧
    (single twinProducts twinProducts.normalize).signalLabels.label ⟨0, 1⟩ =
      (single twinProducts twinProducts.normalize).signalLabels.label ⟨0, 2⟩ ∧
    ((single twinProducts twinProducts.normalize).signalLabels.label ⟨0, 1⟩).isSingular = false ∧
    (single twinProducts twinProducts.normalize).signalLabels.IsSaturated
      (signalKey #[.ofCircuit twinProducts twinProducts.normalize]
        (single twinProducts twinProducts.normalize).normLabels
        (single twinProducts twinProducts.normalize).signalLabels) := by
  have hsingle : ∀ n ∈ twinProducts.normalize, n.constraint.nQuadratic ≤ 1 := by decide +kernel
  exact ⟨hsingle, by decide +kernel, by decide +kernel, (single_saturated_up_to_partners _ _).2 hsingle⟩

/-- Inputs 1 and 2 are each multiplied with a partner, in one constraint. A second constraint tells the
partners apart. -/
def joinedProducts : Circuit where
  field := Circuit.Sample.field
  dialect := .acir
  nSignals := 5
  constraints := #[.acir (.ofTerms Circuit.Sample.field [((1, 3), 1), ((2, 4), 1)] [] 1),
    .acir (.ofTerms Circuit.Sample.field [] [(3, 1)] 5)]
  inputs := .ofList [1, 2]
  outputs := .empty
  nSignals_pos := by decide
  inputs_declarable := by decide
  outputs_declarable := by decide
  inputs_disjoint_outputs := by decide
  constraints_wellFormed := by decide

/-- Two quadratic terms in one norm are enough to end unsaturated: when the partners of the inputs are
told apart both norms are settled, so no round looks at the inputs again. -/
theorem joinedProducts_not_saturated :
    joinedProducts.dialect = .acir ∧
    (single joinedProducts joinedProducts.normalize).signalLabels.label ⟨0, 1⟩ =
      (single joinedProducts joinedProducts.normalize).signalLabels.label ⟨0, 2⟩ ∧
    ((single joinedProducts joinedProducts.normalize).signalLabels.label ⟨0, 1⟩).isSingular = false ∧
    signalKey #[.ofCircuit joinedProducts joinedProducts.normalize]
        (single joinedProducts joinedProducts.normalize).normLabels
        (single joinedProducts joinedProducts.normalize).signalLabels ⟨0, 1⟩ ≠
      signalKey #[.ofCircuit joinedProducts joinedProducts.normalize]
        (single joinedProducts joinedProducts.normalize).normLabels
        (single joinedProducts joinedProducts.normalize).signalLabels ⟨0, 2⟩ := by
  have hnorms : (single joinedProducts joinedProducts.normalize).normLabels =
      #[#[.singular 2, .singular 1]] := by cbv
  have hsignals : (single joinedProducts joinedProducts.normalize).signalLabels =
      #[#[.singular 0, .initial 1, .initial 1, .singular 3, .singular 4]] := by cbv
  rw [hnorms, hsignals]
  have hfirst : signalKey #[.ofCircuit joinedProducts joinedProducts.normalize]
      #[#[.singular 2, .singular 1]]
      #[#[.singular 0, .initial 1, .initial 1, .singular 3, .singular 4]] ⟨0, 1⟩ =
      [(.singular 2, .polynomial [(.singular 3, 1)] 0)] := by cbv
  have hsecond : signalKey #[.ofCircuit joinedProducts joinedProducts.normalize]
      #[#[.singular 2, .singular 1]]
      #[#[.singular 0, .initial 1, .initial 1, .singular 3, .singular 4]] ⟨0, 2⟩ =
      [(.singular 2, .polynomial [(.singular 4, 1)] 0)] := by cbv
  rw [hfirst, hsecond]
  decide

end Refinement

end CircuitEquiv
