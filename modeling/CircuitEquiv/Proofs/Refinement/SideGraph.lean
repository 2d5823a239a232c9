-- SUMMARY: What incidence graphs and labellings hold for each item, and that equivalent circuits have isomorphic graphs.
import CircuitEquiv.Proofs.Circuit.NormCorrespondence
import CircuitEquiv.Refinement.SideGraph

/-!
# Incidence graphs and labellings

The graph of a circuit lists for every signal the norms it occurs in and for every norm its signals.
A full equivalence of two circuits is an isomorphism of their graphs: it matches signals and norms,
keeps roles and incidence, and keeps the shapes of norms under labels that move along.
-/

namespace CircuitEquiv

/-! ## Tables of occurrences -/

/-- A table that is filled from pairs holds, at each place, what the pairs put there, latest first. -/
theorem getElem?_foldl_modify (pairs : List (Nat × Nat)) (table : Array (List Nat)) (s : Nat) :
    (pairs.foldl (fun table (s, n) => table.modify s (n :: ·)) table)[s]? =
      (table[s]?).map fun l => ((pairs.filter (·.1 = s)).map (·.2)).reverse ++ l := by
  induction pairs generalizing table with
  | nil => simp
  | cons e rest ih =>
    obtain ⟨t, n⟩ := e
    rw [List.foldl_cons, ih, Array.getElem?_modify]
    by_cases h : t = s
    · subst h
      cases table[t]? <;> simp
    · simp [h]

namespace SideGraph

variable {circuit : Circuit} {norms : Array Norm}

theorem norms_ofCircuit (i : Nat) :
    (ofCircuit circuit norms).norms[i]? = (norms[i]?).map (·.constraint) := by
  simp [ofCircuit]

theorem size_norms_ofCircuit : (ofCircuit circuit norms).norms.size = norms.size := by
  simp [ofCircuit]

theorem size_roles_ofCircuit : (ofCircuit circuit norms).roles.size = circuit.nSignals := by
  simp [ofCircuit]

theorem roles_ofCircuit {s : Signal} (hs : s < circuit.nSignals) :
    (ofCircuit circuit norms).roles[s]? = some (circuit.role s) := by
  simp [ofCircuit, hs]

/-- The incidences of a circuit: a signal and the index of a norm in which it occurs. -/
def incidences (norms : Array Norm) : List (Signal × Nat) :=
  (norms.map fun n => n.constraint.signals.toList).toList.zipIdx.flatMap fun (signals, n) =>
    signals.map fun s => (s, n)

theorem mem_incidences {s : Signal} {i : Nat} :
    (s, i) ∈ incidences norms ↔ ∃ n, norms[i]? = some n ∧ s ∈ n.constraint.signals := by
  simp only [incidences, List.mem_flatMap, List.mem_map, Prod.exists, List.mem_zipIdx_iff_getElem?,
    Array.getElem?_toList, Array.getElem?_map, Option.map_eq_some_iff]
  constructor
  · rintro ⟨signals, j, ⟨n, hn, rfl⟩, t, ht, heq⟩
    obtain ⟨rfl, rfl⟩ := Prod.mk.inj heq
    exact ⟨n, hn, ht⟩
  · rintro ⟨n, hn, hs⟩
    exact ⟨_, i, ⟨n, hn, rfl⟩, s, hs, rfl⟩

theorem nodup_incidences (norms : Array Norm) : (incidences norms).Nodup := by
  rw [incidences, List.nodup_flatMap]
  constructor
  · rintro ⟨signals, i⟩ hmem
    rw [List.mem_zipIdx_iff_getElem?, Array.getElem?_toList, Array.getElem?_map,
      Option.map_eq_some_iff] at hmem
    obtain ⟨n, -, rfl⟩ := hmem
    exact (SortedSet.nodup_toList _).map fun s t h => congrArg Prod.fst h
  · have hindices : ((norms.map fun n => n.constraint.signals.toList).toList.zipIdx.map
        Prod.snd).Nodup := by
      rw [List.zipIdx_map_snd]
      exact List.nodup_range'
    refine (List.pairwise_map.1 hindices).imp ?_
    rintro ⟨x, i⟩ ⟨y, j⟩ hij e he he'
    obtain ⟨s, -, rfl⟩ := List.mem_map.1 he
    obtain ⟨t, -, ht⟩ := List.mem_map.1 he'
    exact hij (congrArg Prod.snd ht).symm

theorem signalNorms_ofCircuit {s : Signal} (hs : s < circuit.nSignals) :
    (ofCircuit circuit norms).signalNorms[s]? =
      some (((incidences norms).filter (·.1 = s)).map (·.2)) := by
  have htable := getElem?_foldl_modify (incidences norms) (Array.replicate circuit.nSignals []) s
  rw [Array.getElem?_replicate, if_pos hs] at htable
  show (Array.map List.reverse _)[s]? = _
  rw [Array.getElem?_map]
  refine (congrArg (Option.map List.reverse) htable).trans ?_
  simp

theorem nodup_signalNorms {s : Signal} (hs : s < circuit.nSignals) :
    ((ofCircuit circuit norms).signalNorms[s]?.getD []).Nodup := by
  rw [signalNorms_ofCircuit hs, Option.getD_some]
  refine List.Nodup.map_on ?_ ((nodup_incidences norms).filter _)
  rintro ⟨x, i⟩ hx ⟨y, j⟩ hy rfl
  have hxs := of_decide_eq_true (List.mem_filter.1 hx).2
  have hys := of_decide_eq_true (List.mem_filter.1 hy).2
  exact Prod.ext (hxs.trans hys.symm) rfl

/-- A signal lists the norms it occurs in. -/
theorem mem_signalNorms {s : Signal} (hs : s < circuit.nSignals) {i : Nat} :
    i ∈ (ofCircuit circuit norms).signalNorms[s]?.getD [] ↔
      ∃ n, norms[i]? = some n ∧ s ∈ n.constraint.signals := by
  rw [signalNorms_ofCircuit hs, Option.getD_some, ← mem_incidences]
  simp

/-! ## Isomorphic graphs -/

/-- An isomorphism of graphs: bijections of signals and norms that keep roles and incidence, and under
which norms have the same shape wherever labels move along. -/
structure IsIsomorphism (G H : SideGraph) (σ ν : Nat → Nat) : Prop where
  signals : Set.BijOn σ (Set.Iio G.roles.size) (Set.Iio H.roles.size)
  norms : Set.BijOn ν (Set.Iio G.norms.size) (Set.Iio H.norms.size)
  roles : ∀ s < G.roles.size, H.roles[σ s]? = G.roles[s]?
  shape : ∀ (labels labels' : Signal → ClassLabel),
    (∀ s < G.roles.size, labels' (σ s) = labels s) → ∀ i < G.norms.size,
      (H.norms[ν i]?.getD default).shape labels' = (G.norms[i]?.getD default).shape labels
  characteristic : ∀ (labels labels' : Signal → ClassLabel),
    (∀ s < G.roles.size, labels' (σ s) = labels s) → ∀ i < G.norms.size, ∀ s < G.roles.size,
      (H.norms[ν i]?.getD default).characteristic (σ s) labels' =
        (G.norms[i]?.getD default).characteristic s labels
  signalNorms : ∀ s < G.roles.size,
    (H.signalNorms[σ s]?.getD []).Perm ((G.signalNorms[s]?.getD []).map ν)
  lt_of_mem_signalNorms : ∀ s < G.roles.size, ∀ i ∈ G.signalNorms[s]?.getD [], i < G.norms.size

end SideGraph

namespace FullEquivalence

variable {left right : Circuit} {σ : Signal → Signal} {κ ν : Nat → Nat}
  [hp : Fact left.field.modulus.Prime]

theorem mem_signals_imageNorm (h : FullEquivalence left right σ κ) (hl : left.IsReduced) {i : Nat}
    {n : Norm} (hn : left.normalize[i]? = some n) {s : Signal} (hs : s < left.nSignals) :
    σ s ∈ (imageNorm left σ κ n).constraint.signals ↔ s ∈ n.constraint.signals := by
  obtain ⟨c, hc, hmem⟩ := Circuit.exists_constraint_of_norm hn
  have hred := hl.constraint hc
  have hσ : signalRenaming left σ s = σ s := signalRenaming_of_lt hs
  have hsignals := Constraint.signals_of_isRescaling
    (Constraint.isRescaling_of_mem_normalize (hred.rename h.isRenaming).coefficients
      ((Constraint.mem_normalize_rename hred h.isRenaming).2 ⟨n.constraint, hmem, rfl⟩))
  rw [imageNorm, hsignals, Constraint.mem_signals_rename h.isRenaming,
    Circuit.signals_of_norm hl hc hmem]
  constructor
  · rintro ⟨t, ht, heq⟩
    have hts := h.isRenaming.injective (heq.trans hσ.symm)
    exact hts ▸ ht
  · exact fun ht => ⟨s, ht, hσ⟩

/-- Labels that move along a full equivalence move along the renaming of a norm. -/
theorem labels_of_norm (hl : left.IsReduced) {labels labels' : Signal → ClassLabel}
    (hlabels : ∀ s < left.nSignals, labels' (σ s) = labels s) {i : Nat} {n : Norm}
    (hn : left.normalize[i]? = some n) :
    ∀ s ∈ n.constraint.signals, labels' (signalRenaming left σ s) = labels s := by
  intro s hs
  have hlt := Circuit.lt_nSignals_of_norm hl hn hs
  rw [signalRenaming_of_lt hlt, hlabels s hlt]

theorem shape_imageNorm (h : FullEquivalence left right σ κ) (hl : left.IsReduced)
    {labels labels' : Signal → ClassLabel} (hlabels : ∀ s < left.nSignals, labels' (σ s) = labels s)
    {i : Nat} {n : Norm} (hn : left.normalize[i]? = some n) :
    (imageNorm left σ κ n).constraint.shape labels' = n.constraint.shape labels := by
  obtain ⟨c, hc, hmem⟩ := Circuit.exists_constraint_of_norm hn
  refine Constraint.shape_renameNormal (hl.constraint hc) hmem h.isRenaming
    (labels_of_norm hl hlabels hn) ?_
  rw [← hlabels constantSignal left.nSignals_pos, h.constant]

theorem characteristic_imageNorm (h : FullEquivalence left right σ κ) (hl : left.IsReduced)
    {labels labels' : Signal → ClassLabel} (hlabels : ∀ s < left.nSignals, labels' (σ s) = labels s)
    {i : Nat} {n : Norm} (hn : left.normalize[i]? = some n) {s : Signal} (hs : s < left.nSignals) :
    (imageNorm left σ κ n).constraint.characteristic (σ s) labels' =
      n.constraint.characteristic s labels := by
  obtain ⟨c, hc, hmem⟩ := Circuit.exists_constraint_of_norm hn
  have hσ : signalRenaming left σ s = σ s := signalRenaming_of_lt hs
  rw [← hσ]
  exact Constraint.characteristic_renameNormal (hl.constraint hc) hmem h.isRenaming
    (labels_of_norm hl hlabels hn) s

/-- A signal's image lists the images of the norms that the signal lists. -/
theorem signalNorms_perm (h : FullEquivalence left right σ κ) (hl : left.IsReduced)
    (hν : Set.BijOn ν (Set.Iio left.normalize.size) (Set.Iio right.normalize.size))
    (himage : ∀ i n, left.normalize[i]? = some n →
      right.normalize[ν i]? = some (imageNorm left σ κ n)) {s : Signal} (hs : s < left.nSignals) :
    ((SideGraph.ofCircuit right right.normalize).signalNorms[σ s]?.getD []).Perm
      (((SideGraph.ofCircuit left left.normalize).signalNorms[s]?.getD []).map ν) := by
  have hσs : σ s < right.nSignals := h.signals.mapsTo hs
  have hmap : (((SideGraph.ofCircuit left left.normalize).signalNorms[s]?.getD []).map ν).Nodup := by
    refine List.Nodup.map_on (fun i hi j hj heq => ?_) (SideGraph.nodup_signalNorms hs)
    obtain ⟨n, hn, -⟩ := (SideGraph.mem_signalNorms hs).1 hi
    obtain ⟨m, hm, -⟩ := (SideGraph.mem_signalNorms hs).1 hj
    exact hν.injOn (Array.getElem?_eq_some_iff.1 hn).1 (Array.getElem?_eq_some_iff.1 hm).1 heq
  refine (List.perm_ext_iff_of_nodup (SideGraph.nodup_signalNorms hσs) hmap).2 fun j => ?_
  rw [SideGraph.mem_signalNorms hσs, List.mem_map]
  constructor
  · rintro ⟨m, hm, hsm⟩
    obtain ⟨i, hi, rfl⟩ := hν.surjOn (Array.getElem?_eq_some_iff.1 hm).1
    have hn := Array.getElem?_eq_getElem hi
    rw [himage i _ hn] at hm
    cases hm
    exact ⟨i, (SideGraph.mem_signalNorms hs).2
      ⟨_, hn, (h.mem_signals_imageNorm hl hn hs).1 hsm⟩, rfl⟩
  · rintro ⟨i, hi, rfl⟩
    obtain ⟨n, hn, hsn⟩ := (SideGraph.mem_signalNorms hs).1 hi
    exact ⟨_, himage i n hn, (h.mem_signals_imageNorm hl hn hs).2 hsn⟩

/-- Equivalent circuits have isomorphic graphs. -/
theorem isIsomorphism (h : FullEquivalence left right σ κ) (hl : left.IsReduced)
    (hν : Set.BijOn ν (Set.Iio left.normalize.size) (Set.Iio right.normalize.size))
    (himage : ∀ i n, left.normalize[i]? = some n →
      right.normalize[ν i]? = some (imageNorm left σ κ n)) :
    SideGraph.IsIsomorphism (.ofCircuit left left.normalize) (.ofCircuit right right.normalize)
      σ ν := by
  have hnorm : ∀ i < left.normalize.size, ∃ n, left.normalize[i]? = some n := fun i hi =>
    ⟨_, Array.getElem?_eq_getElem hi⟩
  constructor
  all_goals simp only [SideGraph.size_roles_ofCircuit, SideGraph.size_norms_ofCircuit,
    SideGraph.norms_ofCircuit]
  case signals => exact h.signals
  case norms => exact hν
  case roles =>
    intro s hs
    rw [SideGraph.roles_ofCircuit hs, SideGraph.roles_ofCircuit (h.signals.mapsTo hs), h.role s hs]
  case shape =>
    intro labels labels' hlabels i hi
    obtain ⟨n, hn⟩ := hnorm i hi
    rw [hn, himage i n hn]
    exact h.shape_imageNorm hl hlabels hn
  case characteristic =>
    intro labels labels' hlabels i hi s hs
    obtain ⟨n, hn⟩ := hnorm i hi
    rw [hn, himage i n hn]
    exact h.characteristic_imageNorm hl hlabels hn hs
  case signalNorms => exact fun s hs => h.signalNorms_perm hl hν himage hs
  case lt_of_mem_signalNorms =>
    intro s hs i hi
    obtain ⟨n, hn, -⟩ := (SideGraph.mem_signalNorms hs).1 hi
    exact (Array.getElem?_eq_some_iff.1 hn).1

end FullEquivalence

end CircuitEquiv
