-- SUMMARY: Refinement stops only when no open class would split any more.
import CircuitEquiv.Proofs.Constraint.ShapeLabels
import CircuitEquiv.Proofs.Refinement.Invariance
import CircuitEquiv.Proofs.Refinement.Termination

/-!
# Saturated refinements

A class that is on no frontier has been looked at since the labels beside its members last changed:
whenever a label changes, the open classes beside it go onto a frontier. So the members of every open
class that is on no frontier have one key. At the end of a run the frontiers are empty, and computing
the keys of the open classes once more would split none of them.
-/

namespace CircuitEquiv

/-! ## Incidence -/

/-- What a graph of norms and signals has to list: for every norm its signals, for every signal its
norms, and one signal that is constant. -/
structure SideGraph.IsIncidence (G : SideGraph) : Prop where
  normSignals : ∀ i : Nat, G.normSignals[i]?.getD [] =
    (G.norms[i]?.map fun c => c.signals.toList).getD []
  signalNorms : ∀ s < G.roles.size, ∀ i : Nat, i ∈ G.signalNorms[s]?.getD [] ↔
    ∃ c, G.norms[i]? = some c ∧ s ∈ c.signals
  constant : ∀ s < G.roles.size, G.roles[s]? = some .constant ↔ s = constantSignal
  constant_lt : constantSignal < G.roles.size

theorem SideGraph.isIncidence_ofCircuit (circuit : Circuit) (norms : Array Norm) :
    (ofCircuit circuit norms).IsIncidence where
  normSignals i := by
    rw [norms_ofCircuit, Option.map_map]
    show (norms.map fun n => n.constraint.signals.toList)[i]?.getD [] = _
    rw [Array.getElem?_map]
    rfl
  signalNorms s hs i := by
    rw [size_roles_ofCircuit] at hs
    rw [mem_signalNorms hs, norms_ofCircuit]
    simp only [Option.map_eq_some_iff]
    constructor
    · rintro ⟨n, hn, hsn⟩
      exact ⟨_, ⟨n, hn, rfl⟩, hsn⟩
    · rintro ⟨-, ⟨n, hn, rfl⟩, hsn⟩
      exact ⟨n, hn, hsn⟩
  constant s hs := by
    rw [size_roles_ofCircuit] at hs
    rw [roles_ofCircuit hs, Option.some_inj, Circuit.role_eq_constant_iff]
  constant_lt := by
    rw [size_roles_ofCircuit]
    exact circuit.nSignals_pos

theorem SideGraph.isIncidence_pair (left : Circuit) (leftNorms : Array Norm) (right : Circuit)
    (rightNorms : Array Norm) :
    ∀ G ∈ #[ofCircuit left leftNorms, ofCircuit right rightNorms], G.IsIncidence := by
  intro G hG
  have hcases : G = ofCircuit left leftNorms ∨ G = ofCircuit right rightNorms := by simpa using hG
  rcases hcases with rfl | rfl <;> exact isIncidence_ofCircuit _ _

namespace RefinementState

variable {graphs : Array SideGraph} {s t : RefinementState} {i j : Item} {l l' : Labelling}

theorem valid_uniformSignals : (uniformSignals graphs).Valid i ↔
    ∃ G, graphs[i.side]? = some G ∧ i.index < G.roles.size := by
  rw [uniformSignals, Labelling.valid_constant, List.getElem?_map, Array.getElem?_toList]
  cases graphs[i.side]? <;> simp

theorem valid_uniformNorms : (uniformNorms graphs).Valid i ↔
    ∃ G, graphs[i.side]? = some G ∧ i.index < G.norms.size := by
  rw [uniformNorms, Labelling.valid_constant, List.getElem?_map, Array.getElem?_toList]
  cases graphs[i.side]? <;> simp

/-- The norm that an item stands for. -/
def normOf (graphs : Array SideGraph) (i : Item) : Constraint :=
  (graphs[i.side]?.bind (·.norms[i.index]?)).getD default

theorem normKey_eq (l : Labelling) (i : Item) :
    normKey graphs l i = (normOf graphs i).shape fun s => l.label ⟨i.side, s⟩ := rfl

theorem signalKey_eq (norms signals : Labelling) (i : Item) :
    signalKey graphs norms signals i = ascending ((normsOf graphs i).map fun n =>
      (norms.label n, (normOf graphs n).characteristic i.index fun s =>
        signals.label ⟨i.side, s⟩)) := rfl

section Incidence

variable (hgraphs : ∀ G ∈ graphs, G.IsIncidence)
include hgraphs

theorem mem_signalsOf : j ∈ signalsOf graphs i ↔
    j.side = i.side ∧ ∃ G, graphs[i.side]? = some G ∧
      ∃ c, G.norms[i.index]? = some c ∧ j.index ∈ c.signals := by
  obtain ⟨side, index⟩ := j
  unfold signalsOf
  cases hG : graphs[i.side]? with
  | none => simp
  | some G =>
    have hsignals := (hgraphs G (Array.mem_of_getElem? hG)).normSignals i.index
    rw [Option.bind_some, hsignals]
    cases hc : G.norms[i.index]? with
    | none => simp [hc]
    | some c => simp [hc, SortedSet.mem_def, and_comm, @eq_comm _ i.side]

theorem mem_normsOf (hi : (uniformSignals graphs).Valid i) : j ∈ normsOf graphs i ↔
    j.side = i.side ∧ ∃ G, graphs[i.side]? = some G ∧
      ∃ c, G.norms[j.index]? = some c ∧ i.index ∈ c.signals := by
  obtain ⟨G, hG, hlt⟩ := valid_uniformSignals.1 hi
  obtain ⟨side, index⟩ := j
  have hnorms := (hgraphs G (Array.mem_of_getElem? hG)).signalNorms i.index hlt index
  simp only [normsOf, hG, Option.bind_some, List.mem_map, Item.mk.injEq, Option.some_inj,
    exists_eq_left']
  rw [← hnorms]
  constructor
  · rintro ⟨n, hn, rfl, rfl⟩
    exact ⟨rfl, hn⟩
  · rintro ⟨rfl, hn⟩
    exact ⟨index, hn, rfl, rfl⟩

/-- A signal lists a norm exactly if the norm lists the signal. -/
theorem mem_normsOf_iff (hi : (uniformSignals graphs).Valid i) :
    j ∈ normsOf graphs i ↔ i ∈ signalsOf graphs j := by
  rw [mem_normsOf hgraphs hi, mem_signalsOf hgraphs]
  constructor
  · rintro ⟨hside, hG⟩
    exact ⟨hside.symm, hside ▸ hG⟩
  · rintro ⟨hside, hG⟩
    exact ⟨hside.symm, hside ▸ hG⟩

theorem mem_signalsOf_of_mem_signals {x : Signal} (hx : x ∈ (normOf graphs i).signals) :
    ⟨i.side, x⟩ ∈ signalsOf graphs i := by
  rw [mem_signalsOf hgraphs]
  unfold normOf at hx
  cases hG : graphs[i.side]? with
  | none =>
    rw [hG] at hx
    cases hx
  | some G =>
    rw [hG, Option.bind_some] at hx
    cases hc : G.norms[i.index]? with
    | none =>
      rw [hc] at hx
      cases hx
    | some c =>
      rw [hc] at hx
      exact ⟨rfl, G, rfl, c, hc, hx⟩

theorem roleOf_eq_constant_iff (hi : (uniformSignals graphs).Valid i) :
    roleOf graphs i = .constant ↔ i.index = constantSignal := by
  obtain ⟨G, hG, hlt⟩ := valid_uniformSignals.1 hi
  have hconstant := (hgraphs G (Array.mem_of_getElem? hG)).constant i.index hlt
  rw [← hconstant, roleOf, hG, Option.bind_some, Array.getElem?_eq_getElem hlt, Option.getD_some,
    Option.some_inj]

/-- The key of a norm depends on the labels of its signals and of the constant signal. -/
theorem normKey_congr (h : ∀ j ∈ signalsOf graphs i, l.label j = l'.label j)
    (h0 : l.label ⟨i.side, constantSignal⟩ = l'.label ⟨i.side, constantSignal⟩) :
    normKey graphs l i = normKey graphs l' i := by
  rw [normKey_eq, normKey_eq]
  refine Constraint.shape_congr fun x hx => ?_
  by_cases hx0 : x = constantSignal
  · rw [hx0, h0]
  · exact h _ (mem_signalsOf_of_mem_signals hgraphs
      (Constraint.mem_signals_of_mem_occurring hx hx0))

end Incidence

theorem normOf_eq_default_or_mem (graphs : Array SideGraph) (i : Item) :
    normOf graphs i = default ∨ ∃ G ∈ graphs, normOf graphs i ∈ G.norms := by
  unfold normOf
  cases hG : graphs[i.side]? with
  | none => exact Or.inl rfl
  | some G =>
    rw [Option.bind_some]
    cases hc : G.norms[i.index]? with
    | none => exact Or.inl rfl
    | some c => exact Or.inr ⟨G, Array.mem_of_getElem? hG, Array.mem_of_getElem? hc⟩

/-- All norms are products. -/
def IsRankOne (graphs : Array SideGraph) : Prop :=
  ∀ G ∈ graphs, ∀ c ∈ G.norms, c.dialect = .r1cs

/-- A signal plays the same part in a product under all labels. -/
theorem characteristic_normOf (h : IsRankOne graphs) (i : Item) (x : Signal)
    (labels labels' : Signal → ClassLabel) :
    (normOf graphs i).characteristic x labels = (normOf graphs i).characteristic x labels' := by
  have hdialect : (normOf graphs i).dialect = .r1cs := by
    rcases normOf_eq_default_or_mem graphs i with heq | ⟨G, hG, hc⟩
    · rw [heq]
      rfl
    · exact h G hG _ hc
  cases hc : normOf graphs i with
  | r1cs r => rfl
  | acir p =>
    rw [hc] at hdialect
    cases hdialect

/-- The key of a signal of products depends on the labels of its norms. -/
theorem signalKey_congr (h : IsRankOne graphs) {signals signals' : Labelling}
    (hnorms : ∀ n ∈ normsOf graphs i, l.label n = l'.label n) :
    signalKey graphs l signals i = signalKey graphs l' signals' i := by
  rw [signalKey_eq, signalKey_eq]
  congr 1
  refine List.map_congr_left fun n hn => ?_
  rw [hnorms n hn]
  exact congrArg _ (characteristic_normOf h _ _ _ _)

/-! ## One round -/

section Round

variable {κ : Type} [Ord κ] [Std.TransOrd κ] [Std.LawfulEqOrd κ] [DecidableEq κ]
  {mode : RefinementMode} {key : Item → κ} {n : Nat}

omit [Ord κ] [Std.TransOrd κ] [Std.LawfulEqOrd κ] [DecidableEq κ] in
/-- Two groups of one class are both parts. -/
theorem mem_splitParts_of_ne {groups : List (Group κ Item)} {g h : Group κ Item} (hg : g ∈ groups)
    (hh : h ∈ groups) (hlabel : h.1.1 = g.1.1) (hne : h ≠ g) : g ∈ splitParts groups := by
  refine List.mem_filter.2 ⟨hg, decide_eq_true ?_⟩
  rw [List.countP_eq_length_filter]
  have hg' : g ∈ groups.filter fun k => k.1.1 = g.1.1 := List.mem_filter.2 ⟨hg, by simp⟩
  have hh' : h ∈ groups.filter fun k => k.1.1 = g.1.1 := List.mem_filter.2 ⟨hh, by simp [hlabel]⟩
  match hlist : groups.filter fun k => k.1.1 = g.1.1 with
  | [] =>
    rw [hlist] at hg'
    cases hg'
  | [k] =>
    rw [hlist, List.mem_singleton] at hg' hh'
    exact absurd (hh'.trans hg'.symm) hne
  | _ :: _ :: _ =>
    rw [hlist]
    simp

/-- Members of an open class that is on no frontier have one key. -/
def IsUniform (mode : RefinementMode) (key : Item → κ) : Prop :=
  ∀ i j, mode.labels.Valid i → mode.labels.Valid j → mode.labels.label i = mode.labels.label j →
    (mode.labels.label i).isSingular = false → mode.labels.label i ∉ mode.frontier → key i = key j

/-- After a round of a kind, the members of every open class of that kind have one key, and agree on
whatever the key determines. -/
theorem key_eq_of_label_relabel_eq {key' : Item → κ}
    (hkey : ∀ i j, key i = key j → key' i = key' j)
    (hissued : ∀ i, mode.labels.Valid i → HasBeenIssued s.round s.nSingular (mode.labels.label i))
    (huniform : IsUniform mode key') (hi : mode.labels.Valid i) (hj : mode.labels.Valid j)
    (h : (mode.labels.relabel (s.splitRound n (frontierGroups mode key)).1).label i =
      (mode.labels.relabel (s.splitRound n (frontierGroups mode key)).1).label j)
    (hopen : ((mode.labels.relabel
      (s.splitRound n (frontierGroups mode key)).1).label i).isSingular = false) :
    key' i = key' j := by
  have hsplit := @isSplit_splitRound _ _ _ _ _ _ key _ n hissued
  have hlabel := label_eq_of_label_relabel_eq hissued hi hj h
  by_cases hmoved : ∃ part ∈ (s.splitRound n (frontierGroups mode key)).1, i ∈ part.2
  · -- both items are in the part that carries their new label
    obtain ⟨part, hpart, hip⟩ := hmoved
    rw [Labelling.label_relabel_of_mem hsplit.valid hsplit.disjoint hpart hip] at h
    have hjp : j ∈ part.2 := (hsplit.members_of_mem hpart).mem_iff.1
      (Labelling.mem_members.2 ⟨(Labelling.valid_relabel _).2 hj, h.symm⟩)
    obtain ⟨g, hg, heq⟩ := mem_splitGroups hpart
    rw [heq] at hip hjp
    refine hkey i j ?_
    rw [((mem_of_mem_group hg).1 hip).2.2, ((mem_of_mem_group hg).1 hjp).2.2]
  · have hnone : ∀ part ∈ (s.splitRound n (frontierGroups mode key)).1, i ∉ part.2 :=
      fun part hp hip => hmoved ⟨part, hp, hip⟩
    rw [Labelling.label_relabel_of_not_mem hsplit.valid hnone] at hopen
    by_cases hfrontier : mode.labels.label i ∈ mode.frontier
    · -- the class was looked at and not split, so both items are in its only group
      have hmem : ∀ k, mode.labels.Valid k → mode.labels.label k = mode.labels.label i →
          k ∈ mode.labels.items.filter fun i => mode.labels.label i ∈ mode.frontier := by
        intro k hk heq
        exact List.mem_filter.2 ⟨Labelling.mem_items.2 hk, by simpa [heq] using hfrontier⟩
      obtain ⟨g, hg, hgkey, hig⟩ :=
        @exists_group _ _ _ _ _ _ mode.labels.label key _ _ (hmem i hi rfl)
      obtain ⟨g', hg', hgkey', hjg⟩ :=
        @exists_group _ _ _ _ _ _ mode.labels.label key _ _ (hmem j hj hlabel.symm)
      refine hkey i j (by_contra fun hne => ?_)
      have hgroups : g' ≠ g := fun heq => hne (by
        have hkeys := hgkey.symm.trans ((congrArg Prod.fst heq).symm.trans hgkey')
        exact congrArg Prod.snd hkeys)
      have hsame : g'.1.1 = g.1.1 := by rw [hgkey, hgkey', hlabel]
      obtain ⟨part, hpart, heq⟩ := exists_splitRound_iff.2
        ⟨g, mem_splitParts_of_ne hg hg' hsame hgroups, rfl⟩
      exact hnone part hpart (heq ▸ hig)
    · exact huniform i j hi hj hlabel hopen hfrontier

end Round

/-! ## Settled classes -/

/-- A settled label is carried by one item of every side at most. -/
def SettlesOne (l : Labelling) : Prop :=
  ∀ i j, l.Valid i → l.Valid j → l.label i = l.label j → (l.label i).isSingular = true →
    i.side = j.side → i = j

theorem side_lt_of_valid (h : l.Valid i) : i.side < l.size := by
  by_contra hge
  simp [Labelling.Valid, Array.getElem?_eq_none (Nat.le_of_not_lt hge)] at h

theorem eq_of_isSettled {n : Nat} {items : List Item} (h : isSettled n items = true) (hi : i ∈ items)
    (hj : j ∈ items) (hside : i.side = j.side) (hlt : i.side < n) : i = j := by
  have hcount := List.all_eq_true.1 h _ (List.mem_map_of_mem (List.mem_range.2 hlt))
  rw [beq_iff_eq, List.countP_eq_length_filter, List.length_eq_one_iff] at hcount
  obtain ⟨k, hk⟩ := hcount
  have hi' : i ∈ items.filter (·.side = i.side) := List.mem_filter.2 ⟨hi, by simp⟩
  have hj' : j ∈ items.filter (·.side = i.side) := List.mem_filter.2 ⟨hj, by simp [hside]⟩
  rw [hk, List.mem_singleton] at hi' hj'
  rw [hi', hj']

/-- Settled parts, and no others, get settled labels. -/
theorem isSingular_labelParts {α κ : Type} {round : Nat} {settled : List α → Bool}
    {supply : LabelSupply} {groups : List (Group κ α)} {part : ClassLabel × List α}
    (hpart : part ∈ (labelParts round settled supply groups).1) :
    part.1.isSingular = settled part.2 := by
  induction groups generalizing supply with
  | nil => cases hpart
  | cons g rest ih =>
    rw [labelParts_cons] at hpart
    rcases List.mem_cons.1 hpart with rfl | hpart
    · cases hsettled : settled g.2 <;> rfl
    · exact ih hpart

theorem isSingular_seedLabels {n rank nSingular : Nat} {lists : List (List Item)}
    {part : ClassLabel × List Item} (hpart : part ∈ (seedLabels n rank nSingular lists).1) :
    part.1.isSingular = isSettled n part.2 := by
  induction lists generalizing rank nSingular with
  | nil => cases hpart
  | cons items rest ih =>
    rw [seedLabels_cons] at hpart
    split at hpart
    · rename_i hsettled
      rcases List.mem_cons.1 hpart with rfl | hpart
      · exact hsettled.symm
      · exact ih hpart
    · rename_i hsettled
      rcases List.mem_cons.1 hpart with rfl | hpart
      · exact (Bool.eq_false_iff.2 hsettled).symm
      · exact ih hpart

/-- A settled seed label stands for one item of every side. -/
theorem eq_of_mem_seedLabels {n rank nSingular : Nat} {lists : List (List Item)}
    {part part' : ClassLabel × List Item} (hpart : part ∈ (seedLabels n rank nSingular lists).1)
    (hpart' : part' ∈ (seedLabels n rank nSingular lists).1) (hi : i ∈ part.2) (hj : j ∈ part'.2)
    (heq : part.1 = part'.1) (hsingular : part.1.isSingular = true) (hside : i.side = j.side)
    (hlt : i.side < n) : i = j := by
  obtain rfl : part = part' :=
    List.inj_on_of_nodup_map (nodup_seedLabels _ _ _ _) hpart hpart' heq
  exact eq_of_isSettled ((isSingular_seedLabels hpart).symm.trans hsingular) hi hj hside hlt

/-- Relabelling settles one item of every side when settled labels go to settled parts. -/
theorem SettlesOne.relabel {parts : List (ClassLabel × List Item)} (hl : SettlesOne l)
    (hsplit : l.IsSplit parts)
    (hsettled : ∀ part ∈ parts, part.1.isSingular = isSettled l.size part.2) :
    SettlesOne (l.relabel parts) := by
  intro i j hi hj heq hsingular hside
  have hmem : ∀ {k}, k ∈ (l.relabel parts).members ((l.relabel parts).label i) ↔
      (l.relabel parts).Valid k ∧ (l.relabel parts).label k = (l.relabel parts).label i :=
    Labelling.mem_members
  have hi' := hmem.2 ⟨hi, rfl⟩
  have hj' := hmem.2 ⟨hj, heq.symm⟩
  by_cases hnew : (l.relabel parts).label i ∈ parts.map (·.1)
  · obtain ⟨part, hpart, hlabel⟩ := List.mem_map.1 hnew
    rw [← hlabel] at hi' hj' hsingular
    refine eq_of_isSettled ((hsettled part hpart).symm.trans hsingular) ((hsplit.members_of_mem hpart).mem_iff.1 hi')
      ((hsplit.members_of_mem hpart).mem_iff.1 hj') hside ?_
    exact side_lt_of_valid ((Labelling.valid_relabel _).1 hi)
  · obtain ⟨hold, hnone⟩ := (hsplit.mem_members_of_not_mem hnew).1 hi'
    obtain ⟨hold', -⟩ := (hsplit.mem_members_of_not_mem hnew).1 hj'
    rw [Labelling.mem_members] at hold hold'
    exact hl i j hold.1 hold'.1 (hold.2.trans hold'.2.symm) (by rw [hold.2]; exact hsingular) hside

/-! ## Checked classes -/

/-- A checked class of one or two sides has a member on every side. -/
theorem exists_mem_side_of_checkSizes {n : Nat} (hn : n = 1 ∨ n = 2) {kind : ItemKind}
    {label : ClassLabel} {round : Nat} {items : List Item}
    (h : checkSizes kind label round (sizes n items) = .ok ()) (hside : ∀ i ∈ items, i.side < n)
    (hi : i ∈ items) {k : Nat} (hk : k < n) : ∃ j ∈ items, j.side = k := by
  rcases hn with rfl | rfl
  · have := hside i hi
    exact ⟨i, hi, by omega⟩
  · have hbalanced := isBalanced_of_checkSizes h
    have hpos : ∀ m, (∃ j ∈ items, j.side = m) ↔ 0 < items.countP (·.side = m) := fun m => by
      simp [List.countP_pos_iff]
    have hiside := hside i hi
    have hcount := (hpos i.side).1 ⟨i, hi, rfl⟩
    unfold CircuitEquiv.IsBalanced at hbalanced
    refine (hpos k).2 ?_
    have hsides : ∀ m < 2, m = 0 ∨ m = 1 := fun m hm => by omega
    rcases hsides k hk with rfl | rfl <;> rcases hsides i.side hiside with h' | h' <;>
      rw [h'] at hcount <;> omega

section Checked

variable {κ : Type} [Ord κ] [Std.TransOrd κ] [Std.LawfulEqOrd κ] [DecidableEq κ]
  {mode : RefinementMode} {key : Item → κ} {kind : ItemKind} {n : Nat}

/-- An item of a part is not alone on its side of its class. -/
theorem exists_twin_of_mem_part (hn : n = 1 ∨ n = 2) (hsize : mode.labels.size = n)
    (hcheck : checkGroups kind n (s.round + 1) (frontierGroups mode key) = .ok ())
    {part : ClassLabel × List Item} (hpart : part ∈ (s.splitRound n (frontierGroups mode key)).1)
    (hi : i ∈ part.2) :
    ∃ j, mode.labels.Valid j ∧ j ≠ i ∧ j.side = i.side ∧
      mode.labels.label j = mode.labels.label i := by
  obtain ⟨g, hg, hgp⟩ := exists_splitRound_iff.1 ⟨part, hpart, rfl⟩
  obtain ⟨h, hh, hne, hlabel⟩ := exists_sibling (nodup_groupItems _ _ _) hg
  rw [← hgp] at hi
  have hgroup := (List.mem_filter.1 hg).1
  have hsibling := (List.mem_filter.1 hh).1
  have hside : ∀ k ∈ h.2, k.side < n := fun k hk =>
    hsize ▸ side_lt_of_valid (valid_of_mem_frontierGroups hsibling hk)
  obtain ⟨k, hk⟩ : ∃ k, k ∈ h.2 := by
    obtain ⟨⟨k, hk, hkey⟩, hmembers⟩ := mem_groupItems_iff.1 hsibling
    exact ⟨k, hmembers ▸ List.mem_filter.2 ⟨hk, decide_eq_true hkey⟩⟩
  obtain ⟨j, hj, hjside⟩ := exists_mem_side_of_checkSizes hn (forM_eq_ok_iff.1 hcheck h hsibling)
    hside hk (hsize ▸ side_lt_of_valid (valid_of_mem_frontierGroups hgroup hi))
  have hi' := ((mem_of_mem_group hgroup).1 hi).2
  have hj' := ((mem_of_mem_group hsibling).1 hj).2
  refine ⟨j, valid_of_mem_frontierGroups hsibling hj, ?_, hjside, ?_⟩
  · rintro rfl
    exact hne (Prod.ext (hj'.1.symm.trans hi'.1) (hj'.2.symm.trans hi'.2))
  · rw [hi'.1, hj'.1, hlabel]

end Checked

/-- The constant signal is settled: no signal round changes its label. -/
theorem label_constant_afterSignals (hsides : graphs.size = 1 ∨ graphs.size = 2)
    (hgraphs : ∀ G ∈ graphs, G.IsIncidence) (hs : s.IsLabelled graphs)
    (hcheck : checkGroups .signal graphs.size (s.round + 1) (s.signalGroups graphs) = .ok ())
    (k : Nat) :
    (s.afterSignals graphs).signals.labels.label ⟨k, constantSignal⟩ =
      s.signals.labels.label ⟨k, constantSignal⟩ := by
  have hsplit := @isSplit_splitRound _ _ _ _ _ s.signals
    (signalKey graphs s.norms.labels s.signals.labels) s graphs.size hs.issued_signals
  rw [signal_labels_afterSignals]
  refine Labelling.label_relabel_of_not_mem hsplit.valid fun part hpart hmem => ?_
  obtain ⟨j, hj, hne, hside, hlabel⟩ := exists_twin_of_mem_part hsides hs.size_signals hcheck hpart hmem
  have hvalid := hsplit.valid part hpart _ hmem
  have hrole := hs.role j _ hj hvalid hlabel
  rw [(roleOf_eq_constant_iff hgraphs ((hs.signals _).1 hvalid)).2 rfl,
    roleOf_eq_constant_iff hgraphs ((hs.signals _).1 hj)] at hrole
  obtain ⟨side, index⟩ := j
  cases hside
  cases hrole
  exact hne rfl

/-! ## Stability -/

/-- The classes that a round puts onto the other frontier: the open ones beside a part. -/
theorem mem_insertAll_openLabels {frontier : SortedSet ClassLabel} {adjacent : Item → List Item}
    {parts : List (ClassLabel × List Item)} {x : ClassLabel} :
    x ∈ frontier.insertAll (openLabels l (neighbours adjacent parts)) ↔
      (∃ part ∈ parts, ∃ i ∈ part.2, ∃ j ∈ adjacent i, l.label j = x ∧ x.isSingular = false) ∨
        x ∈ frontier := by
  rw [SortedSet.mem_insertAll]
  refine or_congr_left ?_
  simp only [openLabels, neighbours, List.mem_filter, List.mem_map, List.mem_flatMap,
    Bool.not_eq_true']
  constructor
  · rintro ⟨⟨j, ⟨part, hpart, i, hi, hj⟩, hlabel⟩, hopen⟩
    exact ⟨part, hpart, i, hi, j, hj, hlabel, hopen⟩
  · rintro ⟨part, hpart, i, hi, j, hj, hlabel, hopen⟩
    exact ⟨⟨j, ⟨part, hpart, i, hi, hj⟩, hlabel⟩, hopen⟩

/-- What every state of a run satisfies: settled classes have one member on a side, and the open
classes that are on no frontier are uniform. For signals this takes products, since the part of a
signal in a polynomial shows the labels of other signals. -/
structure IsStable (graphs : Array SideGraph) (s : RefinementState) : Prop
    extends s.IsLabelled graphs where
  settled_norms : SettlesOne s.norms.labels
  settled_signals : SettlesOne s.signals.labels
  uniform_norms : IsUniform s.norms (normKey graphs s.signals.labels)
  uniform_signals : IsRankOne graphs →
    IsUniform s.signals (signalKey graphs s.norms.labels s.signals.labels)

section Stable

variable (hsides : graphs.size = 1 ∨ graphs.size = 2) (hgraphs : ∀ G ∈ graphs, G.IsIncidence)
include hgraphs

/-- A norm round keeps the labels of a signal's norms, unless it puts the open class of the signal onto
the frontier. -/
theorem IsLabelled.norm_label_afterNorms (hs : s.IsLabelled graphs) (hi : s.signals.labels.Valid i)
    (hopen : (s.signals.labels.label i).isSingular = false)
    (hfrontier : s.signals.labels.label i ∉ (s.afterNorms graphs).signals.frontier)
    (hj : j ∈ normsOf graphs i) :
    (s.afterNorms graphs).norms.labels.label j = s.norms.labels.label j := by
  have hsplit := @isSplit_splitRound _ _ _ _ _ s.norms (normKey graphs s.signals.labels) s
    graphs.size hs.issued_norms
  rw [norm_labels_afterNorms]
  refine Labelling.label_relabel_of_not_mem hsplit.valid fun part hpart hmem => hfrontier ?_
  exact mem_insertAll_openLabels.2 (Or.inl ⟨part, hpart, j, hmem, i,
    (mem_normsOf_iff hgraphs ((hs.signals i).1 hi)).1 hj, rfl, hopen⟩)

theorem IsStable.afterNorms (hs : s.IsStable graphs) : (s.afterNorms graphs).IsStable graphs := by
  refine ⟨hs.toIsLabelled.afterNorms, ?_, ?_, ?_, fun hrank => ?_⟩
  · rw [norm_labels_afterNorms, ← hs.size_norms]
    exact hs.settled_norms.relabel (isSplit_splitRound hs.issued_norms) fun part hpart =>
      isSingular_labelParts hpart
  · rw [signal_labels_afterNorms]
    exact hs.settled_signals
  · intro i j hi hj heq hopen _
    rw [norm_labels_afterNorms] at hi hj heq hopen
    rw [signal_labels_afterNorms]
    exact key_eq_of_label_relabel_eq (fun _ _ => id) hs.issued_norms hs.uniform_norms
      ((Labelling.valid_relabel _).1 hi) ((Labelling.valid_relabel _).1 hj) heq hopen
  · intro i j hi hj heq hopen hfrontier
    rw [signal_labels_afterNorms] at hi hj heq hopen hfrontier
    -- no norm of a signal of the class was relabelled, or the class would be on the frontier
    have hkey : ∀ k, s.signals.labels.Valid k → s.signals.labels.label k = s.signals.labels.label i →
        signalKey graphs (s.afterNorms graphs).norms.labels s.signals.labels k =
          signalKey graphs s.norms.labels s.signals.labels k := by
      intro k hk hlabel
      rw [← hlabel] at hopen hfrontier
      exact signalKey_congr hrank fun n hn =>
        hs.norm_label_afterNorms hgraphs hk hopen hfrontier hn
    rw [signal_labels_afterNorms, hkey i hi rfl, hkey j hj heq.symm]
    exact hs.uniform_signals hrank i j hi hj heq hopen fun h =>
      hfrontier (mem_insertAll_openLabels.2 (Or.inr h))

include hsides in
theorem IsStable.afterSignals (hs : s.IsStable graphs)
    (hcheck : checkGroups .signal graphs.size (s.round + 1) (s.signalGroups graphs) = .ok ()) :
    (s.afterSignals graphs).IsStable graphs := by
  refine ⟨hs.toIsLabelled.afterSignals, ?_, ?_, ?_, fun hrank => ?_⟩
  · rw [norm_labels_afterSignals]
    exact hs.settled_norms
  · rw [signal_labels_afterSignals, ← hs.size_signals]
    exact hs.settled_signals.relabel (isSplit_splitRound hs.issued_signals) fun part hpart =>
      isSingular_labelParts hpart
  · intro i j hi hj heq hopen hfrontier
    rw [norm_labels_afterSignals] at hi hj heq hopen hfrontier
    have hnone := fun h => hfrontier (mem_insertAll_openLabels.2 h)
    have hsplit := @isSplit_splitRound _ _ _ _ _ s.signals
      (signalKey graphs s.norms.labels s.signals.labels) s graphs.size hs.issued_signals
    have hkey : ∀ k, s.norms.labels.label k = s.norms.labels.label i →
        normKey graphs (s.afterSignals graphs).signals.labels k =
          normKey graphs s.signals.labels k := by
      intro k hlabel
      refine normKey_congr hgraphs (fun x hx => ?_)
        (label_constant_afterSignals hsides hgraphs hs.toIsLabelled hcheck k.side)
      rw [signal_labels_afterSignals]
      refine Labelling.label_relabel_of_not_mem hsplit.valid fun part hpart hmem => ?_
      have hvalid := hsplit.valid part hpart x hmem
      exact hnone (Or.inl ⟨part, hpart, x, hmem, k,
        (mem_normsOf_iff hgraphs ((hs.signals x).1 hvalid)).2 hx, hlabel, hopen⟩)
    rw [hkey i rfl, hkey j heq.symm]
    exact hs.uniform_norms i j hi hj heq hopen fun h => hnone (Or.inr h)
  · intro i j hi hj heq hopen _
    rw [signal_labels_afterSignals] at hi hj heq hopen
    have hkey : ∀ k, signalKey graphs (s.afterSignals graphs).norms.labels
        (s.afterSignals graphs).signals.labels k =
        signalKey graphs s.norms.labels s.signals.labels k := fun k =>
      signalKey_congr hrank fun n _ => by rw [norm_labels_afterSignals]
    rw [hkey, hkey]
    exact key_eq_of_label_relabel_eq (fun _ _ => id) hs.issued_signals (hs.uniform_signals hrank)
      ((Labelling.valid_relabel _).1 hi) ((Labelling.valid_relabel _).1 hj) heq hopen

include hsides in
theorem roundOf_isStable (kind : ItemKind) (s t : RefinementState) (split : Bool)
    (hs : s.IsStable graphs) (h : s.roundOf graphs kind = .ok (t, split)) : t.IsStable graphs := by
  cases kind with
  | norm =>
    obtain ⟨-, rfl, -⟩ := (normRound_eq_ok_iff graphs s).1 h
    exact hs.afterNorms hgraphs
  | signal =>
    obtain ⟨hcheck, rfl, -⟩ := (signalRound_eq_ok_iff graphs s).1 h
    exact hs.afterSignals hsides hgraphs hcheck

omit hgraphs in
/-- All classes of signals are looked at in the beginning. -/
theorem mem_signal_frontier_seeded (hi : (seeded graphs).signals.labels.Valid i) :
    (seeded graphs).signals.labels.label i ∈ (seeded graphs).signals.frontier := by
  obtain ⟨part, hpart, -, -, hlabel⟩ := exists_signalSeed ((Labelling.valid_relabel _).1 hi)
  rw [hlabel]
  exact SortedSet.mem_ofList.2 (List.mem_map_of_mem hpart)

omit hgraphs in
/-- All classes are looked at in the beginning. -/
theorem seeded_isStable (graphs : Array SideGraph) : (seeded graphs).IsStable graphs where
  toIsLabelled := seeded_isLabelled graphs
  settled_norms i j hi hj heq hsingular hside := by
    obtain ⟨part, hpart, hip, hlabel⟩ := exists_normSeed ((Labelling.valid_relabel _).1 hi)
    obtain ⟨part', hpart', hjp, hlabel'⟩ := exists_normSeed ((Labelling.valid_relabel _).1 hj)
    exact eq_of_mem_seedLabels hpart hpart' hip hjp (hlabel.symm.trans (heq.trans hlabel'))
      (hlabel ▸ hsingular) hside ((seeded_isLabelled graphs).size_norms ▸ side_lt_of_valid hi)
  settled_signals i j hi hj heq hsingular hside := by
    obtain ⟨part, hpart, hip, -, hlabel⟩ := exists_signalSeed ((Labelling.valid_relabel _).1 hi)
    obtain ⟨part', hpart', hjp, -, hlabel'⟩ := exists_signalSeed ((Labelling.valid_relabel _).1 hj)
    exact eq_of_mem_seedLabels hpart hpart' hip hjp (hlabel.symm.trans (heq.trans hlabel'))
      (hlabel ▸ hsingular) hside ((seeded_isLabelled graphs).size_signals ▸ side_lt_of_valid hi)
  uniform_norms i j hi _ _ _ hfrontier := by
    obtain ⟨part, hpart, -, hlabel⟩ := exists_normSeed ((Labelling.valid_relabel _).1 hi)
    refine absurd ?_ hfrontier
    rw [hlabel]
    exact SortedSet.mem_ofList.2 (List.mem_map_of_mem hpart)
  uniform_signals _ _ _ hi _ _ _ hfrontier := absurd (mem_signal_frontier_seeded hi) hfrontier

end Stable

/-! ## Recomputing keys -/

/-- Keys that are equal within every class split nothing. -/
theorem splitParts_eq_nil {κ : Type} [Ord κ] [Std.TransOrd κ] [Std.LawfulEqOrd κ] [DecidableEq κ]
    {label : Item → ClassLabel} {key : Item → κ} {items : List Item}
    (h : ∀ i ∈ items, ∀ j ∈ items, label i = label j → key i = key j) :
    splitParts (groupItems label key items) = [] := by
  refine List.eq_nil_iff_forall_not_mem.2 fun g hg => ?_
  obtain ⟨g', hg', hne, hlabel⟩ := exists_sibling (nodup_groupItems _ _ _) hg
  obtain ⟨⟨i, hi, hikey⟩, -⟩ := mem_groupItems_iff.1 (List.mem_filter.1 hg).1
  obtain ⟨⟨j, hj, hjkey⟩, -⟩ := mem_groupItems_iff.1 (List.mem_filter.1 hg').1
  rw [← hikey, ← hjkey] at hlabel
  have hkey := h j hj i hi hlabel
  rw [← hikey, ← hjkey] at hne
  exact hne (Prod.ext hlabel hkey)

/-- The items of the classes that are not settled. -/
def openItems (l : Labelling) : List Item := l.items.filter fun i => !(l.label i).isSingular

end RefinementState

/-! ## Saturated refinements -/

open RefinementState

/-- Final labels that another look at the classes would not split. -/
structure Labelling.IsSaturated {κ : Type} [Ord κ] [Std.TransOrd κ] (l : Labelling)
    (key : Item → κ) : Prop where
  /-- The members of an open class have one key. -/
  uniform : ∀ i j, l.Valid i → l.Valid j → l.label i = l.label j →
    (l.label i).isSingular = false → key i = key j
  /-- A settled class has one member on a side. -/
  settled : SettlesOne l
  /-- Grouping the open classes by their keys splits none. -/
  parts_open : splitParts (groupItems l.label key (openItems l)) = []
  /-- On one side, grouping all classes by their keys splits none. -/
  parts : l.size = 1 → splitParts (groupItems l.label key l.items) = []

/-- A refinement that ended because there was nothing left to split. -/
structure Refinement.IsSaturated (graphs : Array SideGraph) (r : Refinement) : Prop where
  size_norms : r.normLabels.size = graphs.size
  size_signals : r.signalLabels.size = graphs.size
  valid_norms : ∀ i, r.normLabels.Valid i ↔
    ∃ G, graphs[i.side]? = some G ∧ i.index < G.norms.size
  valid_signals : ∀ i, r.signalLabels.Valid i ↔
    ∃ G, graphs[i.side]? = some G ∧ i.index < G.roles.size
  norms : r.normLabels.IsSaturated (normKey graphs r.signalLabels)
  signals : IsRankOne graphs →
    r.signalLabels.IsSaturated (signalKey graphs r.normLabels r.signalLabels)

theorem Labelling.isSaturated_of_isUniform {κ : Type} [Ord κ] [Std.TransOrd κ] [Std.LawfulEqOrd κ]
    [DecidableEq κ] {mode : RefinementMode} {key : Item → κ} (hsettled : SettlesOne mode.labels)
    (huniform : IsUniform mode key) (hempty : mode.frontier = SortedSet.empty) :
    mode.labels.IsSaturated key := by
  have hkey : ∀ i j, mode.labels.Valid i → mode.labels.Valid j →
      mode.labels.label i = mode.labels.label j → (mode.labels.label i).isSingular = false →
      key i = key j := fun i j hi hj heq hopen => huniform i j hi hj heq hopen (by
    rw [hempty]
    exact List.not_mem_nil)
  refine ⟨hkey, hsettled, splitParts_eq_nil fun i hi j hj heq => ?_,
    fun hsize => splitParts_eq_nil fun i hi j hj heq => ?_⟩
  · obtain ⟨hi, hopen⟩ := List.mem_filter.1 hi
    exact hkey i j (Labelling.mem_items.1 hi) (Labelling.mem_items.1 (List.mem_filter.1 hj).1) heq
      (by simpa using hopen)
  · rw [Labelling.mem_items] at hi hj
    cases hopen : (mode.labels.label i).isSingular with
    | false => exact hkey i j hi hj heq hopen
    | true =>
      have hside := side_lt_of_valid hi
      have hside' := side_lt_of_valid hj
      rw [hsettled i j hi hj heq hopen (by omega)]

namespace Refinement

variable {graphs : Array SideGraph} {r : Refinement}

theorem isSaturated_of_ofGraphs (hsides : graphs.size = 1 ∨ graphs.size = 2)
    (hgraphs : ∀ G ∈ graphs, G.IsIncidence) (h : ofGraphs graphs = .ok r) : r.IsSaturated graphs := by
  obtain ⟨-, -, s, hruns, rfl⟩ := ofGraphs_eq_ok_iff.1 h
  have hs := hruns.invariant (roundOf_isStable hsides hgraphs) (seeded_isStable graphs)
  have hempty := hruns.frontierOf_eq_empty fun h => by cases h
  exact ⟨hs.size_norms, hs.size_signals, fun i => (hs.norms i).trans valid_uniformNorms,
    fun i => (hs.signals i).trans valid_uniformSignals,
    Labelling.isSaturated_of_isUniform hs.settled_norms hs.uniform_norms (hempty .norm),
    fun hrank => Labelling.isSaturated_of_isUniform hs.settled_signals (hs.uniform_signals hrank)
      (hempty .signal)⟩

/-- Every refinement stops saturated, that of one circuit and that of two circuits between which it
finds no difference. -/
theorem saturated :
    (∀ circuit norms, (single circuit norms).IsSaturated #[.ofCircuit circuit norms]) ∧
    ∀ left leftNorms right rightNorms r, pair left leftNorms right rightNorms = .ok r →
      r.IsSaturated #[.ofCircuit left leftNorms, .ofCircuit right rightNorms] := by
  constructor
  · intro circuit norms
    refine isSaturated_of_ofGraphs (Or.inl rfl) ?_ (ofGraphs_single circuit norms)
    rintro G hG
    rw [Array.mem_singleton.1 hG]
    exact SideGraph.isIncidence_ofCircuit _ _
  · intro left leftNorms right rightNorms r h
    refine isSaturated_of_ofGraphs (Or.inr rfl) ?_ h
    exact SideGraph.isIncidence_pair left leftNorms right rightNorms

/-- Two products that are permuted and scaled copies of each other end up saturated. -/
theorem saturated_sample :
    ∃ r, pair Circuit.Sample.left Circuit.Sample.left.normalize
        Circuit.Sample.right Circuit.Sample.right.normalize = .ok r ∧
      r.IsSaturated #[.ofCircuit Circuit.Sample.left Circuit.Sample.left.normalize,
        .ofCircuit Circuit.Sample.right Circuit.Sample.right.normalize] := by
  obtain ⟨r, hpair⟩ := Circuit.Sample.fullEquivalence.exists_pair_eq_ok Circuit.Sample.isProper_left
    Circuit.Sample.isProper_right.reduced
  exact ⟨r, hpair, saturated.2 _ _ _ _ r hpair⟩

end Refinement

end CircuitEquiv
