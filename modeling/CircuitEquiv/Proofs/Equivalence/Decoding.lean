-- SUMMARY: What a decoded mapping maps, read off the pairs that hold in the model.
import CircuitEquiv.Equivalence.Encoding
import CircuitEquiv.Proofs.Circuit.FullEquivalence
import CircuitEquiv.Proofs.Matching.Draft

/-!
# Decoding

A decoded mapping sends a signal to its partner and a constraint to the constraint of a partner of one
of its norms. Later pairs replace the image of a signal and keep that of a constraint, which makes no
difference where the pairs are the graph of a map.
-/

namespace CircuitEquiv.Mapping

open Draft (originOf)

variable {leftNorms rightNorms : Array Norm} {m : Mapping} {ps : List PairVariable}
  {vars : Numbering PairVariable} {model : Model} {σ κ : Nat → Nat} {s t k j : Nat}

theorem get?_signals_insertPairs (hps : ∀ s t, .signal s t ∈ ps → σ s = t)
    (hm : ∀ s t, m.signals.get? s = some t → σ s = t) :
    (ps.foldl (insertPair leftNorms rightNorms) m).signals.get? s = some t ↔
      m.signals.get? s = some t ∨ .signal s t ∈ ps := by
  induction ps generalizing m with
  | nil => simp
  | cons p rest ih =>
    have hrest : ∀ s t, .signal s t ∈ rest → σ s = t := fun s t h => hps s t (List.mem_cons_of_mem _ h)
    cases p with
    | norm l r =>
      rw [List.foldl_cons, ih hrest (by exact hm)]
      simp [insertPair, insertConstraint]
    | signal l r =>
      have hlr : σ l = r := hps l r (List.mem_cons_self ..)
      have hget : ∀ s t, (m.insertSignal l r).signals.get? s = some t ↔
          m.signals.get? s = some t ∨ s = l ∧ t = r := by
        intro s t
        rw [insertSignal, SortedMap.get?_insert]
        by_cases hs : s = l
        · subst hs
          rw [if_pos rfl, Option.some_inj]
          refine ⟨fun h => Or.inr ⟨rfl, h.symm⟩, ?_⟩
          rintro (h | ⟨-, rfl⟩)
          · rw [← hlr, hm s t h]
          · rfl
        · simp [hs]
      rw [List.foldl_cons, ih hrest]
      · simp only [insertPair, hget, List.mem_cons, PairVariable.signal.injEq, or_assoc]
      · intro s t h
        rcases (hget s t).1 h with h | ⟨rfl, rfl⟩
        · exact hm s t h
        · exact hlr

theorem get?_constraints_insertPairs
    (hps : ∀ l r, .norm l r ∈ ps → κ (originOf leftNorms l) = originOf rightNorms r)
    (hm : ∀ k j, m.constraints.get? k = some j → κ k = j) :
    (ps.foldl (insertPair leftNorms rightNorms) m).constraints.get? k = some j ↔
      m.constraints.get? k = some j ∨
        ∃ l r, .norm l r ∈ ps ∧ originOf leftNorms l = k ∧ originOf rightNorms r = j := by
  induction ps generalizing m with
  | nil => simp
  | cons p rest ih =>
    have hrest : ∀ l r, .norm l r ∈ rest → κ (originOf leftNorms l) = originOf rightNorms r :=
      fun l r h => hps l r (List.mem_cons_of_mem _ h)
    cases p with
    | signal l r =>
      rw [List.foldl_cons, ih hrest (by exact hm)]
      simp [insertPair, insertSignal]
    | norm l r =>
      have hlr := hps l r (List.mem_cons_self ..)
      have hget : ∀ k j, (m.insertConstraint (originOf leftNorms l)
          (originOf rightNorms r)).constraints.get? k = some j ↔
          m.constraints.get? k = some j ∨ originOf leftNorms l = k ∧ originOf rightNorms r = j := by
        intro k j
        rw [insertConstraint, SortedMap.get?_upsert]
        by_cases hk : k = originOf leftNorms l
        · subst hk
          rw [if_pos rfl, Option.some_inj]
          cases hold : m.constraints.get? (originOf leftNorms l) with
          | none => simp
          | some i =>
            have hi := hm _ i hold
            rw [hlr] at hi
            simp [hi]
        · simp [hk, Ne.symm hk]
      rw [List.foldl_cons, ih hrest]
      · refine (or_congr_left (hget k j)).trans ?_
        rw [or_assoc]
        refine or_congr_right ⟨?_, ?_⟩
        · rintro (⟨hk, hj⟩ | ⟨l', r', hmem, hk, hj⟩)
          · exact ⟨l, r, List.mem_cons_self .., hk, hj⟩
          · exact ⟨l', r', List.mem_cons_of_mem _ hmem, hk, hj⟩
        · rintro ⟨l', r', hmem, hk, hj⟩
          rcases List.mem_cons.1 hmem with heq | hmem
          · cases heq
            exact Or.inl ⟨hk, hj⟩
          · exact Or.inr ⟨l', r', hmem, hk, hj⟩
      · intro k j h
        rcases (hget k j).1 h with h | ⟨rfl, rfl⟩
        · exact hm k j h
        · exact hlr

/-! ## Decoded mappings -/

theorem mem_selected (hvars : vars.IsFunctional) {p : PairVariable} :
    p ∈ (vars.bindings.filter fun b => model.isTrue b.1).map (·.2) ↔
      ∃ id, vars.get? p = some id ∧ model.isTrue id = true := by
  simp only [List.mem_map, List.mem_filter, Prod.exists, hvars.mem_bindings]
  constructor
  · rintro ⟨id, _, ⟨hid, htrue⟩, rfl⟩
    exact ⟨id, hid, htrue⟩
  · rintro ⟨id, hid, htrue⟩
    exact ⟨id, p, ⟨hid, htrue⟩, rfl⟩

variable {S : PairVariable → Prop}
  (hS : ∀ p, S p ↔ ∃ id, vars.get? p = some id ∧ model.isTrue id = true)
  (hvars : vars.IsFunctional)

include hS hvars

/-- A decoded mapping sends the constant signal to itself and every other one to its partner. -/
theorem get?_signals_decode (h0 : σ constantSignal = constantSignal)
    (hσ : ∀ s t, S (.signal s t) → σ s = t) :
    (decode vars model leftNorms rightNorms).signals.get? s = some t ↔
      s = constantSignal ∧ t = constantSignal ∨ S (.signal s t) := by
  have hstart : ∀ s t, (empty.insertSignal constantSignal constantSignal).signals.get? s = some t ↔
      s = constantSignal ∧ t = constantSignal := by
    intro s t
    rw [insertSignal, SortedMap.get?_insert]
    by_cases hs : s = constantSignal
    · simp [hs, eq_comm]
    · simp [hs, empty]
  unfold decode
  rw [get?_signals_insertPairs (σ := σ) (fun s t hmem => ?_) fun s t hget => ?_, hstart,
    mem_selected hvars, ← hS]
  · exact hσ s t ((hS _).2 ((mem_selected hvars).1 hmem))
  · obtain ⟨rfl, rfl⟩ := (hstart s t).1 hget
    exact h0

/-- A decoded mapping sends a constraint to the constraints of the partners of its norms. -/
theorem get?_constraints_decode
    (hκ : ∀ l r, S (.norm l r) → κ (originOf leftNorms l) = originOf rightNorms r) :
    (decode vars model leftNorms rightNorms).constraints.get? k = some j ↔
      ∃ l r, S (.norm l r) ∧ originOf leftNorms l = k ∧ originOf rightNorms r = j := by
  unfold decode
  rw [get?_constraints_insertPairs (κ := κ) (fun l r hmem => ?_) fun k j hget => ?_]
  · simp only [mem_selected hvars, ← hS]
    simp [empty, insertSignal]
  · exact hκ l r ((hS _).2 ((mem_selected hvars).1 hmem))
  · cases hget

/-- A decoded mapping acts as the maps that its pairs are the graphs of. -/
theorem decode_eq_ofFunctions {left : Circuit} (h0 : σ constantSignal = constantSignal)
    (hσ : ∀ s t, S (.signal s t) ↔ s ≠ constantSignal ∧ s < left.nSignals ∧ σ s = t)
    (hκ : ∀ l r, S (.norm l r) → κ (originOf leftNorms l) = originOf rightNorms r)
    (hlt : ∀ l r, S (.norm l r) → originOf leftNorms l < left.nConstraints)
    (htotal : ∀ k < left.nConstraints, ∃ l r, S (.norm l r) ∧ originOf leftNorms l = k) :
    decode vars model leftNorms rightNorms = ofFunctions left σ κ := by
  have hsignals : (decode vars model leftNorms rightNorms).signals = (ofFunctions left σ κ).signals := by
    apply SortedMap.ext_get?
    intro s
    apply Option.ext
    intro t
    rw [get?_signals_decode hS hvars h0 (fun s t h => ((hσ s t).1 h).2.2), hσ, ofFunctions,
      get?_ofList_range]
    by_cases hs : s = constantSignal
    · subst hs
      have hpos : constantSignal < left.nSignals := left.nSignals_pos
      rw [if_pos hpos, h0]
      simp [eq_comm]
    · by_cases hlt : s < left.nSignals <;> simp [hs, hlt]
  have hconstraints : (decode vars model leftNorms rightNorms).constraints =
      (ofFunctions left σ κ).constraints := by
    apply SortedMap.ext_get?
    intro k
    apply Option.ext
    intro j
    rw [get?_constraints_decode hS hvars hκ, ofFunctions, get?_ofList_range]
    constructor
    · rintro ⟨l, r, hS', rfl, rfl⟩
      rw [if_pos (hlt l r hS'), hκ l r hS']
    · intro h
      split at h
      · rename_i hk
        obtain ⟨l, r, hS', rfl⟩ := htotal k hk
        exact ⟨l, r, hS', rfl, by rw [← hκ l r hS', Option.some.inj h]⟩
      · cases h
  exact congrArg₂ Mapping.mk hsignals hconstraints

end CircuitEquiv.Mapping
