-- SUMMARY: Which signal a witness of an ACIR file becomes, up to the end of the words of 64 bits, and the one witness that is taken for the constant.
import CircuitEquiv.Proofs.Constraint.Polynomial
import CircuitEquiv.Proofs.File.AcirMeaning
import Mathlib.Data.Int.ModEq

/-!
# Witnesses and the constant signal

A witness becomes the signal after its own number, and numbers are words: the last word leads back to
zero, which is the constant signal. So there is one witness that is taken for the constant. It cannot be
declared, but its terms are moved to a lower degree instead of being out of range. All others keep apart
from the constant, and a file is read only if they are below its number of witnesses.
-/

namespace CircuitEquiv

/-- The last of the words of 64 bits. -/
def lastWitness : UInt64 := 18446744073709551615

/-- The integer that a coefficient is written as, zero if it is malformed. -/
def Coefficient.toInt (c : Coefficient) : Int := c.integer.toOption.getD 0

namespace Opcode

/-- What a term of the witnesses `l` and `r` adds to the coefficient of `x` and `y`. -/
def share (x y l r : UInt64) (c : Coefficient) : Int :=
  if (l = x ∧ r = y) ∨ (l = y ∧ r = x) then c.toInt else 0

/-- The coefficient of the product of two witnesses: that of all terms with both of them, in either order. -/
def productTotal (o : Opcode) (x y : UInt64) : Int :=
  (o.products.map fun t => share x y t.left t.right t.coefficient).sum

/-- The coefficient of a witness alone. -/
def linearTotal (o : Opcode) (x : UInt64) : Int :=
  (o.linear.map fun t => if t.witness = x then t.coefficient.toInt else 0).sum

/-- A witness has a coefficient that is not zero over the modulus, alone or in a product. -/
def Involves (m : Nat) (o : Opcode) (s : UInt64) : Prop :=
  ¬ (m : Int) ∣ o.linearTotal s ∨ ∃ t, ¬ (m : Int) ∣ o.productTotal s t

/-- The coefficients of a polynomial are those that are written, each witness standing for the signal after
it, and the last one for the constant signal. -/
structure FoldsTo (m : Nat) (o : Opcode) (p : AcirConstraint) : Prop where
  product : ∀ x y, x ≠ lastWitness → y ≠ lastWitness → x ≤ y →
    (p.mult.getD (x.toNat + 1, y.toNat + 1) 0 : Nat) ≡ o.productTotal x y [ZMOD m]
  linear : ∀ x, x ≠ lastWitness →
    (p.linear.getD (x.toNat + 1) 0 : Nat) ≡ o.productTotal lastWitness x + o.linearTotal x [ZMOD m]
  constant : p.constant ≡
    o.productTotal lastWitness lastWitness + o.linearTotal lastWitness + o.constant.toInt [ZMOD m]

variable {o : Opcode} {s t x y : UInt64}

theorem share_comm (x y l r : UInt64) (c : Coefficient) : share x y l r c = share y x l r c :=
  if_congr Or.comm rfl rfl

theorem productTotal_comm (o : Opcode) (x y : UInt64) : o.productTotal x y = o.productTotal y x := by
  simp only [productTotal, share_comm x y]

theorem share_lastWitness (y r : UInt64) (c : Coefficient) :
    share lastWitness y lastWitness r c = if r = y then c.toInt else 0 := by
  refine if_congr ⟨?_, fun h => .inl ⟨rfl, h⟩⟩ rfl rfl
  rintro (⟨-, h⟩ | ⟨rfl, h⟩)
  · exact h
  · exact h

theorem share_of_ne_lastWitness (hx : x ≠ lastWitness) (hy : y ≠ lastWitness) (r : UInt64)
    (c : Coefficient) : share x y lastWitness r c = 0 := by
  refine if_neg ?_
  rintro (⟨h, -⟩ | ⟨h, -⟩)
  · exact hx h.symm
  · exact hy h.symm

/-- A polynomial involves only witnesses that it names. -/
theorem Involves.mem_witnesses {m : Nat} (h : o.Involves m s) : s ∈ o.witnesses := by
  by_contra hs
  have hlinear : o.linearTotal s = 0 := List.sum_eq_zero fun v hv => by
    obtain ⟨e, he, rfl⟩ := List.mem_map.1 hv
    refine if_neg ?_
    rintro rfl
    exact hs (List.mem_append_right _ (List.mem_map_of_mem he))
  have hproduct : ∀ t, o.productTotal s t = 0 := fun t => List.sum_eq_zero fun v hv => by
    obtain ⟨e, he, rfl⟩ := List.mem_map.1 hv
    have hmem : ∀ w ∈ [e.left, e.right], w ∈ o.witnesses := fun w hw =>
      List.mem_append_left _ (List.mem_flatMap.2 ⟨e, he, hw⟩)
    refine if_neg ?_
    rintro (⟨rfl, -⟩ | ⟨-, rfl⟩)
    · exact hs (hmem _ (by simp))
    · exact hs (hmem _ (by simp))
  rcases h with h | ⟨t, h⟩
  · exact h (hlinear ▸ dvd_zero _)
  · exact h (hproduct t ▸ dvd_zero _)

end Opcode

namespace AcirFile

variable {file : AcirFile} {F : PrimeField} {circuit : Circuit} {o : Opcode} {p : AcirConstraint}
  {s x y : UInt64}

/-! ## Signals of witnesses -/

theorem signal_lastWitness : signal lastWitness = constantSignal := rfl

theorem signal_of_ne (h : s ≠ lastWitness) : signal s = s.toNat + 1 := by
  have hlast : lastWitness.toNat = UInt64.size - 1 := rfl
  have hne : s.toNat ≠ lastWitness.toNat := fun heq => h (UInt64.toNat_inj.1 heq)
  have hlt : s.toNat < UInt64.size := UInt64.toNat_lt_size s
  exact signal_eq_succ (by omega)

theorem signal_inj : signal x = signal y ↔ x = y := by
  rw [signal, signal, UInt64.toNat_inj]
  exact UInt64.add_left_inj 1

/-- Only the last witness is taken for the constant. -/
theorem signal_eq_constantSignal_iff : signal s = constantSignal ↔ s = lastWitness := by
  rw [← signal_lastWitness, signal_inj]

/-- A count of witnesses leaves room for the signals of the witnesses below it, and for no others. -/
theorem exists_witness_of_lt (hsize : circuit.nSignals = max (file.nWitnesses + 1).toNat 1) {i : Signal}
    (hpos : i ≠ constantSignal) (hlt : i < circuit.nSignals) :
    ∃ s, s < file.nWitnesses ∧ i = s.toNat + 1 := by
  have hlast : file.nWitnesses ≠ lastWitness := by
    intro heq
    rw [hsize, heq] at hlt
    exact hpos (Nat.lt_one_iff.1 hlt)
  have hcount : (file.nWitnesses + 1).toNat = file.nWitnesses.toNat + 1 := signal_of_ne hlast
  obtain ⟨n, rfl⟩ : ∃ n, i = n + 1 := Nat.exists_eq_succ_of_ne_zero hpos
  have hbelow : n < file.nWitnesses.toNat := by
    rw [hsize, hcount, Nat.max_eq_left (Nat.succ_pos _)] at hlt
    exact Nat.lt_of_succ_lt_succ hlt
  have hword : (UInt64.ofNat n).toNat = n :=
    UInt64.toNat_ofNat_of_lt' (hbelow.trans (UInt64.toNat_lt_size _))
  exact ⟨.ofNat n, UInt64.lt_iff_toNat_lt.2 (hword.trans_lt hbelow), by rw [hword]⟩

/-! ## Coefficients -/

theorem cast_of_reduce (hF : 0 < F.modulus) {c : Coefficient} {n : Nat} (h : c.reduce F = .ok n) :
    (n : ZMod F.modulus) = (c.toInt : Int) := by
  obtain ⟨k, hk, hcast⟩ := exists_of_reduce_eq_ok hF h
  rw [hcast, Coefficient.toInt, Coefficient.integer_eq_ok_iff.2 hk]
  rfl

/-- The pair of the signals of two witnesses. -/
def place (x y : UInt64) : Signal × Signal := AcirConstraint.orderedPair (signal x) (signal y)

theorem place_le : (place x y).1 ≤ (place x y).2 := AcirConstraint.orderedPair_le _ _

theorem place_lastWitness (y : UInt64) : place lastWitness y = (0, signal y) :=
  AcirConstraint.orderedPair_zero _

/-- A term that is read adds to the place of a pair what the written one adds to its coefficient. -/
theorem share_place (hF : 0 < F.modulus) {c : Coefficient} {n : Nat} (h : c.reduce F = .ok n)
    (x y l r : UInt64) : AcirConstraint.share F (place x y) (place l r) n = (Opcode.share x y l r c : Int) := by
  rw [AcirConstraint.share, cast_of_reduce hF h, Opcode.share, Int.cast_ite, Int.cast_zero]
  refine if_congr ?_ rfl rfl
  rw [place, place, AcirConstraint.orderedPair_eq_iff, signal_inj, signal_inj, signal_inj, signal_inj]

/-- Sums of what is read are those of what is written. -/
theorem cast_sum_of_forall₂ {α β : Type} {terms : List α} {read : List β} {R : α → β → Prop}
    (h : terms.Forall₂ R read) {c : α → Int} {f : β → ZMod F.modulus}
    (hterm : ∀ t e, R t e → f e = (c t : Int)) : (read.map f).sum = ((terms.map c).sum : Int) := by
  induction h with
  | nil => simp
  | @cons t e terms read hread _ ih =>
    rw [List.map_cons, List.sum_cons, hterm t e hread, ih, List.map_cons, List.sum_cons, Int.cast_add]

/-- The coefficient of a pair of witnesses that is read. A linear term counts as a product with the last
witness, and the constant as its square. -/
theorem cast_coefficient_of_constraint (hF : 0 < F.modulus) (h : constraint F o = .ok p) (x y : UInt64) :
    (p.coefficient (place x y) : ZMod F.modulus) = (o.productTotal x y +
      (o.linear.map fun t => Opcode.share x y lastWitness t.witness t.coefficient).sum +
      Opcode.share x y lastWitness lastWitness o.constant : Int) := by
  obtain ⟨mult, hmult, h⟩ := bind_eq_ok_iff.1 h
  obtain ⟨linear, hlinear, h⟩ := bind_eq_ok_iff.1 h
  obtain ⟨constant, hconstant, h⟩ := bind_eq_ok_iff.1 h
  cases h
  have hproducts : (mult.map fun e =>
      AcirConstraint.share F (place x y) (AcirConstraint.orderedPair e.1.1 e.1.2) e.2).sum =
      (o.productTotal x y : Int) :=
    cast_sum_of_forall₂ (forall₂_of_mapM_eq_ok hmult) fun t e he => by
      obtain ⟨n, hn, he⟩ := bind_eq_ok_iff.1 he
      cases he
      exact share_place hF hn x y t.left t.right
  have hterms : (linear.map fun e => AcirConstraint.share F (place x y) (0, e.1) e.2).sum =
      ((o.linear.map fun t => Opcode.share x y lastWitness t.witness t.coefficient).sum : Int) :=
    cast_sum_of_forall₂ (forall₂_of_mapM_eq_ok hlinear) fun t e he => by
      obtain ⟨n, hn, he⟩ := bind_eq_ok_iff.1 he
      cases he
      rw [← place_lastWitness]
      exact share_place hF hn x y lastWitness t.witness
  have hlast : AcirConstraint.share F (place x y) (0, 0) constant =
      (Opcode.share x y lastWitness lastWitness o.constant : Int) :=
    share_place hF hconstant x y lastWitness lastWitness
  rw [AcirConstraint.cast_coefficient_ofTerms place_le, hproducts, hterms, hlast, Int.cast_add,
    Int.cast_add]

theorem coefficient_modEq (hF : 0 < F.modulus) (h : constraint F o = .ok p) (x y : UInt64) :
    p.coefficient (place x y) ≡ o.productTotal x y +
      (o.linear.map fun t => Opcode.share x y lastWitness t.witness t.coefficient).sum +
      Opcode.share x y lastWitness lastWitness o.constant [ZMOD F.modulus] := by
  rw [← ZMod.intCast_eq_intCast_iff, Int.cast_natCast]
  exact cast_coefficient_of_constraint hF h x y

theorem foldsTo_of_constraint (hF : 0 < F.modulus) (h : constraint F o = .ok p) :
    o.FoldsTo F.modulus p where
  product x y hx hy hle := by
    have hplace : place x y = (x.toNat + 1, y.toNat + 1) := by
      rw [place, signal_of_ne hx, signal_of_ne hy]
      exact AcirConstraint.orderedPair_of_le (Nat.succ_le_succ (UInt64.le_iff_toNat_le.1 hle))
    have hlinear : (o.linear.map fun t => Opcode.share x y lastWitness t.witness t.coefficient).sum = 0 :=
      List.sum_eq_zero fun v hv => by
        obtain ⟨t, -, rfl⟩ := List.mem_map.1 hv
        exact Opcode.share_of_ne_lastWitness hx hy _ _
    have hmod := coefficient_modEq hF h x y
    rwa [hlinear, Opcode.share_of_ne_lastWitness hx hy, add_zero, add_zero, hplace,
      AcirConstraint.coefficient_mult (Nat.succ_ne_zero _) (Nat.succ_ne_zero _)] at hmod
  linear x hx := by
    have hmod := coefficient_modEq hF h lastWitness x
    simp only [Opcode.share_lastWitness, if_neg hx.symm, add_zero] at hmod
    rwa [place_lastWitness, signal_of_ne hx, AcirConstraint.coefficient_linear (Nat.succ_ne_zero _)] at hmod
  constant := by
    have hmod := coefficient_modEq hF h lastWitness lastWitness
    simp only [Opcode.share_lastWitness, if_true] at hmod
    exact hmod

/-- A polynomial that is read mentions signals of witnesses, never the constant one. -/
theorem ne_constantSignal_of_constraint (h : constraint F o = .ok p) {i : Signal} (hi : i ∈ p.signals) :
    i ≠ constantSignal := by
  obtain ⟨mult, -, h⟩ := bind_eq_ok_iff.1 h
  obtain ⟨linear, -, h⟩ := bind_eq_ok_iff.1 h
  obtain ⟨constant, -, h⟩ := bind_eq_ok_iff.1 h
  cases h
  have hkeys : (Constraint.acir (.ofTerms F mult linear constant)).HasProperKeys :=
    AcirConstraint.hasProperKeys_ofTerms mult linear constant
  exact hkeys.ne_constant_of_mem_signals hi

/-- What a polynomial involves, but not with the last witness, occurs in the one that is read. -/
theorem mem_signals_of_involves {m : Nat} (hfolds : o.FoldsTo m p) (hlast : ¬ o.Involves m lastWitness)
    (h : o.Involves m s) : s.toNat + 1 ∈ p.signals := by
  have hs : s ≠ lastWitness := fun heq => hlast (heq ▸ h)
  have hstored : ∀ {n : Nat} {i : Int}, (n : Int) ≡ i [ZMOD m] → ¬ (m : Int) ∣ i → n ≠ 0 := by
    rintro n i hmod hi rfl
    exact hi (Int.modEq_zero_iff_dvd.1 hmod.symm)
  have hzero : ∀ t, (m : Int) ∣ o.productTotal lastWitness t := fun t => by
    by_contra hproduct
    exact hlast (.inr ⟨t, hproduct⟩)
  rcases h with hlinear | ⟨t, hproduct⟩
  · have hsum : ¬ (m : Int) ∣ o.productTotal lastWitness s + o.linearTotal s :=
      (dvd_add_right (hzero s)).not.2 hlinear
    exact AcirConstraint.mem_signals.2
      (.inr (Terms.mem_keys_of_getD_ne_zero (hstored (hfolds.linear s hs) hsum)))
  · have hproduct' := hproduct
    rw [Opcode.productTotal_comm] at hproduct'
    have ht : t ≠ lastWitness := fun heq => hproduct' (heq ▸ hzero s)
    rcases UInt64.le_total s t with hle | hle
    · have hkey := Terms.mem_keys_of_getD_ne_zero (hstored (hfolds.product s t hs ht hle) hproduct)
      exact AcirConstraint.mem_signals.2 (.inl ⟨_, hkey, .inl rfl⟩)
    · have hkey := Terms.mem_keys_of_getD_ne_zero (hstored (hfolds.product t s ht hs hle) hproduct')
      exact AcirConstraint.mem_signals.2 (.inl ⟨_, hkey, .inr rfl⟩)

/-! ## Reading a file -/

/-- A circuit says what a file does. The declared signals are those after the declared witnesses, and a
polynomial has the written coefficients at the signals after its witnesses; all these witnesses are below
the number of witnesses. -/
structure IsMirroredBy (file : AcirFile) (circuit : Circuit) : Prop where
  modulus : file.HasModulus circuit.field.modulus
  declared_lt : ∀ s ∈ file.inputs ++ file.outputs, s < file.nWitnesses
  inputs : ∀ i, i ∈ circuit.inputs ↔ ∃ s ∈ file.inputs, i = s.toNat + 1
  outputs : ∀ i, i ∈ circuit.outputs ↔ ∃ s ∈ file.outputs, i = s.toNat + 1
  constraints : ∃ constraints : List AcirConstraint,
    circuit.constraints = (constraints.map Constraint.acir).toArray ∧
    file.opcodes.Forall₂ (fun o p => o.FoldsTo circuit.field.modulus p ∧
      ∀ i ∈ p.signals, ∃ s, s < file.nWitnesses ∧ i = s.toNat + 1) constraints

theorem HasModulus.unique {m n : Nat} (hm : file.HasModulus m) (hn : file.HasModulus n) : m = n := by
  unfold HasModulus at hm hn
  cases hprime : file.prime with
  | none =>
    rw [hprime] at hm hn
    exact hm.trans hn.symm
  | some c =>
    rw [hprime] at hm hn
    exact Int.ofNat_inj.1 (Coefficient.Writes.unique hm hn)

/-- The signal of a witness that may be declared is the one after it. -/
theorem lt_of_declarable (hsize : circuit.nSignals = max (file.nWitnesses + 1).toNat 1)
    (h : signal s ≠ constantSignal ∧ signal s < circuit.nSignals) :
    s < file.nWitnesses ∧ signal s = s.toNat + 1 := by
  have hsucc : signal s = s.toNat + 1 := signal_of_ne fun heq => h.1 (signal_eq_constantSignal_iff.2 heq)
  obtain ⟨t, ht, heq⟩ := exists_witness_of_lt hsize h.1 h.2
  rw [hsucc, Nat.add_right_cancel_iff, UInt64.toNat_inj] at heq
  exact ⟨heq ▸ ht, hsucc⟩

/-- The witnesses of a list whose signals are declared are all below the number of witnesses. -/
theorem mem_declared_iff {l : List UInt64} (hsize : circuit.nSignals = max (file.nWitnesses + 1).toNat 1)
    (h : ∀ i ∈ SortedSet.ofList (l.map signal), i ≠ constantSignal ∧ i < circuit.nSignals) :
    (∀ s ∈ l, s < file.nWitnesses) ∧
      ∀ i, i ∈ SortedSet.ofList (l.map signal) ↔ ∃ s ∈ l, i = s.toNat + 1 := by
  have hall : ∀ s ∈ l, s < file.nWitnesses ∧ signal s = s.toNat + 1 := fun s hs =>
    lt_of_declarable hsize (h _ (SortedSet.mem_ofList.2 (List.mem_map_of_mem hs)))
  refine ⟨fun s hs => (hall s hs).1, fun i => ?_⟩
  rw [SortedSet.mem_ofList, List.mem_map]
  constructor
  · rintro ⟨s, hs, rfl⟩
    exact ⟨s, hs, (hall s hs).2⟩
  · rintro ⟨s, hs, rfl⟩
    exact ⟨s, hs, (hall s hs).2⟩

theorem isMirroredBy_of_toCircuit (h : file.toCircuit = .ok circuit) : file.IsMirroredBy circuit := by
  obtain ⟨hfield, ⟨constraints, hconstraints, hall⟩, hsize, hinputs, houtputs⟩ :=
    exists_parts_of_toCircuit h
  obtain ⟨hmodulus, hF⟩ := hasModulus_of_field hfield
  obtain ⟨hlt, hmem⟩ := mem_declared_iff hsize (hinputs ▸ circuit.inputs_declarable)
  obtain ⟨hlt', hmem'⟩ := mem_declared_iff hsize (houtputs ▸ circuit.outputs_declarable)
  rw [List.forall₂_iff_zip] at hconstraints
  refine ⟨hmodulus, List.forall_mem_append.2 ⟨hlt, hlt'⟩, hinputs ▸ hmem, houtputs ▸ hmem', constraints,
    hall, List.forall₂_iff_zip.2 ⟨hconstraints.1, fun {o p} hzip => ?_⟩⟩
  have hread := hconstraints.2 hzip
  have hp : Constraint.acir p ∈ circuit.constraints.toList := by
    rw [hall]
    exact List.mem_map_of_mem (List.of_mem_zip hzip).2
  refine ⟨foldsTo_of_constraint hF hread, fun i hi => ?_⟩
  exact exists_witness_of_lt hsize (ne_constantSignal_of_constraint hread hi)
    ((circuit.constraints_wellFormed _ hp).2 i hi)

/-- A polynomial without the last word involves only witnesses below the number of witnesses. -/
theorem IsMirroredBy.lt_of_involves (h : file.IsMirroredBy circuit) (ho : o ∈ file.opcodes)
    (hlast : ¬ o.Involves circuit.field.modulus lastWitness)
    (hinvolves : o.Involves circuit.field.modulus s) : s < file.nWitnesses := by
  obtain ⟨constraints, -, hconstraints⟩ := h.constraints
  obtain ⟨i, hi, rfl⟩ := List.getElem_of_mem ho
  obtain ⟨hfolds, hsignals⟩ := hconstraints.get hi (hconstraints.length_eq ▸ hi)
  obtain ⟨t, ht, heq⟩ := hsignals _ (mem_signals_of_involves hfolds hlast hinvolves)
  rw [Nat.add_right_cancel_iff, UInt64.toNat_inj] at heq
  exact heq ▸ ht

/-- Reading a file confuses no witness but the last word with the constant. A file is refused if it declares
a witness that is not below its number of witnesses, or involves one in a polynomial that does not involve
the last word. A circuit that is read says what the file does, except that the last word stands for the
constant: its terms count for the degree below. -/
theorem read_confuses_only_last {text : String} (hfile : (Json.parse? text).bind ofJson? = some file) :
    (∀ s, file.nWitnesses ≤ s → (s ∈ file.inputs ∨ s ∈ file.outputs ∨ ∃ m, file.HasModulus m ∧
      ∃ o ∈ file.opcodes, ¬ o.Involves m lastWitness ∧ o.Involves m s) → ∃ e, read text = .error e) ∧
    ∀ circuit, read text = .ok circuit → file.IsMirroredBy circuit := by
  have hread : read text = file.toCircuit := by
    rw [read, hfile]
  rw [hread]
  refine ⟨fun s hs hnamed => ?_, fun circuit h => isMirroredBy_of_toCircuit h⟩
  cases h : file.toCircuit with
  | error e => exact ⟨e, rfl⟩
  | ok circuit =>
    have hmirrored := isMirroredBy_of_toCircuit h
    have hlt : s < file.nWitnesses := by
      rcases hnamed with hinput | houtput | ⟨m, hm, o, ho, hlast, hinvolves⟩
      · exact hmirrored.declared_lt s (List.mem_append_left _ hinput)
      · exact hmirrored.declared_lt s (List.mem_append_right _ houtput)
      · rw [hm.unique hmirrored.modulus] at hlast hinvolves
        exact hmirrored.lt_of_involves ho hlast hinvolves
    exact absurd hlt (UInt64.not_lt.2 hs)

namespace Sample

/-- A file with one witness, and with a polynomial of the given one over the field with thirteen elements. -/
def single (witness : String) : String :=
  "\x7b\"prime\":13,\"number_of_signals\":1,\"constraints\":[\x7b\"linear\":[\x7b\"witness\":" ++ witness ++
  ",\"coeff\":1\x7d]\x7d]\x7d"

/-- The polynomial. -/
def term (witness : UInt64) : Opcode := ⟨[], [⟨witness, .signed 1⟩], .zero⟩

/-- The content of the file. -/
def singleContent (witness : UInt64) : AcirFile where
  prime := some (.signed 13)
  nWitnesses := 1
  inputs := []
  outputs := []
  opcodes := [term witness]

theorem involves_term (s : UInt64) : (term s).Involves 13 s := by
  have htotal : (term s).linearTotal s = 1 := by
    simp [term, Opcode.linearTotal, Coefficient.toInt, Coefficient.integer, Except.toOption]
  rw [Opcode.Involves, htotal]
  exact .inl (by decide)

/-- The second witness is refused, and the first one occurs in the circuit as signal 1. -/
theorem read_confuses_only_last_single : (∃ e, read (single "1") = .error e) ∧
    ∃ circuit, read (single "0") = .ok circuit ∧ (singleContent 0).IsMirroredBy circuit := by
  have hrefused : (Json.parse? (single "1")).bind ofJson? = some (singleContent 1) := by decide +kernel
  have haccepted : (Json.parse? (single "0")).bind ofJson? = some (singleContent 0) := by decide +kernel
  have hlast : ¬ (term 1).Involves 13 lastWitness := fun h => absurd h.mem_witnesses (by decide)
  constructor
  · refine (read_confuses_only_last hrefused).1 1 (by decide) (.inr (.inr ?_))
    exact ⟨13, rfl, term 1, List.mem_singleton.2 rfl, hlast, involves_term 1⟩
  · have hok : (read (single "0")).toOption.isSome = true := by decide +kernel
    cases hread : read (single "0") with
    | ok circuit => exact ⟨circuit, rfl, (read_confuses_only_last haccepted).2 circuit hread⟩
    | error e =>
      rw [hread] at hok
      cases hok

/-- The last word is no witness of the file, and the file is read: its term is taken for the constant. -/
theorem read_takes_last_for_constant :
    (Json.parse? (single "18446744073709551615")).bind ofJson? = some (singleContent lastWitness) ∧
    (singleContent lastWitness).nWitnesses ≤ lastWitness ∧
    (singleContent lastWitness).HasModulus 13 ∧ (term lastWitness).Involves 13 lastWitness ∧
    ((read (single "18446744073709551615")).map Circuit.constraints).toOption =
      some #[.acir ⟨SortedMap.empty, SortedMap.empty, 1⟩] :=
  ⟨by decide +kernel, by decide, rfl, involves_term lastWitness, by decide +kernel⟩

end Sample

end AcirFile

end CircuitEquiv
