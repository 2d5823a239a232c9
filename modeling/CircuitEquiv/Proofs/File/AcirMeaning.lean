-- SUMMARY: What an ACIR file says about its witnesses, and that the circuit that is read from it says the same.
import CircuitEquiv.File.AcirFile
import CircuitEquiv.Proofs.Constraint.Polynomial
import CircuitEquiv.Proofs.Text.IntegerText
import Mathlib.Data.List.Forall2

/-!
# The meaning of ACIR files

A file writes polynomials over the integers: coefficients may be negative or larger than the modulus, and
pairs of witnesses may be repeated or turned round. A polynomial has to be divisible by the modulus at the
values of the witnesses. The circuit that is read from the file is satisfied by the same values, and it
declares the same witnesses, each as the signal after its own number.
-/

namespace CircuitEquiv

/-! ## Written numbers and polynomials -/

/-- The integer that a coefficient is written as. -/
def Coefficient.Writes : Coefficient → Int → Prop
  | signed value, i => i = value.toInt
  | unsigned value, i => i = value.toNat
  | text value, i => WritesInteger value i

theorem Coefficient.integer_eq_ok_iff {c : Coefficient} {i : Int} : c.integer = .ok i ↔ c.Writes i := by
  cases c with
  | signed value => exact ⟨fun h => (Except.ok.inj h).symm, fun h => h ▸ rfl⟩
  | unsigned value => exact ⟨fun h => (Except.ok.inj h).symm, fun h => h ▸ rfl⟩
  | text value =>
    rw [Writes, ← readInteger?_eq_some_iff, integer]
    cases readInteger? value with
    | none => exact ⟨fun h => (by cases h), fun h => (by cases h)⟩
    | some j => exact ⟨fun h => congrArg some (Except.ok.inj h), fun h => congrArg _ (Option.some.inj h)⟩

theorem Coefficient.Writes.unique {c : Coefficient} {i j : Int} (hi : c.Writes i) (hj : c.Writes j) :
    i = j :=
  Except.ok.inj ((integer_eq_ok_iff.2 hi).symm.trans (integer_eq_ok_iff.2 hj))

/-- The value of a product where the witnesses have the values `w`. -/
def ProductTerm.HasValue (w : Nat → Nat) (t : ProductTerm) (v : Int) : Prop :=
  ∃ k, t.coefficient.Writes k ∧ v = k * (w t.left.toNat * w t.right.toNat)

/-- The value of a term where the witnesses have the values `w`. -/
def WitnessTerm.HasValue (w : Nat → Nat) (t : WitnessTerm) (v : Int) : Prop :=
  ∃ k, t.coefficient.Writes k ∧ v = k * w t.witness.toNat

/-- The value of a polynomial, over the integers, where the witnesses have the values `w`: the sum of its
products, its terms and its constant. -/
def Opcode.HasValue (w : Nat → Nat) (o : Opcode) (v : Int) : Prop :=
  ∃ products terms constant, o.products.Forall₂ (ProductTerm.HasValue w) products ∧
    o.linear.Forall₂ (WitnessTerm.HasValue w) terms ∧ o.constant.Writes constant ∧
    v = products.sum + terms.sum + constant

theorem Opcode.HasValue.unique {w : Nat → Nat} {o : Opcode} {v v' : Int} (h : o.HasValue w v)
    (h' : o.HasValue w v') : v = v' := by
  have hproduct : Relator.RightUnique (ProductTerm.HasValue w) := by
    rintro t _ _ ⟨k, hk, rfl⟩ ⟨k', hk', rfl⟩
    rw [hk.unique hk']
  have hterm : Relator.RightUnique (WitnessTerm.HasValue w) := by
    rintro t _ _ ⟨k, hk, rfl⟩ ⟨k', hk', rfl⟩
    rw [hk.unique hk']
  obtain ⟨products, terms, constant, hproducts, hterms, hconstant, rfl⟩ := h
  obtain ⟨products', terms', constant', hproducts', hterms', hconstant', rfl⟩ := h'
  rw [hproduct.forall₂ hproducts hproducts', hterm.forall₂ hterms hterms', hconstant.unique hconstant']

/-- The witnesses that a polynomial names. -/
def Opcode.witnesses (o : Opcode) : List UInt64 :=
  o.products.flatMap (fun t => [t.left, t.right]) ++ o.linear.map (·.witness)

/-! ## Circuits that are built -/

/-- A circuit has the parts that it is built from. -/
theorem Circuit.parts_of_build {F : PrimeField} {dialect : Dialect} {nSignals : Nat}
    {inputs outputs : List Signal} {constraints : List Constraint} {circuit : Circuit}
    (h : build F dialect (some nSignals) inputs outputs constraints = .ok circuit) :
    circuit.field = F ∧ circuit.nSignals = max nSignals 1 ∧
      circuit.constraints = constraints.toArray ∧ circuit.inputs = .ofList inputs ∧
      circuit.outputs = .ofList outputs := by
  unfold build at h
  simp only at h
  split at h
  · cases h
  split at h
  · cases h
  split at h
  · cases h
  split at h
  · cases h
  cases h
  exact ⟨rfl, rfl, rfl, rfl, rfl⟩

theorem PrimeField.modulus_of_ofModulus? {p : Nat} {F : PrimeField} (h : ofModulus? p = some F) :
    F.modulus = p ∧ 0 < p := by
  unfold ofModulus? at h
  split at h
  · rename_i hprime
    have hp : ¬ p < 2 := fun hlt => by simp [isPrime, hlt] at hprime
    exact ⟨(Option.some.inj h) ▸ rfl, by omega⟩
  · cases h

/-- Each result of a sequence that succeeds is that of its own step. -/
theorem forall₂_of_mapM_eq_ok {α β ε : Type} {f : α → Except ε β} {l : List α} {r : List β}
    (h : l.mapM f = .ok r) : l.Forall₂ (fun a b => f a = .ok b) r := by
  induction l generalizing r with
  | nil =>
    cases h
    exact .nil
  | cons a rest ih =>
    rw [List.mapM_cons, bind_eq_ok_iff] at h
    obtain ⟨b, hb, h⟩ := h
    obtain ⟨bs, hbs, h⟩ := bind_eq_ok_iff.1 h
    cases h
    exact .cons hb (ih hbs)

/-- A property of all items of a list is that of the items that they are related to one by one. -/
theorem forall_iff_of_forall₂ {α β : Type} {R : α → β → Prop} {P : β → Prop} {Q : α → Prop}
    {l : List α} {r : List β} (h : l.Forall₂ R r) (hiff : ∀ a ∈ l, ∀ b ∈ r, R a b → (P b ↔ Q a)) :
    (∀ b ∈ r, P b) ↔ ∀ a ∈ l, Q a := by
  induction h with
  | nil => exact ⟨fun _ _ ha => absurd ha List.not_mem_nil, fun _ _ hb => absurd hb List.not_mem_nil⟩
  | cons hab _ ih =>
    rw [List.forall_mem_cons, List.forall_mem_cons,
      hiff _ List.mem_cons_self _ List.mem_cons_self hab,
      ih fun a ha b hb => hiff a (List.mem_cons_of_mem _ ha) b (List.mem_cons_of_mem _ hb)]

namespace AcirFile

variable {file : AcirFile} {F : PrimeField} {circuit : Circuit} {o : Opcode} {p : AcirConstraint}

/-! ## Reading the parts -/

/-- The modulus of a file: the one that it names, or that of the scalar field of BN254. -/
def HasModulus (file : AcirFile) (p : Nat) : Prop :=
  match file.prime with
  | none => p = PrimeField.bn254.modulus
  | some c => c.Writes p

theorem hasModulus_of_field (h : file.field = .ok F) : file.HasModulus F.modulus ∧ 0 < F.modulus := by
  unfold field at h
  unfold HasModulus
  cases hprime : file.prime with
  | none =>
    rw [hprime] at h
    cases h
    exact ⟨rfl, by decide⟩
  | some c =>
    rw [hprime] at h
    obtain ⟨i, hi, h⟩ := bind_eq_ok_iff.1 h
    cases i with
    | negSucc n => cases h
    | ofNat n =>
      cases hF : PrimeField.ofModulus? n with
      | none =>
        simp only [hF] at h
        cases h
      | some F' =>
        simp only [hF] at h
        cases h
        obtain ⟨hmodulus, hpos⟩ := PrimeField.modulus_of_ofModulus? hF
        rw [hmodulus]
        exact ⟨Coefficient.integer_eq_ok_iff.1 hi, hpos⟩

/-- The coefficient of a term in the field stands for the integer that is written. -/
theorem exists_of_reduce_eq_ok (hF : 0 < F.modulus) {c : Coefficient} {n : Nat}
    (h : c.reduce F = .ok n) : ∃ k, c.Writes k ∧ (n : ZMod F.modulus) = (k : Int) := by
  obtain ⟨k, hk, h⟩ := bind_eq_ok_iff.1 h
  cases h
  exact ⟨k, Coefficient.integer_eq_ok_iff.1 hk, PrimeField.cast_ofInt hF k⟩

theorem signal_eq_succ {s : UInt64} (h : s.toNat < UInt64.size - 1) : signal s = s.toNat + 1 := by
  have hsize : s.toNat + 1 < 18446744073709551616 := by
    simp only [UInt64.size] at h
    omega
  rw [signal, UInt64.toNat_add]
  exact Nat.mod_eq_of_lt hsize

variable {w : Nat → Nat} {x : Signal → ZMod F.modulus}

/-- Reading the terms of one degree keeps the values of all of them, and so their sum. -/
theorem exists_values_of_forall₂ {α κ : Type} {terms : List α} {read : List (κ × Nat)}
    {y : κ → ZMod F.modulus} {R : α → κ × Nat → Prop} {V : α → Int → Prop} (h : terms.Forall₂ R read)
    (hterm : ∀ t ∈ terms, ∀ e, R t e → ∃ v, V t v ∧ (v : ZMod F.modulus) = e.2 * y e.1) :
    ∃ values, terms.Forall₂ V values ∧
      ((values.sum : Int) : ZMod F.modulus) = (read.map fun e => (e.2 : ZMod F.modulus) * y e.1).sum := by
  induction h with
  | nil => exact ⟨[], .nil, by simp⟩
  | @cons t e terms read hread _ ih =>
    obtain ⟨v, hv, hcast⟩ := hterm t List.mem_cons_self e hread
    obtain ⟨values, hvalues, hsum⟩ := ih fun t ht => hterm t (List.mem_cons_of_mem _ ht)
    refine ⟨v :: values, .cons hv hvalues, ?_⟩
    rw [List.sum_cons, Int.cast_add, hcast, hsum, List.map_cons, List.sum_cons]

/-- The polynomial that is read has the value of the one that is written. -/
theorem exists_hasValue_of_constraint (hF : 0 < F.modulus) (h : constraint F o = .ok p)
    (hone : x constantSignal = 1)
    (hx : ∀ s ∈ o.witnesses, x (signal s) = (w s.toNat : ZMod F.modulus)) :
    ∃ v, o.HasValue w v ∧ (v : ZMod F.modulus) = p.valueAt x := by
  obtain ⟨mult, hmult, h⟩ := bind_eq_ok_iff.1 h
  obtain ⟨linear, hlinear, h⟩ := bind_eq_ok_iff.1 h
  obtain ⟨constant, hconstant, h⟩ := bind_eq_ok_iff.1 h
  cases h
  obtain ⟨k, hk, hcast⟩ := exists_of_reduce_eq_ok hF hconstant
  obtain ⟨products, hproducts, hsum⟩ := exists_values_of_forall₂ (V := ProductTerm.HasValue w)
    (y := fun k => x k.1 * x k.2) (forall₂_of_mapM_eq_ok hmult) fun t ht e he => by
      obtain ⟨n, hn, he⟩ := bind_eq_ok_iff.1 he
      cases he
      obtain ⟨k, hk, hcast⟩ := exists_of_reduce_eq_ok hF hn
      have hmem : ∀ s ∈ [t.left, t.right], s ∈ o.witnesses := fun s hs =>
        List.mem_append_left _ (List.mem_flatMap.2 ⟨t, ht, hs⟩)
      refine ⟨_, ⟨k, hk, rfl⟩, ?_⟩
      rw [hx _ (hmem _ (by simp)), hx _ (hmem _ (by simp)), hcast]
      push_cast
      rfl
  obtain ⟨terms, hterms, hsum'⟩ := exists_values_of_forall₂ (V := WitnessTerm.HasValue w)
    (y := x) (forall₂_of_mapM_eq_ok hlinear) fun t ht e he => by
      obtain ⟨n, hn, he⟩ := bind_eq_ok_iff.1 he
      cases he
      obtain ⟨k, hk, hcast⟩ := exists_of_reduce_eq_ok hF hn
      refine ⟨_, ⟨k, hk, rfl⟩, ?_⟩
      rw [hx _ (List.mem_append_right _ (List.mem_map_of_mem ht)), hcast]
      push_cast
      rfl
  refine ⟨_, ⟨products, terms, k, hproducts, hterms, hk, rfl⟩, ?_⟩
  rw [AcirConstraint.valueAt_ofTerms hone, Int.cast_add, Int.cast_add, hsum, hsum', hcast]

/-- Values satisfy the polynomial that is read exactly if the modulus divides the one that is written. -/
theorem isSatisfied_iff_of_constraint {values : List Nat} (hF : 0 < F.modulus)
    (h : constraint F o = .ok p) (hsignals : ∀ s ∈ p.signals, s < (1 :: values).length)
    (hwitnesses : ∀ s ∈ o.witnesses, s.toNat < UInt64.size - 1) :
    p.isSatisfied F (1 :: values) = true ↔
      ∃ v, o.HasValue (fun i => values.getD i 0) v ∧ (F.modulus : Int) ∣ v := by
  obtain ⟨v, hv, hcast⟩ := exists_hasValue_of_constraint (w := fun i => values.getD i 0)
    (x := F.assignment (1 :: values)) hF h (by simp [PrimeField.assignment, constantSignal])
    fun s hs => by rw [PrimeField.assignment, signal_eq_succ (hwitnesses s hs), List.getD_cons_succ]
  have hconstant : p.constant < F.modulus := by
    obtain ⟨mult, -, h⟩ := bind_eq_ok_iff.1 h
    obtain ⟨linear, -, h⟩ := bind_eq_ok_iff.1 h
    obtain ⟨constant, -, h⟩ := bind_eq_ok_iff.1 h
    rw [← Except.ok.inj h]
    exact AcirConstraint.constant_ofTerms_lt hF _ _ _
  rw [AcirConstraint.isSatisfied_iff_valueAt hF hconstant hsignals, ← hcast,
    ZMod.intCast_zmod_eq_zero_iff_dvd]
  refine ⟨fun hdvd => ⟨v, hv, hdvd⟩, ?_⟩
  rintro ⟨v', hv', hdvd⟩
  rwa [hv.unique hv']

/-- The witnesses that a file names. -/
def witnesses (file : AcirFile) : List UInt64 :=
  file.inputs ++ (file.outputs ++ file.opcodes.flatMap Opcode.witnesses)

/-- What the circuit of a file is built from. -/
theorem exists_parts_of_toCircuit (h : file.toCircuit = .ok circuit) :
    file.field = .ok circuit.field ∧ (∃ constraints : List AcirConstraint,
      file.opcodes.Forall₂ (fun o p => constraint circuit.field o = .ok p) constraints ∧
      circuit.constraints = (constraints.map Constraint.acir).toArray) ∧
    circuit.nSignals = max (file.nWitnesses + 1).toNat 1 ∧
    circuit.inputs = .ofList (file.inputs.map signal) ∧
    circuit.outputs = .ofList (file.outputs.map signal) := by
  obtain ⟨F, hF, h⟩ := bind_eq_ok_iff.1 h
  obtain ⟨constraints, hconstraints, h⟩ := bind_eq_ok_iff.1 h
  cases hbuild : Circuit.build F .acir (some (file.nWitnesses + 1).toNat) (file.inputs.map signal)
      (file.outputs.map signal) (constraints.map .acir) with
  | error e =>
    rw [hbuild] at h
    cases h
  | ok built =>
    rw [hbuild] at h
    cases h
    obtain ⟨rfl, hsize, hall, hinputs, houtputs⟩ := Circuit.parts_of_build hbuild
    exact ⟨hF, ⟨constraints, forall₂_of_mapM_eq_ok hconstraints, hall⟩, hsize, hinputs, houtputs⟩

theorem mem_ofList_signals {l : List UInt64} (h : ∀ s ∈ l, s.toNat < UInt64.size - 1) (i : Nat) :
    i + 1 ∈ SortedSet.ofList (l.map signal) ↔ i ∈ l.map UInt64.toNat := by
  rw [SortedSet.mem_ofList, List.mem_map, List.mem_map]
  refine exists_congr fun s => and_congr_right fun hs => ?_
  rw [signal_eq_succ (h s hs), Nat.add_right_cancel_iff]

/-! ## Reading a file -/

/-- A file that is read gives a circuit with its modulus. Values of its witnesses, put behind the value of
the constant signal, satisfy the circuit exactly if every polynomial of the file, taken over the integers,
is divisible by the modulus. The declared inputs and outputs are the signals behind the declared
witnesses. -/
theorem read_keeps_meaning {text : String}
    (hfile : (Json.parse? text).bind ofJson? = some file) (h : read text = .ok circuit)
    (hsize : file.nWitnesses.toNat < UInt64.size - 1)
    (hwitnesses : ∀ s ∈ file.witnesses, s.toNat < UInt64.size - 1) :
    file.HasModulus circuit.field.modulus ∧
    (∀ w : List Nat, w.length = file.nWitnesses.toNat →
      (circuit.isSatisfied (1 :: w) = true ↔ ∀ o ∈ file.opcodes,
        ∃ v, o.HasValue (fun i => w.getD i 0) v ∧ (circuit.field.modulus : Int) ∣ v)) ∧
    ∀ i, (i ∈ file.inputs.map UInt64.toNat ↔ i + 1 ∈ circuit.inputs) ∧
      (i ∈ file.outputs.map UInt64.toNat ↔ i + 1 ∈ circuit.outputs) := by
  have htoCircuit : file.toCircuit = .ok circuit := by
    rw [read, hfile] at h
    exact h
  obtain ⟨hfield, ⟨constraints, hconstraints, hall⟩, hnSignals, hinputs, houtputs⟩ :=
    exists_parts_of_toCircuit htoCircuit
  obtain ⟨hmodulus, hF⟩ := hasModulus_of_field hfield
  have hdeclared := List.forall_mem_append.1 hwitnesses
  refine ⟨hmodulus, fun w hw => ?_, fun i => ⟨?_, ?_⟩⟩
  · have hlength : (1 :: w).length = circuit.nSignals := by
      have hsucc : (file.nWitnesses + 1).toNat = file.nWitnesses.toNat + 1 := signal_eq_succ hsize
      rw [hnSignals, hsucc, List.length_cons, hw]
      omega
    have hsignals : ∀ p ∈ constraints, ∀ s ∈ p.signals, s < (1 :: w).length := fun p hp s hs => by
      have hmem : Constraint.acir p ∈ circuit.constraints.toList := by
        rw [hall]
        exact List.mem_map_of_mem hp
      rw [hlength]
      exact (circuit.constraints_wellFormed _ hmem).2 s hs
    rw [Circuit.isSatisfied, hall, Array.all_eq_true_iff_forall_mem]
    simp only [List.mem_toArray, List.forall_mem_map]
    refine forall_iff_of_forall₂ hconstraints fun o ho p hp hread => ?_
    exact isSatisfied_iff_of_constraint hF hread (hsignals p hp) fun s hs =>
      (List.forall_mem_append.1 hdeclared.2).2 s (List.mem_flatMap.2 ⟨o, ho, hs⟩)
  · rw [hinputs, mem_ofList_signals hdeclared.1]
  · rw [houtputs, mem_ofList_signals (List.forall_mem_append.1 hdeclared.2).1]

namespace Sample

/-- A product over the field with thirteen elements, written in two terms: the one has a coefficient in base
sixteen that is larger than the modulus, the other is turned round and has a negative coefficient. -/
def text : String :=
  "\x7b\"prime\":\"0xd\",\"number_of_signals\":3,\"inputs\":[0,1],\"outputs\":[2],\"constraints\":[" ++
  "\x7b\"mul\":[\x7b\"witness1\":0,\"witness2\":1,\"coeff\":\"0x1c\"\x7d," ++
  "\x7b\"witness1\":1,\"witness2\":0,\"coeff\":-1\x7d]," ++
  "\"linear\":[\x7b\"witness\":2,\"coeff\":\"-1\"\x7d]\x7d]\x7d"

/-- The content of the text. -/
def content : AcirFile where
  prime := some (.text "0xd")
  nWitnesses := 3
  inputs := [0, 1]
  outputs := [2]
  opcodes := [⟨[⟨0, 1, .text "0x1c"⟩, ⟨1, 0, .signed (-1)⟩], [⟨2, .text "-1"⟩], .zero⟩]

theorem ofJson?_text : (Json.parse? text).bind ofJson? = some content := by decide +kernel

theorem exists_read_text : ∃ circuit, read text = .ok circuit := by
  have hread : read text = content.toCircuit := by
    rw [read, ofJson?_text]
  have hok : content.toCircuit.toOption.isSome = true := by decide +kernel
  rw [hread]
  cases h : content.toCircuit with
  | ok circuit => exact ⟨circuit, rfl⟩
  | error e =>
    rw [h] at hok
    cases hok

/-- Five times seven is nine modulo thirteen. -/
theorem read_keeps_meaning_product : ∃ circuit, read text = .ok circuit ∧
    circuit.isSatisfied [1, 5, 7, 9] = true ∧ 2 ∈ circuit.inputs ∧ 3 ∈ circuit.outputs := by
  obtain ⟨circuit, hread⟩ := exists_read_text
  have hall : content.witnesses.all (fun s => s.toNat < UInt64.size - 1) = true := by decide
  obtain ⟨hmodulus, hsatisfied, hdeclared⟩ := read_keeps_meaning ofJson?_text hread (by decide) fun s hs =>
    of_decide_eq_true (List.all_eq_true.1 hall s hs)
  have hwrites : (Coefficient.text "0xd").Writes 13 := Coefficient.integer_eq_ok_iff.1 rfl
  have hprime : circuit.field.modulus = 13 := by
    have hunique := Coefficient.Writes.unique (c := .text "0xd") hmodulus hwrites
    exact_mod_cast hunique
  have hlarge : (Coefficient.text "0x1c").Writes 28 := Coefficient.integer_eq_ok_iff.1 rfl
  have hturned : (Coefficient.signed (-1)).Writes (-1) := Coefficient.integer_eq_ok_iff.1 rfl
  have hthird : (Coefficient.text "-1").Writes (-1) := Coefficient.integer_eq_ok_iff.1 rfl
  have hvalue : ∀ o ∈ content.opcodes, o.HasValue (fun i => [5, 7, 9].getD i 0) 936 := fun o ho => by
    rw [List.mem_singleton.1 ho]
    exact ⟨[980, -35], [-9], 0, .cons ⟨28, hlarge, rfl⟩ (.cons ⟨-1, hturned, rfl⟩ .nil),
      .cons ⟨-1, hthird, rfl⟩ .nil, rfl, by decide⟩
  refine ⟨circuit, hread, (hsatisfied [5, 7, 9] rfl).2 fun o ho => ?_, (hdeclared 1).1.1 (by decide),
    (hdeclared 2).2.1 (by decide)⟩
  rw [hprime]
  exact ⟨936, hvalue o ho, by decide⟩

end Sample

end AcirFile

end CircuitEquiv
