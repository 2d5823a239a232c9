-- SUMMARY: A file is refused for its modulus only if the modulus that it names is no prime.
import CircuitEquiv.Proofs.Field.Primality
import CircuitEquiv.Proofs.File.AcirMeaning
import CircuitEquiv.Proofs.File.R1csLayout

/-!
# The modulus of a file

A reader looks at the modulus in one place, and all its other steps fail for other reasons. So a file that
is refused for its modulus names one that the primality test rejects, and that is never a prime.
-/

namespace CircuitEquiv

variable {α β : Type}

/-! ## Computations that do not blame the modulus -/

theorem bind_eq_error_iff {ε : Type} {x : Except ε α} {f : α → Except ε β} {e : ε} :
    x >>= f = .error e ↔ x = .error e ∨ ∃ a, x = .ok a ∧ f a = .error e := by
  cases x with
  | error e' =>
    constructor
    · exact fun h => .inl (congrArg Except.error (Except.error.inj h))
    · rintro (h | ⟨a, h, -⟩)
      · exact congrArg Except.error (Except.error.inj h)
      · cases h
  | ok a =>
    constructor
    · exact fun h => .inr ⟨a, rfl, h⟩
    · rintro (h | ⟨a', h, he⟩)
      · cases h
      · cases h
        exact he

/-- The computation does not fail because of the modulus of the field. -/
def SparesModulus (x : Except ReadError α) : Prop := ∀ text, x ≠ .error (.invalidModulus text)

namespace SparesModulus

variable {x : Except ReadError α}

theorem ok (a : α) : SparesModulus (.ok a) := fun _ h => by cases h

theorem bind {f : α → Except ReadError β} (hx : SparesModulus x)
    (hf : ∀ a, x = .ok a → SparesModulus (f a)) : SparesModulus (x >>= f) := by
  intro text h
  rcases bind_eq_error_iff.1 h with h | ⟨a, ha, h⟩
  · exact hx text h
  · exact hf a ha text h

theorem mapM {f : β → Except ReadError α} (hf : ∀ b, SparesModulus (f b)) (l : List β) :
    SparesModulus (l.mapM f) := by
  induction l with
  | nil => exact .ok []
  | cons b rest ih =>
    rw [List.mapM_cons]
    exact (hf b).bind fun a _ => ih.bind fun as _ => .ok (a :: as)

theorem mapError_circuit (x : Except CircuitError α) : SparesModulus (x.mapError .circuit) := by
  cases x with
  | ok a => exact .ok a
  | error e => exact fun _ h => by cases h

end SparesModulus

theorem PrimeField.ofModulus?_eq_none_iff {p : Nat} : ofModulus? p = none ↔ isPrime p = false := by
  unfold ofModulus?
  split <;> simp_all

/-! ## R1CS files -/

namespace R1csFile

variable {text : String}

/-- No run of the reader fails because of the modulus. -/
def Reader.Spares (reader : Reader α) : Prop := ∀ unread, SparesModulus (reader.run unread)

namespace Reader.Spares

variable {reader : Reader α}

theorem pure (a : α) : Spares (Pure.pure a : Reader α) := fun unread => .ok (a, unread)

theorem take (read : ByteRead α) : Spares (R1csFile.take read) := by
  intro unread text h
  rw [StateT.run, R1csFile.take] at h
  cases hread : read.run unread with
  | ok a rest =>
    rw [hread] at h
    cases h
  | error e rest =>
    rw [hread] at h
    cases h

theorem bind {next : α → Reader β} (h : Spares reader) (hnext : ∀ a, Spares (next a)) :
    Spares (reader >>= next) := by
  intro unread
  rw [StateT.run_bind]
  exact (h unread).bind fun a _ => hnext a.1 a.2

theorem times (h : Spares reader) (n : Nat) : Spares (R1csFile.times reader n) := by
  induction n with
  | zero => exact .pure []
  | succ n ih => exact h.bind fun a => ih.bind fun as => .pure (a :: as)

end Reader.Spares

open Reader (Spares)

theorem spares_readSections (n : Nat) (sections : Sections) : Spares (readSections n sections) := by
  induction n generalizing sections with
  | zero => exact .pure sections
  | succ n ih =>
    unfold readSections
    refine .bind (.take _) fun kind => .bind (.take _) fun size => .bind (.take _) fun body => ?_
    split
    · exact .bind (fun _ _ h => by cases h) fun _ => ih _
    · exact ih _

theorem spares_readFrame : Spares readFrame := by
  unfold readFrame
  refine .bind (.take _) fun _ => .bind (.take _) fun v => ?_
  split
  · exact .bind (fun _ _ h => by cases h) fun _ => .bind (.take _) fun n => spares_readSections n _
  · exact .bind (.take _) fun n => spares_readSections n _

theorem spares_readConstraints (h : Header) : Spares (readConstraints h) := by
  have hterm : Spares (readTerm h.fieldSize) :=
    .bind (.take _) fun signal => .bind (.take _) fun value => .pure (signal, value)
  have hterms : Spares (readTerms h) :=
    .bind (.take _) fun n => .bind (.times hterm n) fun terms => .pure (Terms.sumOfList h.field terms)
  exact .times (.bind hterms fun a => .bind hterms fun b => .bind hterms fun c =>
    .pure (R1csConstraint.ofParts a b c)) _

theorem sparesModulus_rest (a : α) (name : String) (rest : List UInt8) :
    SparesModulus (if rest.isEmpty then .ok a else .error (.trailingBytes name rest.length)) := by
  split
  · exact .ok a
  · exact fun _ h => by cases h

theorem sparesModulus_readSection (sections : Sections) (kind : Nat) (name : String) {reader : Reader α}
    (h : Spares reader) : SparesModulus (readSection sections kind name reader) := by
  unfold readSection
  cases sections.get? kind with
  | none => exact fun _ h => by cases h
  | some body => exact (h body).bind fun (a, rest) _ => sparesModulus_rest a name rest

/-- Reads the size of a coefficient and the modulus. -/
def readModulus : Reader (Nat × Nat) := do
  let fieldSize ← take ByteRead.u32
  if fieldSize = 0 ∨ fieldSize % 8 ≠ 0 then throw (.invalidFieldSize fieldSize)
  let prime ← take (ByteRead.nat fieldSize)
  return (fieldSize, prime)

/-- The modulus that the header among the sections names. -/
def modulusIn (sections : Sections) : Except ReadError Nat :=
  match sections.get? headerKind with
  | none => throw (.missingSection "header")
  | some body => return (← readModulus.run body).1.2

/-- The modulus that a file names. -/
def modulusOf (bytes : List UInt8) : Except ReadError Nat := do
  let (sections, _) ← readFrame.run bytes
  modulusIn sections

theorem spares_readModulus : Spares readModulus := by
  unfold readModulus
  refine .bind (.take _) fun size => ?_
  split
  · exact .bind (fun _ _ h => by cases h) fun _ => .bind (.take _) fun p => .pure (size, p)
  · exact .bind (.take _) fun p => .pure (size, p)

/-- Reads the counts of a header. The number of labels is passed over. -/
def readCounts (fieldSize : Nat) (field : PrimeField) : Reader Header := do
  let nSignals ← take ByteRead.u32
  let nOutputs ← take ByteRead.u32
  let nPublicInputs ← take ByteRead.u32
  let nPrivateInputs ← take ByteRead.u32
  let _ ← take ByteRead.u64
  let nConstraints ← take ByteRead.u32
  return { fieldSize, field, nSignals, nOutputs, nPublicInputs, nPrivateInputs, nConstraints }

/-- A header begins with the modulus, and the counts follow unless it is rejected. -/
theorem readHeader_eq : readHeader = readModulus >>= fun (fieldSize, p) =>
    match PrimeField.ofModulus? p with
    | none => throw (.invalidModulus (toString p))
    | some field => readCounts fieldSize field := by
  unfold readHeader readModulus readCounts
  rw [bind_assoc]
  refine congrArg (take ByteRead.u32 >>= ·) (funext fun size => ?_)
  split
  · rfl
  · refine ((bind_assoc _ _ _).trans ?_).symm
    rfl

theorem spares_readCounts (fieldSize : Nat) (field : PrimeField) : Spares (readCounts fieldSize field) :=
  .bind (.take _) fun _ => .bind (.take _) fun _ => .bind (.take _) fun _ => .bind (.take _) fun _ =>
    .bind (.take _) fun _ => .bind (.take _) fun _ => .pure _

/-- A header is refused for its modulus if and only if the primality test rejects it. -/
theorem run_readHeader_iff {body : List UInt8} :
    readHeader.run body = .error (.invalidModulus text) ↔
      ∃ a, readModulus.run body = .ok a ∧ isPrime a.1.2 = false ∧ text = toString a.1.2 := by
  rw [readHeader_eq, StateT.run_bind, bind_eq_error_iff]
  constructor
  · rintro (h | ⟨⟨⟨fieldSize, p⟩, rest⟩, ha, h⟩)
    · exact absurd h (spares_readModulus body text)
    · cases hfield : PrimeField.ofModulus? p with
      | none =>
        simp only [hfield] at h
        cases h
        exact ⟨_, ha, PrimeField.ofModulus?_eq_none_iff.1 hfield, rfl⟩
      | some field =>
        simp only [hfield] at h
        exact absurd h (spares_readCounts fieldSize field rest text)
  · rintro ⟨⟨⟨fieldSize, p⟩, rest⟩, ha, hp, rfl⟩
    refine .inr ⟨_, ha, ?_⟩
    simp only [PrimeField.ofModulus?_eq_none_iff.2 hp]
    rfl

theorem readSection_readHeader_iff {sections : Sections} {name : String} :
    readSection sections headerKind name readHeader = .error (.invalidModulus text) ↔
      ∃ body a, sections.get? headerKind = some body ∧ readModulus.run body = .ok a ∧
        isPrime a.1.2 = false ∧ text = toString a.1.2 := by
  unfold readSection
  cases hbody : sections.get? headerKind with
  | none =>
    constructor
    · exact fun h => by cases h
    · rintro ⟨body, a, h, -⟩
      cases h
  | some body =>
    constructor
    · intro h
      rcases bind_eq_error_iff.1 h with h | ⟨⟨a, rest⟩, -, h⟩
      · obtain ⟨a, ha, hp⟩ := run_readHeader_iff.1 h
        exact ⟨body, a, rfl, ha, hp⟩
      · exact absurd h (sparesModulus_rest a name rest text)
    · rintro ⟨_, a, h, ha, hp⟩
      cases h
      exact bind_eq_error_iff.2 (.inl (run_readHeader_iff.2 ⟨a, ha, hp⟩))

theorem modulusIn_eq_ok_iff {sections : Sections} {p : Nat} : modulusIn sections = .ok p ↔
    ∃ body a, sections.get? headerKind = some body ∧ readModulus.run body = .ok a ∧ a.1.2 = p := by
  unfold modulusIn
  cases sections.get? headerKind with
  | none =>
    constructor
    · exact fun h => by cases h
    · rintro ⟨body, a, h, -⟩
      cases h
  | some body =>
    constructor
    · intro h
      obtain ⟨a, ha, h⟩ := bind_eq_ok_iff.1 h
      exact ⟨body, a, rfl, ha, Except.ok.inj h⟩
    · rintro ⟨_, a, h, ha, rfl⟩
      cases h
      exact bind_eq_ok_iff.2 ⟨a, ha, rfl⟩

/-- A file is refused for its modulus if and only if the primality test rejects the one that its header
names, and that one is reported. -/
theorem read_eq_invalidModulus_iff {bytes : List UInt8} :
    read bytes = .error (.invalidModulus text) ↔
      ∃ p, modulusOf bytes = .ok p ∧ isPrime p = false ∧ text = toString p := by
  constructor
  · intro h
    rcases bind_eq_error_iff.1 h with h | ⟨⟨sections, rest⟩, hframe, h⟩
    · exact absurd h (spares_readFrame bytes text)
    rcases bind_eq_error_iff.1 h with h | ⟨header, -, h⟩
    · obtain ⟨body, a, hbody, ha, hp⟩ := readSection_readHeader_iff.1 h
      exact ⟨a.1.2, bind_eq_ok_iff.2 ⟨_, hframe, modulusIn_eq_ok_iff.2 ⟨body, a, hbody, ha, rfl⟩⟩, hp⟩
    · refine absurd h (SparesModulus.bind ?_ (fun _ _ => .mapError_circuit _) text)
      exact sparesModulus_readSection _ _ _ (spares_readConstraints header)
  · rintro ⟨_, hp, hprime⟩
    obtain ⟨⟨sections, rest⟩, hframe, hp⟩ := bind_eq_ok_iff.1 hp
    obtain ⟨body, a, hbody, ha, rfl⟩ := modulusIn_eq_ok_iff.1 hp
    refine bind_eq_error_iff.2 (.inr ⟨_, hframe, bind_eq_error_iff.2 (.inl ?_)⟩)
    exact readSection_readHeader_iff.2 ⟨body, a, hbody, ha, hprime⟩

end R1csFile

/-! ## ACIR files -/

namespace AcirFile

variable {file : AcirFile} {message : String}

theorem sparesModulus_integer (c : Coefficient) : SparesModulus c.integer := by
  cases c with
  | signed value => exact .ok _
  | unsigned value => exact .ok _
  | text value =>
    rw [Coefficient.integer]
    split
    · exact .ok _
    · exact fun _ h => by cases h

theorem sparesModulus_reduce (F : PrimeField) (c : Coefficient) : SparesModulus (c.reduce F) :=
  (sparesModulus_integer c).bind fun _ _ => .ok _

theorem sparesModulus_constraint (F : PrimeField) (o : Opcode) : SparesModulus (constraint F o) :=
  .bind (.mapM (fun _ => (sparesModulus_reduce F _).bind fun _ _ => .ok _) _) fun _ _ =>
    .bind (.mapM (fun _ => (sparesModulus_reduce F _).bind fun _ _ => .ok _) _) fun _ _ =>
      (sparesModulus_reduce F o.constant).bind fun _ _ => .ok _

/-- The field of a file is refused for its modulus if and only if the file names an integer that is
negative or that the primality test rejects, and it is reported as it is written. -/
theorem field_eq_invalidModulus_iff : file.field = .error (.invalidModulus message) ↔
    ∃ c i, file.prime = some c ∧ c.Writes i ∧ (∀ p : Nat, i = p → isPrime p = false) ∧
      message = c.shown := by
  unfold field
  cases hprime : file.prime with
  | none =>
    constructor
    · exact fun h => by cases h
    · rintro ⟨c, i, h, -⟩
      cases h
  | some c =>
    constructor
    · intro h
      rcases bind_eq_error_iff.1 h with h | ⟨i, hi, h⟩
      · exact absurd h (sparesModulus_integer c message)
      · refine ⟨c, i, rfl, Coefficient.integer_eq_ok_iff.1 hi, ?_⟩
        cases i with
        | negSucc n =>
          cases h
          exact ⟨fun p hp => absurd hp (by omega), rfl⟩
        | ofNat n =>
          cases hfield : PrimeField.ofModulus? n with
          | none =>
            simp only [hfield] at h
            cases h
            exact ⟨fun p hp => Int.ofNat.inj hp ▸ PrimeField.ofModulus?_eq_none_iff.1 hfield, rfl⟩
          | some F =>
            simp only [hfield] at h
            cases h
    · rintro ⟨_, i, h, hi, hp, rfl⟩
      cases h
      refine bind_eq_error_iff.2 (.inr ⟨i, Coefficient.integer_eq_ok_iff.2 hi, ?_⟩)
      cases i with
      | negSucc n => rfl
      | ofNat n =>
        simp only [PrimeField.ofModulus?_eq_none_iff.2 (hp n rfl)]
        rfl

/-- A file is refused for its modulus if and only if its field is. -/
theorem read_eq_invalidModulus_iff {text : String} : read text = .error (.invalidModulus message) ↔
    ∃ file, (Json.parse? text).bind ofJson? = some file ∧ file.field = .error (.invalidModulus message) := by
  unfold read
  cases hfile : (Json.parse? text).bind ofJson? with
  | none =>
    constructor
    · exact fun h => by cases h
    · rintro ⟨file, h, -⟩
      cases h
  | some file =>
    constructor
    · intro h
      rcases bind_eq_error_iff.1 h with h | ⟨F, -, h⟩
      · exact ⟨file, rfl, h⟩
      · refine absurd h (SparesModulus.bind ?_ (fun _ _ => .mapError_circuit _) message)
        exact .mapM (sparesModulus_constraint F) _
    · rintro ⟨_, h, hfield⟩
      cases h
      exact bind_eq_error_iff.2 (.inl hfield)

end AcirFile

/-! ## Primes -/

/-- Every prime, of any size, passes the test and is the modulus of a field; so a file that is refused for
its modulus, of either format, does not name a prime. Numbers below two do not pass, nor do those that
have a prime factor of at most 71 other than themselves. -/
theorem PrimeField.primes_pass :
    (∀ p : Nat, p.Prime → isPrime p = true ∧ ofModulus? p = some ⟨p⟩) ∧
    (∀ bytes text, R1csFile.read bytes = .error (.invalidModulus text) →
      ∃ n, R1csFile.modulusOf bytes = .ok n ∧ ¬n.Prime ∧ text = toString n) ∧
    (∀ text message, AcirFile.read text = .error (.invalidModulus message) →
      ∃ file c i, (Json.parse? text).bind AcirFile.ofJson? = some file ∧ file.prime = some c ∧
        c.Writes i ∧ (∀ n : Nat, i = n → ¬n.Prime) ∧ message = c.shown) ∧
    (∀ n < 2, isPrime n = false) ∧
    ∀ n q : Nat, q.Prime → q ≤ 71 → q ∣ n → n ≠ q → isPrime n = false := by
  have hcomposite : ∀ n : Nat, isPrime n = false → ¬n.Prime := fun n hn hp => by
    rw [isPrime_of_prime hp] at hn
    cases hn
  refine ⟨fun p hp => ⟨isPrime_of_prime hp, if_pos (isPrime_of_prime hp)⟩, fun bytes text h => ?_,
    fun text message h => ?_, fun n => isPrime_eq_false_of_lt, fun n q => isPrime_eq_false_of_dvd⟩
  · obtain ⟨n, hmodulus, hn, htext⟩ := R1csFile.read_eq_invalidModulus_iff.1 h
    exact ⟨n, hmodulus, hcomposite n hn, htext⟩
  · obtain ⟨file, hfile, hfield⟩ := AcirFile.read_eq_invalidModulus_iff.1 h
    obtain ⟨c, i, hprime, hwrites, hi, hmessage⟩ := AcirFile.field_eq_invalidModulus_iff.1 hfield
    exact ⟨file, c, i, hfile, hprime, hwrites, fun n hn => hcomposite n (hi n hn), hmessage⟩

namespace Sample

/-- A file of either format that names the square of seven, the second one as a hexadecimal text. -/
def square : R1csFile.Layout := { R1csFile.Sample.product with modulus := 49 }

def squareText : String := "\x7b\"prime\":\"0x31\",\"number_of_signals\":0\x7d"

def squareFile : AcirFile := ⟨some (.text "0x31"), 0, [], [], []⟩

theorem modulusOf_square : R1csFile.modulusOf (R1csFile.fileBytes square.sections) = .ok 49 := by
  have hsome : (R1csFile.modulusOf (R1csFile.fileBytes square.sections)).toOption = some 49 := by
    decide +kernel
  cases h : R1csFile.modulusOf (R1csFile.fileBytes square.sections) with
  | ok n =>
    rw [h] at hsome
    exact congrArg Except.ok (Option.some.inj hsome)
  | error e =>
    rw [h] at hsome
    cases hsome

theorem ofJson?_squareText : (Json.parse? squareText).bind AcirFile.ofJson? = some squareFile := by
  decide +kernel

/-- 73 is the least prime that the rounds decide, and twice 71 is rejected before them. -/
theorem primes_pass_small : isPrime 73 = true ∧ isPrime 142 = false ∧ isPrime 1 = false ∧
    (∃ n, R1csFile.modulusOf (R1csFile.fileBytes square.sections) = .ok n ∧ ¬n.Prime ∧
      toString 49 = toString n) ∧
    ∃ file c i, (Json.parse? squareText).bind AcirFile.ofJson? = some file ∧ file.prime = some c ∧
      c.Writes i ∧ (∀ n : Nat, i = n → ¬n.Prime) ∧ "0x31" = c.shown := by
  obtain ⟨haccepts, hr1cs, hacir, hsmall, hmultiple⟩ := PrimeField.primes_pass
  have hsquare : isPrime 49 = false := by decide
  refine ⟨(haccepts 73 (by norm_num)).1, hmultiple 142 71 (by norm_num) (by norm_num) (by norm_num)
    (by norm_num), hsmall 1 (by norm_num), hr1cs _ _ ?_, hacir _ _ ?_⟩
  · exact R1csFile.read_eq_invalidModulus_iff.2 ⟨49, modulusOf_square, hsquare, rfl⟩
  · refine AcirFile.read_eq_invalidModulus_iff.2 ⟨squareFile, ofJson?_squareText, ?_⟩
    exact AcirFile.field_eq_invalidModulus_iff.2 ⟨.text "0x31", 49, rfl,
      Coefficient.integer_eq_ok_iff.1 rfl, fun p hp => Int.ofNat.inj hp ▸ hsquare, rfl⟩

end Sample

end CircuitEquiv
