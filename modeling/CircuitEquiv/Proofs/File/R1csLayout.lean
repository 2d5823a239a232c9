-- SUMMARY: The layout of an R1CS file, and that the reader inverts it: whole files give their circuit, cut ones lack bytes.
import CircuitEquiv.File.R1csFile
import CircuitEquiv.Proofs.Constraint.Construction
import CircuitEquiv.Proofs.File.Bytes

/-!
# The layout of R1CS files

A reader inverts an encoding when it takes exactly the bytes of the value, whatever follows them, and when
every strict prefix of these bytes leaves it without enough. Readers that do so one after the other do so
together, so the law of a format follows its structure.

What a file holds is written down section by section. The reader returns the circuit of what was written,
in whatever order the sections stand and whatever other sections there are, and it lacks bytes when the file
is cut anywhere.
-/

namespace CircuitEquiv.R1csFile

/-! ## Readers of encodings -/

section Readers

variable {α β γ : Type} {reader : Reader α} {x y : List UInt8} {a : α} {b : β}

/-- The reader takes exactly the given bytes, and strict prefixes of them do not suffice. -/
structure Reads (reader : Reader α) (x : List UInt8) (a : α) : Prop where
  takes : ∀ rest, reader.run (x ++ rest) = .ok (a, rest)
  lacks : ∀ start, start <+: x → start.length < x.length →
    reader.run start = .error (.bytes .notEnough)

namespace Reads

theorem run_eq (h : Reads reader x a) : reader.run x = .ok (a, []) := by
  have htakes := h.takes []
  rwa [List.append_nil] at htakes

theorem pure (a : α) : Reads (Pure.pure a) [] a where
  takes _ := rfl
  lacks _ _ hlt := absurd hlt (Nat.not_lt_zero _)

/-- One reader after the other takes the bytes of both. -/
theorem bind {next : α → Reader β} (h : Reads reader x a) (h' : Reads (next a) y b) :
    Reads (reader >>= next) (x ++ y) b where
  takes rest := by
    rw [StateT.run_bind, List.append_assoc, h.takes]
    exact h'.takes rest
  lacks start hstart hlt := by
    rw [StateT.run_bind]
    -- either the first part is cut, or it is whole and the second one is cut
    by_cases hx : start.length < x.length
    · have hcut : start <+: x :=
        List.prefix_of_prefix_length_le hstart (List.prefix_append x y) (Nat.le_of_lt hx)
      rw [h.lacks start hcut hx]
      rfl
    · obtain ⟨rest, rfl⟩ :=
        List.prefix_of_prefix_length_le (List.prefix_append x y) hstart (Nat.not_lt.1 hx)
      rw [h.takes]
      refine h'.lacks rest ((List.prefix_append_right_inj x).1 hstart) ?_
      simpa using hlt

theorem map (h : Reads reader x a) (f : α → β) :
    Reads (reader >>= fun a => Pure.pure (f a)) x (f a) := by
  have hboth : Reads (reader >>= fun a => Pure.pure (f a)) (x ++ []) (f a) := h.bind (.pure (f a))
  rwa [List.append_nil] at hboth

/-- Reading as often as there are values takes the bytes of all of them. -/
theorem times {encode : γ → List UInt8} {value : γ → α} {l : List γ}
    (h : ∀ c ∈ l, Reads reader (encode c) (value c)) :
    Reads (times reader l.length) (l.flatMap encode) (l.map value) := by
  induction l with
  | nil => exact .pure []
  | cons c rest ih =>
    rw [List.flatMap_cons]
    exact (h c List.mem_cons_self).bind
      ((ih fun c hc => h c (List.mem_cons_of_mem _ hc)).map (value c :: ·))

/-! ## Elementary readers -/

theorem of_byteRead {read : ByteRead α} (htakes : ∀ rest, read.run (x ++ rest) = .ok a rest)
    (hlacks : ∀ start, start.length < x.length → read.run start = .error .notEnough start) :
    Reads (take read) x a where
  takes rest := by
    rw [StateT.run, take, htakes]
  lacks start _ hlt := by
    rw [StateT.run, take, hlacks start hlt]

theorem bytes (x : List UInt8) : Reads (take (ByteRead.bytes x.length)) x x :=
  of_byteRead (ByteRead.run_bytes_append x) fun _ hlt => ByteRead.run_bytes_of_length_lt hlt

theorem nat {width n : Nat} (h : n < 256 ^ width) :
    Reads (take (ByteRead.nat width)) (littleEndian width n) n := by
  refine of_byteRead (ByteRead.run_nat_append h) fun start hlt => ?_
  rw [length_littleEndian] at hlt
  rw [ByteRead.run_nat, if_neg (Nat.not_le.2 hlt)]

theorem u32 (n : UInt32) : Reads (take ByteRead.u32) (littleEndian 4 n.toNat) n.toNat :=
  nat n.toNat_lt

theorem u64 (n : UInt64) : Reads (take ByteRead.u64) (littleEndian 8 n.toNat) n.toNat :=
  nat n.toNat_lt

theorem magic (x : List UInt8) : Reads (take (ByteRead.magic x)) x () := by
  refine of_byteRead (fun rest => ?_) fun start hlt => ?_
  · rw [ByteRead.magic, EStateM.run_bind, ByteRead.run_bytes_append]
    simp
  · rw [ByteRead.magic, EStateM.run_bind, ByteRead.run_bytes_of_length_lt hlt]

end Reads

end Readers

/-! ## Contents of a file -/

/-- A list of terms as a file holds it. A signal may be repeated and a value need not be reduced. -/
abbrev StoredTerms := List (UInt32 × Nat)

/-- A constraint as a file holds it. -/
structure StoredConstraint where
  a : StoredTerms
  b : StoredTerms
  c : StoredTerms
deriving DecidableEq

/-- A section: its type and its body. -/
abbrev Section := UInt32 × List UInt8

/-- What a file holds. -/
structure Layout where
  /-- The number of bytes of a coefficient. -/
  fieldSize : UInt32
  modulus : Nat
  nSignals : UInt32
  nOutputs : UInt32
  nPublicInputs : UInt32
  nPrivateInputs : UInt32
  nLabels : UInt64
  constraints : List StoredConstraint
  /-- The sections besides the header and the constraints. -/
  others : List Section

/-- The totals of a list of terms. -/
def StoredTerms.totals (F : PrimeField) (terms : StoredTerms) : Terms :=
  Terms.totals F (terms.map fun t => (t.1.toNat, t.2))

/-- The constraint with the terms of each signal added up. -/
def StoredConstraint.toConstraint (F : PrimeField) (c : StoredConstraint) : R1csConstraint :=
  ⟨c.a.totals F, c.b.totals F, c.c.totals F⟩

/-- The lists of terms are counted by four bytes and every value has room in the bytes of a coefficient. -/
def StoredTerms.Fits (fieldSize : UInt32) (terms : StoredTerms) : Prop :=
  terms.length < UInt32.size ∧ ∀ t ∈ terms, t.2 < 256 ^ fieldSize.toNat

instance (fieldSize : UInt32) (terms : StoredTerms) : Decidable (terms.Fits fieldSize) :=
  inferInstanceAs (Decidable (_ ∧ _))

/-! ## Bytes of a file -/

def termBytes (fieldSize : UInt32) (t : UInt32 × Nat) : List UInt8 :=
  littleEndian 4 t.1.toNat ++ littleEndian fieldSize.toNat t.2

def termsBytes (fieldSize : UInt32) (terms : StoredTerms) : List UInt8 :=
  littleEndian 4 terms.length ++ terms.flatMap (termBytes fieldSize)

def constraintBytes (fieldSize : UInt32) (c : StoredConstraint) : List UInt8 :=
  termsBytes fieldSize c.a ++ (termsBytes fieldSize c.b ++ termsBytes fieldSize c.c)

/-- A section with its type and its length in front. -/
def sectionBytes (s : Section) : List UInt8 :=
  littleEndian 4 s.1.toNat ++ (littleEndian 8 s.2.length ++ s.2)

/-- A file of the given sections. -/
def fileBytes (sections : List Section) : List UInt8 :=
  magic ++ (littleEndian 4 version ++ (littleEndian 4 sections.length ++ sections.flatMap sectionBytes))

namespace Layout

variable (f : Layout)

/-- The body of the header section. -/
def headerBody : List UInt8 :=
  littleEndian 4 f.fieldSize.toNat ++ (littleEndian f.fieldSize.toNat f.modulus ++
  (littleEndian 4 f.nSignals.toNat ++ (littleEndian 4 f.nOutputs.toNat ++
  (littleEndian 4 f.nPublicInputs.toNat ++ (littleEndian 4 f.nPrivateInputs.toNat ++
  (littleEndian 8 f.nLabels.toNat ++ littleEndian 4 f.constraints.length))))))

/-- The body of the section of the constraints. -/
def constraintsBody : List UInt8 := f.constraints.flatMap (constraintBytes f.fieldSize)

/-- All sections, the header and the constraints first. -/
def sections : List Section :=
  (UInt32.ofNat headerKind, f.headerBody) :: (UInt32.ofNat constraintsKind, f.constraintsBody) ::
    f.others

/-- The numbers have room in their bytes and no section is there twice. -/
structure IsStorable : Prop where
  fieldSize_pos : f.fieldSize ≠ 0
  fieldSize_mod : f.fieldSize.toNat % 8 = 0
  modulus : f.modulus < 256 ^ f.fieldSize.toNat
  nConstraints : f.constraints.length < UInt32.size
  terms : ∀ c ∈ f.constraints, c.a.Fits f.fieldSize ∧ c.b.Fits f.fieldSize ∧ c.c.Fits f.fieldSize
  kinds : (f.sections.map (·.1)).Nodup
  nSections : f.sections.length < UInt32.size
  sizes : ∀ s ∈ f.sections, s.2.length < UInt64.size

/-- The field of the circuit. -/
def field : PrimeField := ⟨f.modulus⟩

/-- The header of the file. -/
def header : Header where
  fieldSize := f.fieldSize.toNat
  field := f.field
  nSignals := f.nSignals.toNat
  nOutputs := f.nOutputs.toNat
  nPublicInputs := f.nPublicInputs.toNat
  nPrivateInputs := f.nPrivateInputs.toNat
  nConstraints := f.constraints.length

/-- The circuit that the file describes, or what is wrong with it: the outputs are the signals that follow
the constant one, and the inputs, public and private, follow them. -/
def circuit : Except CircuitError Circuit :=
  Circuit.build f.field .r1cs (some f.nSignals.toNat)
    (List.range' (f.nOutputs.toNat + 1) (f.nPublicInputs.toNat + f.nPrivateInputs.toNat))
    (List.range' 1 f.nOutputs.toNat)
    (f.constraints.map fun c => .r1cs (c.toConstraint f.field))

end Layout

/-! ## Reading the parts -/

variable {f : Layout}

theorem reads_count {n : Nat} (h : n < UInt32.size) : Reads (take ByteRead.u32) (littleEndian 4 n) n :=
  .nat h

theorem reads_terms {h : Header} {fieldSize : UInt32} (hsize : h.fieldSize = fieldSize.toNat)
    {terms : StoredTerms} (hfits : terms.Fits fieldSize) :
    Reads (readTerms h) (termsBytes fieldSize terms)
      (Terms.sumOfList h.field (terms.map fun t => (t.1.toNat, t.2))) := by
  have hterm : ∀ t ∈ terms, Reads (readTerm h.fieldSize) (termBytes fieldSize t) (t.1.toNat, t.2) :=
    fun t ht => by
      rw [hsize]
      exact (Reads.u32 t.1).bind ((Reads.nat (hfits.2 t ht)).map (t.1.toNat, ·))
  exact (reads_count hfits.1).bind ((Reads.times hterm).map (Terms.sumOfList h.field))

theorem reads_constraint {h : Header} {fieldSize : UInt32} (hsize : h.fieldSize = fieldSize.toNat)
    {c : StoredConstraint} (ha : c.a.Fits fieldSize) (hb : c.b.Fits fieldSize) (hc : c.c.Fits fieldSize) :
    Reads (readConstraint h) (constraintBytes fieldSize c) (c.toConstraint h.field) := by
  have hparts : c.toConstraint h.field = .ofParts (Terms.sumOfList h.field (c.a.map fun t => (t.1.toNat, t.2)))
      (Terms.sumOfList h.field (c.b.map fun t => (t.1.toNat, t.2)))
      (Terms.sumOfList h.field (c.c.map fun t => (t.1.toNat, t.2))) := by
    simp only [R1csConstraint.ofParts, Terms.dropZeros_sumOfList]
    rfl
  rw [hparts]
  exact (reads_terms hsize ha).bind ((reads_terms hsize hb).bind
    ((reads_terms hsize hc).map (R1csConstraint.ofParts _ _)))

theorem reads_constraints (hf : f.IsStorable) : Reads (readConstraints f.header) f.constraintsBody
    (f.constraints.map (·.toConstraint f.field)) :=
  Reads.times fun c hc => reads_constraint rfl (hf.terms c hc).1 (hf.terms c hc).2.1 (hf.terms c hc).2.2

theorem reads_header (hf : f.IsStorable) (hprime : isPrime f.modulus = true) :
    Reads readHeader f.headerBody f.header := by
  have hsize : ¬ (f.fieldSize.toNat = 0 ∨ f.fieldSize.toNat % 8 ≠ 0) := by
    rintro (h | h)
    · exact hf.fieldSize_pos (UInt32.toNat_inj.1 h)
    · exact h hf.fieldSize_mod
  have hfield : PrimeField.ofModulus? f.modulus = some f.field := if_pos hprime
  unfold readHeader
  refine (Reads.u32 f.fieldSize).bind ?_
  rw [if_neg hsize]
  refine (Reads.nat hf.modulus).bind ?_
  rw [hfield]
  exact (Reads.u32 _).bind ((Reads.u32 _).bind ((Reads.u32 _).bind ((Reads.u32 _).bind
    ((Reads.u64 _).bind ((reads_count hf.nConstraints).map _)))))

/-! ## Reading the sections -/

/-- Adds sections to the bodies that were read. -/
def addSections (bodies : Sections) (l : List Section) : Sections :=
  l.foldl (fun bodies s => bodies.insert s.1.toNat s.2) bodies

theorem get?_addSections_of_notMem {l : List Section} {bodies : Sections} {kind : UInt32}
    (h : kind ∉ l.map (·.1)) : (addSections bodies l).get? kind.toNat = bodies.get? kind.toNat := by
  induction l generalizing bodies with
  | nil => rfl
  | cons s rest ih =>
    rw [List.map_cons, List.mem_cons, not_or] at h
    show (addSections (bodies.insert s.1.toNat s.2) rest).get? kind.toNat = _
    rw [ih h.2, SortedMap.get?_insert, if_neg fun heq => h.1 (UInt32.toNat_inj.1 heq)]

theorem get?_addSections {l : List Section} (hkinds : (l.map (·.1)).Nodup) {s : Section} (hs : s ∈ l)
    (bodies : Sections) : (addSections bodies l).get? s.1.toNat = some s.2 := by
  induction l generalizing bodies with
  | nil => cases hs
  | cons t rest ih =>
    rw [List.map_cons, List.nodup_cons] at hkinds
    rcases List.mem_cons.1 hs with rfl | hs
    · show (addSections (bodies.insert s.1.toNat s.2) rest).get? s.1.toNat = _
      rw [get?_addSections_of_notMem hkinds.1, SortedMap.get?_insert, if_pos rfl]
    · exact ih hkinds.2 hs _

theorem reads_sections {l : List Section} {bodies : Sections} (hkinds : (l.map (·.1)).Nodup)
    (hnew : ∀ s ∈ l, bodies.get? s.1.toNat = none) (hsizes : ∀ s ∈ l, s.2.length < UInt64.size) :
    Reads (readSections l.length bodies) (l.flatMap sectionBytes) (addSections bodies l) := by
  induction l generalizing bodies with
  | nil => exact .pure bodies
  | cons s rest ih =>
    rw [List.map_cons, List.nodup_cons] at hkinds
    have hcontains : ¬ bodies.contains s.1.toNat = true := by
      rw [SortedMap.contains, hnew s List.mem_cons_self]
      decide
    have hrest : Reads (readSections rest.length (bodies.insert s.1.toNat s.2))
        (rest.flatMap sectionBytes) (addSections bodies (s :: rest)) := by
      refine ih hkinds.2 (fun t ht => ?_) fun t ht => hsizes t (List.mem_cons_of_mem _ ht)
      rw [SortedMap.get?_insert, if_neg fun heq => hkinds.1 ?_, hnew t (List.mem_cons_of_mem _ ht)]
      exact UInt32.toNat_inj.1 heq ▸ List.mem_map_of_mem ht
    have hsize : Reads (take ByteRead.u64) (littleEndian 8 s.2.length) s.2.length :=
      .nat (hsizes s List.mem_cons_self)
    rw [List.flatMap_cons, sectionBytes, List.append_assoc, List.append_assoc, List.length_cons,
      readSections]
    refine (Reads.u32 s.1).bind (hsize.bind ((Reads.bytes s.2).bind ?_))
    rw [if_neg hcontains]
    exact hrest

/-- The start of a file and its sections are read whole. -/
theorem reads_frame {l : List Section} (hkinds : (l.map (·.1)).Nodup)
    (hlength : l.length < UInt32.size) (hsizes : ∀ s ∈ l, s.2.length < UInt64.size) :
    Reads readFrame (fileBytes l) (addSections SortedMap.empty l) := by
  have hversion : Reads (take ByteRead.u32) (littleEndian 4 version) version :=
    reads_count (by decide)
  unfold readFrame
  refine (Reads.magic magic).bind (hversion.bind ?_)
  rw [if_neg (not_not_intro rfl)]
  exact (reads_count hlength).bind (reads_sections hkinds (fun _ _ => rfl) hsizes)

theorem readSection_eq {α : Type} {bodies : Sections} {kind : Nat} {name : String} {reader : Reader α}
    {body : List UInt8} {a : α} (hbody : bodies.get? kind = some body) (h : Reads reader body a) :
    readSection bodies kind name reader = .ok a := by
  unfold readSection
  rw [hbody]
  show (reader.run body >>= _) = _
  rw [h.run_eq]
  rfl

/-! ## Reading a file -/

/-- Reading what was written, its sections in any order, gives the circuit that it describes. -/
theorem read_fileBytes (hf : f.IsStorable) (hprime : isPrime f.modulus = true) {l : List Section}
    (hl : l.Perm f.sections) :
    read (fileBytes l) = f.circuit.mapError .circuit ∧
      ∀ start, start <+: fileBytes l → start ≠ fileBytes l → read start = .error (.bytes .notEnough) := by
  have hkinds : (l.map (·.1)).Nodup := (hl.map _).nodup_iff.2 hf.kinds
  have hframe := reads_frame hkinds (hl.length_eq ▸ hf.nSections) fun s hs => hf.sizes s (hl.mem_iff.1 hs)
  constructor
  · have hheader : (addSections SortedMap.empty l).get? headerKind = some f.headerBody :=
      get?_addSections hkinds (hl.mem_iff.2 List.mem_cons_self) _
    have hconstraints : (addSections SortedMap.empty l).get? constraintsKind = some f.constraintsBody :=
      get?_addSections hkinds (hl.mem_iff.2 (List.mem_cons_of_mem _ List.mem_cons_self)) _
    unfold read
    rw [hframe.run_eq]
    show (readSection _ _ _ _ >>= _) = _
    rw [readSection_eq hheader (reads_header hf hprime)]
    show (readSection _ _ _ _ >>= _) = _
    rw [readSection_eq hconstraints (reads_constraints hf)]
    show (toCircuit f.header _).mapError _ = _
    rw [toCircuit, List.map_map]
    rfl
  · intro start hstart hne
    have hlt : start.length < (fileBytes l).length :=
      Nat.lt_of_le_of_ne hstart.length_le fun heq => hne (hstart.eq_of_length heq)
    unfold read
    rw [hframe.lacks start hstart hlt]
    rfl

namespace Sample

/-- A product over the field with seven elements, its terms repeated and not reduced, and a section that
is passed over. -/
def product : Layout where
  fieldSize := 8
  modulus := 7
  nSignals := 4
  nOutputs := 1
  nPublicInputs := 1
  nPrivateInputs := 1
  nLabels := 4
  constraints := [⟨[(2, 1)], [(3, 8)], [(1, 1), (0, 7), (1, 3), (1, 4)]⟩]
  others := [(3, [5, 6])]

/-- The product is read from its sections in the other order, and no strict prefix can be read. -/
theorem read_product : ∃ circuit, read (fileBytes product.sections.reverse) = .ok circuit ∧
    circuit.nSignals = 4 ∧ circuit.constraints = #[.r1cs (.ofTerms [(2, 1)] [(3, 1)] [(1, 1)])] ∧
    ∀ start, start <+: fileBytes product.sections.reverse →
      start ≠ fileBytes product.sections.reverse → read start = .error (.bytes .notEnough) := by
  have hstorable : product.IsStorable := by
    constructor <;> decide
  have hprime : isPrime product.modulus = true := by decide
  obtain ⟨hread, hcut⟩ := read_fileBytes hstorable hprime product.sections.reverse_perm
  exact ⟨_, hread, rfl, by decide, hcut⟩

end Sample

end CircuitEquiv.R1csFile
