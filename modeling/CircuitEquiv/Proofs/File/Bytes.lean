-- SUMMARY: Byte buffers: what a write appends and a read takes, that failures change nothing, which numbers fit, and that items are read back.
import CircuitEquiv.File.Bytes
import Mathlib.Algebra.Group.Nat.Defs
import Mathlib.Data.List.Basic

/-!
# Byte buffers

Every write checks its value and the room in the buffer before it appends anything, and every read checks
that there are enough bytes before it takes any. So a write appends all bytes of its value or none, a read
takes all of them or none, and reading takes off what writing appended.

An item is a value with the type that it is written as: a word, bytes, or a number of fixed width. Items are
written into one buffer one after the other, going on behind a failure. The buffer then holds the bytes of
the items that were written and nothing else, so reads of the same kinds in the same order return them and
take all bytes.
-/

namespace CircuitEquiv

/-! ## Numbers as bytes -/

@[simp]
theorem length_littleEndian (width n : Nat) : (littleEndian width n).length = width := by
  induction width generalizing n with
  | zero => rfl
  | succ width ih => rw [littleEndian, List.length_cons, ih]

theorem ofLittleEndian_littleEndian {width n : Nat} (h : n < 256 ^ width) :
    ofLittleEndian (littleEndian width n) = n := by
  induction width generalizing n with
  | zero => exact (Nat.lt_one_iff.1 h).symm
  | succ width ih =>
    have hrest : n / 256 < 256 ^ width := Nat.div_lt_of_lt_mul (by rwa [← Nat.pow_succ'])
    have hlow : (UInt8.ofNat (n % 256)).toNat = n % 256 :=
      UInt8.toNat_ofNat_of_lt' (Nat.mod_lt n (by decide))
    rw [littleEndian, ofLittleEndian, ih hrest, hlow, Nat.mod_add_div]

theorem littleEndian_ofLittleEndian (x : List UInt8) : littleEndian x.length (ofLittleEndian x) = x := by
  induction x with
  | nil => rfl
  | cons b rest ih =>
    have hlow : (b.toNat + 256 * ofLittleEndian rest) % 256 = b.toNat := by
      rw [Nat.add_mul_mod_self_left, Nat.mod_eq_of_lt b.toNat_lt]
    have hhigh : (b.toNat + 256 * ofLittleEndian rest) / 256 = ofLittleEndian rest := by
      rw [Nat.add_mul_div_left _ _ (by decide), Nat.div_eq_of_lt b.toNat_lt, Nat.zero_add]
    rw [ofLittleEndian, List.length_cons, littleEndian, hlow, hhigh, ih, UInt8.ofNat_toNat]

theorem ofLittleEndian_lt (x : List UInt8) : ofLittleEndian x < 256 ^ x.length := by
  induction x with
  | nil => exact Nat.one_pos
  | cons b rest ih =>
    have hb : b.toNat < 256 := b.toNat_lt
    rw [ofLittleEndian, List.length_cons, Nat.pow_succ]
    omega

/-- A number takes no more bytes than the exponent of a power of 256 that exceeds it; no number takes no
bytes at all. -/
theorem byteWidth_le_iff {n width : Nat} : byteWidth n ≤ width ↔ 0 < width ∧ n < 256 ^ width := by
  induction n using byteWidth.induct generalizing width with
  | case1 n hsmall =>
    rw [byteWidth, if_pos hsmall]
    refine ⟨fun hwidth => ⟨hwidth, ?_⟩, fun h => h.1⟩
    calc n < 256 ^ 1 := hsmall
      _ ≤ 256 ^ width := Nat.pow_le_pow_right (by decide) hwidth
  | case2 n hlarge ih =>
    rw [byteWidth, if_neg hlarge]
    cases width with
    | zero => simp
    | succ width =>
      have hdiv : n < 256 ^ (width + 1) ↔ n / 256 < 256 ^ width := by
        rw [Nat.pow_succ, Nat.div_lt_iff_lt_mul (by decide)]
      rw [Nat.add_le_add_iff_right, ih, hdiv]
      refine ⟨fun h => ⟨Nat.succ_pos _, h.2⟩, fun h => ⟨Nat.pos_of_ne_zero ?_, h.2⟩⟩
      -- one byte would hold a number below 256 only
      rintro rfl
      have hlow : n / 256 < 1 := h.2
      omega

/-! ## Buffers -/

namespace ByteWriter

variable {w : ByteWriter}

@[simp]
theorem append_nil (w : ByteWriter) : w.append [] = w := by
  simp [append]

@[simp]
theorem append_append (w : ByteWriter) (x y : List UInt8) :
    (w.append x).append y = w.append (x ++ y) := by
  simp [append]

end ByteWriter

namespace ByteWrite

theorem run_bytes (x : List UInt8) (w : ByteWriter) :
    (bytes x).run w = if w.hasRoom x.length then .ok () (w.append x) else .error .bufferFull w := by
  rw [bytes, requireRoom]
  by_cases hroom : w.hasRoom x.length = true <;> simp [hroom]

theorem run_nat (n width : Nat) (w : ByteWriter) :
    (nat n width).run w = if byteWidth n ≤ width then (bytes (littleEndian width n)).run w
      else .error (.tooWide "BigUint") w := by
  rw [nat]
  by_cases hwidth : byteWidth n ≤ width
  · rw [if_neg (Nat.not_lt.2 hwidth), if_pos hwidth]
  · rw [if_pos (Nat.not_le.1 hwidth), if_neg hwidth, EStateM.run_throw]

end ByteWrite

namespace ByteRead

section Map

variable {α β : Type} {read : ByteRead α} {unread rest : List UInt8}

theorem run_bind_pure_of_ok {a : α} (h : read.run unread = .ok a rest) (f : α → β) :
    (read >>= fun a => pure (f a)).run unread = .ok (f a) rest := by
  rw [EStateM.run_bind, h]
  rfl

theorem run_bind_pure_of_error {e : BytesError} (h : read.run unread = .error e rest) (f : α → β) :
    (read >>= fun a => pure (f a)).run unread = .error e rest := by
  rw [EStateM.run_bind, h]

end Map

theorem run_requireData (n : Nat) (unread : List UInt8) : (requireData n).run unread =
    if n ≤ unread.length then .ok () unread else .error .notEnough unread := by
  have htake : (unread.take n).length = n ↔ n ≤ unread.length := by
    rw [List.length_take]
    omega
  rw [requireData, EStateM.run_bind, EStateM.run_get]
  simp only [htake]
  split <;> rfl

theorem run_bytes (n : Nat) (unread : List UInt8) : (bytes n).run unread =
    if n ≤ unread.length then .ok (unread.take n) (unread.drop n) else .error .notEnough unread := by
  rw [bytes, EStateM.run_bind, run_requireData]
  by_cases hlength : n ≤ unread.length <;> simp [hlength]

theorem run_bytes_append (x rest : List UInt8) : (bytes x.length).run (x ++ rest) = .ok x rest := by
  simp [run_bytes]

theorem run_bytes_of_length_lt {n : Nat} {unread : List UInt8} (h : unread.length < n) :
    (bytes n).run unread = .error .notEnough unread := by
  rw [run_bytes, if_neg (Nat.not_le.2 h)]

theorem run_nat (width : Nat) (unread : List UInt8) : (nat width).run unread =
    if width ≤ unread.length then .ok (ofLittleEndian (unread.take width)) (unread.drop width)
    else .error .notEnough unread := by
  have hbytes := run_bytes width unread
  split
  · rename_i hlength
    exact run_bind_pure_of_ok (hbytes.trans (if_pos hlength)) ofLittleEndian
  · rename_i hlength
    exact run_bind_pure_of_error (hbytes.trans (if_neg hlength)) ofLittleEndian

theorem run_nat_append {width n : Nat} (h : n < 256 ^ width) (rest : List UInt8) :
    (nat width).run (littleEndian width n ++ rest) = .ok n rest := by
  have htake : (littleEndian width n ++ rest).take width = littleEndian width n :=
    List.take_left' (length_littleEndian width n)
  have hdrop : (littleEndian width n ++ rest).drop width = rest :=
    List.drop_left' (length_littleEndian width n)
  rw [run_nat, if_pos (by simp), htake, hdrop, ofLittleEndian_littleEndian h]

end ByteRead

/-! ## Numbers of fixed width -/

/-- With room for them, a number is written as exactly `width` bytes if it is less than 256 to that power
and if there is a byte at all. Bytes that are read as a number, one at least, are what it is written as. -/
theorem ByteWrite.nat_fits_exactly {w : ByteWriter} {width : Nat} (hroom : w.hasRoom width = true) :
    (∀ n, (∃ w', (nat n width).run w = .ok () w') ↔ 0 < width ∧ n < 256 ^ width) ∧
    ∀ x : List UInt8, x.length = width → 0 < width →
      ∃ n, (ByteRead.nat width).run x = .ok n [] ∧ (nat n width).run w = .ok () (w.append x) := by
  have hfits : ∀ n, 0 < width ∧ n < 256 ^ width →
      (nat n width).run w = .ok () (w.append (littleEndian width n)) := fun n h => by
    rw [run_nat, if_pos (byteWidth_le_iff.2 h), run_bytes, length_littleEndian, if_pos hroom]
  refine ⟨fun n => ⟨fun hwritten => ?_, fun h => ⟨_, hfits n h⟩⟩, fun x hx hpos => ?_⟩
  · obtain ⟨w', hw'⟩ := hwritten
    rw [run_nat] at hw'
    split at hw'
    · rename_i hwidth
      exact byteWidth_le_iff.1 hwidth
    · cases hw'
  · subst hx
    refine ⟨ofLittleEndian x, ?_, ?_⟩
    · simp [ByteRead.run_nat]
    · rw [hfits _ ⟨hpos, ofLittleEndian_lt x⟩, littleEndian_ofLittleEndian]

/-- The greatest number of two bytes fits, the next one does not, and two bytes are read and written. -/
theorem ByteWrite.nat_fits_exactly_two : (ByteWriter.mk [7] (some 3)).hasRoom 2 = true ∧
    (∃ w, (nat 65535 2).run ⟨[7], some 3⟩ = .ok () w) ∧
    (¬ ∃ w, (nat 65536 2).run ⟨[7], some 3⟩ = .ok () w) ∧
    ∃ n, (ByteRead.nat 2).run [3, 0] = .ok n [] ∧
      (nat n 2).run ⟨[7], some 3⟩ = .ok () ⟨[7, 3, 0], some 3⟩ := by
  have hroom : (ByteWriter.mk [7] (some 3)).hasRoom 2 = true := by decide
  obtain ⟨hfits, hread⟩ := nat_fits_exactly hroom
  exact ⟨hroom, (hfits 65535).2 (by decide), fun h => absurd ((hfits 65536).1 h).2 (by decide),
    hread [3, 0] rfl (by decide)⟩

/-- Zero is less than 256 to the power of zero, and is not written as no bytes. -/
theorem ByteWrite.zero_not_written_as_nil :
    ¬ ∀ (w : ByteWriter) (n width : Nat), w.hasRoom width = true →
      ((∃ w', (nat n width).run w = .ok () w') ↔ n < 256 ^ width) := by
  intro h
  obtain ⟨w', hw'⟩ := (h ⟨[], none⟩ 0 0 rfl).2 Nat.one_pos
  rw [run_nat, if_neg (by simp [byteWidth])] at hw'
  cases hw'

/-! ## Items -/

/-- A value with the type that it is written as. -/
inductive ByteItem where
  | u32 (n : UInt32)
  | u64 (n : UInt64)
  | bytes (x : List UInt8)
  | nat (n width : Nat)
deriving DecidableEq

/-- The type of an item. -/
inductive ByteKind where
  | u32
  | u64
  | bytes (count : Nat)
  | nat (width : Nat)
deriving DecidableEq

namespace ByteKind

/-- The number of bytes of an item. -/
def width : ByteKind → Nat
  | u32 => 4
  | u64 => 8
  | bytes count => count
  | nat width => width

/-- The item that bytes stand for. -/
def decode : ByteKind → List UInt8 → ByteItem
  | u32, x => .u32 (.ofNat (ofLittleEndian x))
  | u64, x => .u64 (.ofNat (ofLittleEndian x))
  | bytes _, x => .bytes x
  | nat width, x => .nat (ofLittleEndian x) width

/-- Reads an item. -/
def read : ByteKind → ByteRead ByteItem
  | u32 => do return .u32 (.ofNat (← ByteRead.u32))
  | u64 => do return .u64 (.ofNat (← ByteRead.u64))
  | bytes count => do return .bytes (← ByteRead.bytes count)
  | nat width => do return .nat (← ByteRead.nat width) width

end ByteKind

namespace ByteItem

def kind : ByteItem → ByteKind
  | u32 _ => .u32
  | u64 _ => .u64
  | bytes x => .bytes x.length
  | nat _ width => .nat width

/-- Writes an item. -/
def write : ByteItem → ByteWrite
  | u32 n => ByteWrite.u32 n
  | u64 n => ByteWrite.u64 n
  | bytes x => ByteWrite.bytes x
  | nat n width => ByteWrite.nat n width

/-- The bytes that stand for an item. -/
def encode : ByteItem → List UInt8
  | u32 n => littleEndian 4 n.toNat
  | u64 n => littleEndian 8 n.toNat
  | bytes x => x
  | nat n width => littleEndian width n

/-- The value has room in the bytes of its type. -/
def Fits : ByteItem → Prop
  | nat n width => 0 < width ∧ n < 256 ^ width
  | _ => True

/-- Writes items one after the other, and tells which of them were written. -/
def writeAll : List ByteItem → ByteWriter → List ByteItem × ByteWriter
  | [], w => ([], w)
  | i :: rest, w =>
    match i.write.run w with
    | .ok _ w => (i :: (writeAll rest w).1, (writeAll rest w).2)
    | .error _ w => writeAll rest w

variable {i : ByteItem} {w : ByteWriter}

/-! ## One item -/

@[simp]
theorem length_encode (i : ByteItem) : i.encode.length = i.kind.width := by
  cases i <;> simp [encode, kind, ByteKind.width]

/-- An item that fits is written as its bytes. -/
theorem write_eq (h : i.Fits) : i.write = ByteWrite.bytes i.encode := by
  cases i with
  | u32 n => rfl
  | u64 n => rfl
  | bytes x => rfl
  | nat n width =>
    have hwidth : byteWidth n ≤ width := byteWidth_le_iff.2 h
    rw [write, ByteWrite.nat, if_neg (Nat.not_lt.2 hwidth), encode]

/-- An item that does not fit is refused. -/
theorem run_write_of_not_fits (h : ¬ i.Fits) (w : ByteWriter) : ∃ e, i.write.run w = .error e w := by
  cases i with
  | u32 n => exact absurd trivial h
  | u64 n => exact absurd trivial h
  | bytes x => exact absurd trivial h
  | nat n width =>
    have hwidth : ¬ byteWidth n ≤ width := fun hle => h (byteWidth_le_iff.1 hle)
    exact ⟨_, (ByteWrite.run_nat n width w).trans (if_neg hwidth)⟩

/-- A write appends all bytes of its item, if the item fits and the buffer has room, or it leaves the
buffer as it was. -/
theorem write_cases (i : ByteItem) (w : ByteWriter) :
    (i.Fits ∧ w.hasRoom i.kind.width = true ∧ i.write.run w = .ok () (w.append i.encode)) ∨
    (¬ (i.Fits ∧ w.hasRoom i.kind.width = true) ∧ ∃ e, i.write.run w = .error e w) := by
  by_cases hfits : i.Fits
  · have hrun := ByteWrite.run_bytes i.encode w
    rw [length_encode] at hrun
    rw [write_eq hfits]
    by_cases hroom : w.hasRoom i.kind.width = true
    · exact .inl ⟨hfits, hroom, hrun.trans (if_pos hroom)⟩
    · exact .inr ⟨fun h => hroom h.2, _, hrun.trans (if_neg hroom)⟩
  · exact .inr ⟨fun h => hfits h.1, run_write_of_not_fits hfits w⟩

/-- The bytes of an item that fits stand for it. -/
theorem decode_encode (h : i.Fits) : i.kind.decode i.encode = i := by
  cases i with
  | u32 n =>
    have hvalue : ofLittleEndian (littleEndian 4 n.toNat) = n.toNat := ofLittleEndian_littleEndian n.toNat_lt
    rw [kind, encode, ByteKind.decode, hvalue, UInt32.ofNat_toNat]
  | u64 n =>
    have hvalue : ofLittleEndian (littleEndian 8 n.toNat) = n.toNat := ofLittleEndian_littleEndian n.toNat_lt
    rw [kind, encode, ByteKind.decode, hvalue, UInt64.ofNat_toNat]
  | bytes x => rfl
  | nat n width => rw [kind, encode, ByteKind.decode, ofLittleEndian_littleEndian h.2]

/-- A read takes the bytes of its kind and decodes them, or it lacks bytes and takes none. -/
theorem run_read (k : ByteKind) (unread : List UInt8) : k.read.run unread =
    if k.width ≤ unread.length then .ok (k.decode (unread.take k.width)) (unread.drop k.width)
    else .error .notEnough unread := by
  have heq : k.read = ByteRead.bytes k.width >>= fun x => pure (k.decode x) := by
    cases k <;> simp [ByteKind.read, ByteRead.u32, ByteRead.u64, ByteRead.nat, ByteKind.width, ByteKind.decode]
  have hbytes := ByteRead.run_bytes k.width unread
  rw [heq]
  split
  · rename_i hlength
    exact ByteRead.run_bind_pure_of_ok (hbytes.trans (if_pos hlength)) _
  · rename_i hlength
    exact ByteRead.run_bind_pure_of_error (hbytes.trans (if_neg hlength)) _

/-- The bytes of an item are read as the item. -/
theorem run_read_encode (h : i.Fits) (rest : List UInt8) :
    i.kind.read.run (i.encode ++ rest) = .ok i rest := by
  have htake : (i.encode ++ rest).take i.kind.width = i.encode := List.take_left' i.length_encode
  have hdrop : (i.encode ++ rest).drop i.kind.width = rest := List.drop_left' i.length_encode
  rw [run_read, if_pos (by simp), htake, hdrop, decode_encode h]

/-! ## Sequences of items -/

/-- After a sequence of writes, the buffer has the bytes of the items that were written behind the ones
from before, and these items fit. -/
theorem writeAll_spec (items : List ByteItem) (w : ByteWriter) :
    (writeAll items w).2 = w.append ((writeAll items w).1.flatMap encode) ∧
      ∀ i ∈ (writeAll items w).1, i.Fits := by
  induction items generalizing w with
  | nil => simp [writeAll]
  | cons i rest ih =>
    rcases write_cases i w with ⟨hfits, -, hrun⟩ | ⟨-, e, hrun⟩
    · obtain ⟨hbuffer, hall⟩ := ih (w.append i.encode)
      simp only [writeAll, hrun]
      exact ⟨by rw [hbuffer, ByteWriter.append_append, List.flatMap_cons],
        List.forall_mem_cons.2 ⟨hfits, hall⟩⟩
    · simp only [writeAll, hrun]
      exact ih w

/-- The bytes of a sequence of items are read as the items. -/
theorem run_mapM_read {items : List ByteItem} (h : ∀ i ∈ items, i.Fits) (rest : List UInt8) :
    ((items.map kind).mapM ByteKind.read).run (items.flatMap encode ++ rest) = .ok items rest := by
  induction items with
  | nil => rfl
  | cons i tail ih =>
    obtain ⟨hfits, htail⟩ := List.forall_mem_cons.1 h
    rw [List.map_cons, List.mapM_cons, List.flatMap_cons, List.append_assoc, EStateM.run_bind,
      run_read_encode hfits]
    exact ByteRead.run_bind_pure_of_ok (ih htail) (i :: ·)

/-- A write succeeds exactly if its item fits and the buffer has room; it then appends exactly the bytes of
the item's width, and else leaves the buffer as it was. After a sequence of writes into a buffer of any
capacity, failing ones among them, reads of the kinds of the items that were written return these items and
take all bytes. A read that fails takes nothing. -/
theorem writes_read_back :
    (∀ (i : ByteItem) (w : ByteWriter),
      ((∃ w', i.write.run w = .ok () w') ↔ i.Fits ∧ w.hasRoom i.kind.width = true) ∧
      (∀ w', i.write.run w = .ok () w' → ∃ x, x.length = i.kind.width ∧ w' = w.append x) ∧
      ∀ e w', i.write.run w = .error e w' → w' = w) ∧
    (∀ (capacity : Option Nat) (items : List ByteItem),
      (((writeAll items ⟨[], capacity⟩).1.map kind).mapM ByteKind.read).run
        (writeAll items ⟨[], capacity⟩).2.written = .ok (writeAll items ⟨[], capacity⟩).1 []) ∧
    ∀ (k : ByteKind) (unread : List UInt8) (e : BytesError) (rest : List UInt8),
      k.read.run unread = .error e rest → rest = unread := by
  refine ⟨fun i w => ?_, fun capacity items => ?_, fun k unread e rest hread => ?_⟩
  · rcases write_cases i w with ⟨hfits, hroom, hrun⟩ | ⟨hnot, e, hrun⟩
    · rw [hrun]
      refine ⟨⟨fun _ => ⟨hfits, hroom⟩, fun _ => ⟨_, rfl⟩⟩, fun w' hw' => ?_, fun e w' hw' => ?_⟩
      · cases hw'
        exact ⟨i.encode, i.length_encode, rfl⟩
      · cases hw'
    · rw [hrun]
      refine ⟨⟨fun ⟨w', hw'⟩ => ?_, fun h => absurd h hnot⟩, fun w' hw' => ?_, fun e w' hw' => ?_⟩
      · cases hw'
      · cases hw'
      · cases hw'
        rfl
  · obtain ⟨hbuffer, hfits⟩ := writeAll_spec items ⟨[], capacity⟩
    have hread := run_mapM_read hfits []
    rw [List.append_nil] at hread
    rw [hbuffer]
    exact hread
  · rw [run_read] at hread
    split at hread
    · cases hread
    · cases hread
      rfl

namespace Sample

/-- A number that is too wide and a word that does not fit behind the first one, between items that do. -/
def items : List ByteItem := [.u32 7, .nat 256 1, .u64 9, .bytes [1, 2, 3, 4], .nat 0 3]

/-- Three of the items are written into eleven bytes and read back. The word that does not fit leaves the
bytes before it, and reading a word from three bytes leaves them. -/
theorem writes_read_back_eleven :
    writeAll items ⟨[], some 11⟩ = ([.u32 7, .bytes [1, 2, 3, 4], .nat 0 3],
      ⟨[7, 0, 0, 0, 1, 2, 3, 4, 0, 0, 0], some 11⟩) ∧
    ([ByteKind.u32, .bytes 4, .nat 3].mapM ByteKind.read).run [7, 0, 0, 0, 1, 2, 3, 4, 0, 0, 0] =
      .ok [.u32 7, .bytes [1, 2, 3, 4], .nat 0 3] [] ∧
    (∀ e w, (u64 9).write.run ⟨[7, 0, 0, 0], some 11⟩ = .error e w → w.written = [7, 0, 0, 0]) ∧
    ∀ e rest, ByteKind.u64.read.run [1, 2, 3] = .error e rest → rest = [1, 2, 3] := by
  have hwritten : writeAll items ⟨[], some 11⟩ = ([.u32 7, .bytes [1, 2, 3, 4], .nat 0 3],
      ⟨[7, 0, 0, 0, 1, 2, 3, 4, 0, 0, 0], some 11⟩) := by
    decide +kernel
  obtain ⟨hwrite, hread, hlack⟩ := writes_read_back
  have hback := hread (some 11) items
  rw [hwritten] at hback
  refine ⟨hwritten, hback, fun e w he => ?_, hlack .u64 [1, 2, 3]⟩
  rw [(hwrite _ _).2.2 e w he]

end Sample

end ByteItem

end CircuitEquiv
