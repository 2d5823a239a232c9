-- SUMMARY: The grammar of integer texts, and that the reader accepts exactly the texts of the grammar with the integers they stand for.
import CircuitEquiv.Text.IntegerText
import Mathlib.Data.List.TakeWhile
import Mathlib.Data.Nat.Digits.Defs

/-!
# Integer texts

A grammar says which texts are integers and which integer each of them stands for. It leaves open how a
text is divided into blanks, sign, mark and digits; as neither blanks nor signs are digits there is one
way only, and the reader finds it.
-/

namespace CircuitEquiv

/-! ## Grammar -/

/-- Digits of a radix, the most significant one first. Underscores may follow the first digit. -/
structure IsNumeral (radix : Nat) (cs : List Char) (n : Nat) : Prop where
  ne_nil : cs ≠ []
  head_ne : cs.head? ≠ some '_'
  digits : ∃ ds : List Nat, (cs.filter (· ≠ '_')).map digitValue? = ds.map some ∧
    (∀ d ∈ ds, d < radix) ∧ n = Nat.ofDigits radix ds.reverse

/-- A decimal numeral, or a hexadecimal one behind a mark. -/
inductive IsMagnitude : List Char → Nat → Prop
  | decimal {cs : List Char} {n : Nat} (h : IsNumeral 10 cs n) : IsMagnitude cs n
  | hexadecimal {mark : Char} {cs : List Char} {n : Nat} (hmark : mark = 'x' ∨ mark = 'X')
      (h : IsNumeral 16 cs n) : IsMagnitude ('0' :: mark :: cs) n

/-- A magnitude, or a minus sign with a magnitude behind blanks. -/
inductive IsInteger : List Char → Int → Prop
  | plain {cs : List Char} {n : Nat} (h : IsMagnitude cs n) : IsInteger cs n
  | negative {blanks cs : List Char} {n : Nat} (hblanks : ∀ c ∈ blanks, isBlank c = true)
      (h : IsMagnitude cs n) : IsInteger ('-' :: (blanks ++ cs)) (-n)

/-- The text stands for the integer: blanks, an integer and blanks. -/
def WritesInteger (s : String) (i : Int) : Prop :=
  ∃ before body after, s.toList = before ++ (body ++ after) ∧ (∀ c ∈ before, isBlank c = true) ∧
    (∀ c ∈ after, isBlank c = true) ∧ IsInteger body i

/-! ## Digits -/

theorem digitValue?_of_isBlank {c : Char} (h : isBlank c = true) : digitValue? c = none := by
  have htoNat : ∀ d : Char, d ≤ c ↔ d.toNat ≤ c.toNat := fun d => Iff.rfl
  have htoNat' : ∀ d : Char, c ≤ d ↔ c.toNat ≤ d.toNat := fun d => Iff.rfl
  have hlow : c.toNat ≤ 32 ∨ 133 ≤ c.toNat := by
    simp only [isBlank, blankRanges, List.any_cons, List.any_nil, Bool.or_false, Bool.or_eq_true,
      Bool.and_eq_true, decide_eq_true_eq] at h
    omega
  have hdigit : c.isDigit = false := by
    rw [Bool.eq_false_iff, Ne, Char.isDigit_iff_toNat]
    have hzero : '0'.toNat = 48 := rfl
    have hnine : '9'.toNat = 57 := rfl
    omega
  have hlower : ¬ ('a' ≤ c ∧ c ≤ 'z') := by
    rw [htoNat, htoNat']
    have ha : 'a'.toNat = 97 := rfl
    have hz : 'z'.toNat = 122 := rfl
    omega
  have hupper : ¬ ('A' ≤ c ∧ c ≤ 'Z') := by
    rw [htoNat, htoNat']
    have ha : 'A'.toNat = 65 := rfl
    have hz : 'Z'.toNat = 90 := rfl
    omega
  rw [digitValue?, hdigit, if_neg Bool.false_ne_true, if_neg hlower, if_neg hupper]

theorem foldlM_appendDigit?_eq_some_iff {radix a n : Nat} {cs : List Char} :
    cs.foldlM (appendDigit? radix) a = some n ↔
      ∃ ds : List Nat, (cs.filter (· ≠ '_')).map digitValue? = ds.map some ∧ (∀ d ∈ ds, d < radix) ∧
        n = ds.foldl (fun a d => radix * a + d) a := by
  induction cs generalizing a with
  | nil =>
    show some a = some n ↔ _
    constructor
    · intro h
      exact ⟨[], rfl, by simp, (Option.some.inj h).symm⟩
    · rintro ⟨ds, hds, -, rfl⟩
      rw [List.map_eq_nil_iff.1 hds.symm]
      rfl
  | cons c rest ih =>
    rw [List.foldlM_cons, Option.bind_eq_bind, Option.bind_eq_some_iff]
    by_cases hc : c = '_'
    · have hskip : appendDigit? radix a c = some a := if_pos hc
      have hfilter : (c :: rest).filter (· ≠ '_') = rest.filter (· ≠ '_') := by simp [hc]
      rw [hskip, hfilter, ← ih]
      simp
    · have hfilter : (c :: rest).filter (· ≠ '_') = c :: rest.filter (· ≠ '_') := by simp [hc]
      rw [hfilter, List.map_cons]
      simp only [ih]
      constructor
      · rintro ⟨b, hb, ds, hds, hlt, rfl⟩
        rw [appendDigit?, if_neg hc] at hb
        cases hd : digitValue? c with
        | none => simp [hd] at hb
        | some d =>
          simp only [hd, Option.ite_none_right_eq_some, Option.some.injEq] at hb
          obtain ⟨hdlt, rfl⟩ := hb
          exact ⟨d :: ds, by rw [hds, List.map_cons], List.forall_mem_cons.2 ⟨hdlt, hlt⟩, rfl⟩
      · rintro ⟨ds, hds, hlt, rfl⟩
        cases ds with
        | nil => simp at hds
        | cons d ds =>
          obtain ⟨hd, hds⟩ := List.cons.inj hds
          obtain ⟨hdlt, hlt⟩ := List.forall_mem_cons.1 hlt
          refine ⟨radix * a + d, ?_, ds, hds, hlt, rfl⟩
          simp [appendDigit?, hc, hd, hdlt]

theorem readDigits?_eq_some_iff {radix n : Nat} {cs : List Char} :
    readDigits? radix cs = some n ↔ IsNumeral radix cs n := by
  have hvalue : ∀ ds : List Nat,
      Nat.ofDigits radix ds.reverse = ds.foldl (fun a d => radix * a + d) 0 := fun ds => by
    rw [Nat.ofDigits_eq_foldr, List.foldr_reverse]
    simp [Nat.add_comm]
  rw [readDigits?]
  split
  · rename_i hbad
    refine ⟨fun h => (by cases h), fun h => ?_⟩
    rcases hbad with hnil | hhead
    · exact absurd (List.isEmpty_iff.1 hnil) h.ne_nil
    · exact absurd hhead h.head_ne
  · rename_i hgood
    rw [not_or, List.isEmpty_iff] at hgood
    rw [foldlM_appendDigit?_eq_some_iff]
    constructor
    · rintro ⟨ds, hds, hlt, rfl⟩
      exact ⟨hgood.1, hgood.2, ds, hds, hlt, (hvalue ds).symm⟩
    · rintro ⟨-, -, ds, hds, hlt, rfl⟩
      exact ⟨ds, hds, hlt, hvalue ds⟩

/-- A character of a numeral is an underscore or a digit. -/
theorem IsNumeral.eq_or_digit {radix n : Nat} {cs : List Char} (h : IsNumeral radix cs n) {c : Char}
    (hc : c ∈ cs) : c = '_' ∨ ∃ d < radix, digitValue? c = some d := by
  obtain ⟨ds, hds, hlt, -⟩ := h.digits
  by_cases hunderscore : c = '_'
  · exact .inl hunderscore
  · have hmem : digitValue? c ∈ ds.map some :=
      hds ▸ List.mem_map_of_mem (List.mem_filter.2 ⟨hc, decide_eq_true hunderscore⟩)
    obtain ⟨d, hd, heq⟩ := List.mem_map.1 hmem
    exact .inr ⟨d, hlt d hd, heq.symm⟩

theorem IsNumeral.not_isBlank {radix n : Nat} {cs : List Char} (h : IsNumeral radix cs n) {c : Char}
    (hc : c ∈ cs) : isBlank c = false := by
  rcases h.eq_or_digit hc with rfl | ⟨d, -, hd⟩
  · decide
  · rw [Bool.eq_false_iff]
    intro hblank
    rw [digitValue?_of_isBlank hblank] at hd
    cases hd

/-! ## Magnitudes -/

/-- A mark is no decimal digit, so a marked numeral is not a decimal one. -/
theorem IsNumeral.not_marked {n : Nat} {mark : Char} {rest : List Char}
    (h : IsNumeral 10 ('0' :: mark :: rest) n) : ¬ (mark = 'x' ∨ mark = 'X') := by
  intro hmark
  rcases h.eq_or_digit (List.mem_cons_of_mem _ List.mem_cons_self) with heq | ⟨d, hlt, hd⟩
  · subst heq
    simp at hmark
  · have hvalue : digitValue? mark = some 33 := by
      rcases hmark with rfl | rfl <;> decide
    rw [hvalue, Option.some.injEq] at hd
    omega

theorem readMarkedDigits?_eq_some_iff {n : Nat} {cs : List Char} :
    readMarkedDigits? cs = some n ↔ IsMagnitude cs n := by
  constructor
  · intro h
    unfold readMarkedDigits? at h
    split at h
    · exact .hexadecimal (.inl rfl) (readDigits?_eq_some_iff.1 h)
    · exact .hexadecimal (.inr rfl) (readDigits?_eq_some_iff.1 h)
    · exact .decimal (readDigits?_eq_some_iff.1 h)
  · intro h
    cases h with
    | decimal h =>
      unfold readMarkedDigits?
      split
      · exact absurd (.inl rfl) h.not_marked
      · exact absurd (.inr rfl) h.not_marked
      · exact readDigits?_eq_some_iff.2 h
    | hexadecimal hmark h =>
      rcases hmark with rfl | rfl
      · exact readDigits?_eq_some_iff.2 h
      · exact readDigits?_eq_some_iff.2 h

theorem IsMagnitude.ne_nil {n : Nat} {cs : List Char} (h : IsMagnitude cs n) : cs ≠ [] := by
  cases h with
  | decimal h => exact h.ne_nil
  | hexadecimal => exact List.cons_ne_nil _ _

theorem IsMagnitude.not_isBlank {n : Nat} {cs : List Char} (h : IsMagnitude cs n) {c : Char}
    (hc : c ∈ cs) : isBlank c = false := by
  cases h with
  | decimal h => exact h.not_isBlank hc
  | hexadecimal hmark h =>
    rcases List.mem_cons.1 hc with rfl | hc
    · decide
    rcases List.mem_cons.1 hc with rfl | hc
    · rcases hmark with rfl | rfl <;> decide
    · exact h.not_isBlank hc

theorem IsMagnitude.head_ne_minus {n : Nat} {cs rest : List Char} (h : IsMagnitude cs n) :
    cs ≠ '-' :: rest := by
  rintro rfl
  cases h with
  | decimal h =>
    rcases h.eq_or_digit List.mem_cons_self with heq | ⟨d, -, hd⟩
    · exact absurd heq (by decide)
    · have hnone : digitValue? '-' = none := by decide
      rw [hnone] at hd
      cases hd

/-! ## Blanks around a text -/

/-- A text that is empty or starts with a character that is not blank. -/
def StartsDark (cs : List Char) : Prop := ∀ c ∈ cs.head?, isBlank c = false

theorem dropBlanks_of_startsDark {cs : List Char} (h : StartsDark cs) : dropBlanks cs = cs := by
  cases cs with
  | nil => rfl
  | cons c rest =>
    have hc : isBlank c = false := h c rfl
    rw [dropBlanks, List.dropWhile_cons, hc, if_neg Bool.false_ne_true]

theorem dropBlanks_append {blanks cs : List Char} (h : ∀ c ∈ blanks, isBlank c = true) :
    dropBlanks (blanks ++ cs) = dropBlanks cs := by
  rw [dropBlanks, List.dropWhile_append_of_pos h]
  rfl

theorem exists_eq_append_dropBlanks (cs : List Char) :
    ∃ blanks, cs = blanks ++ dropBlanks cs ∧ ∀ c ∈ blanks, isBlank c = true :=
  ⟨cs.takeWhile isBlank, List.takeWhile_append_dropWhile.symm, fun _ hc =>
    List.mem_takeWhile_imp hc⟩

theorem exists_dropBlanks_eq_append (cs : List Char) :
    ∃ after, dropBlanks cs = trimBlanks cs ++ after ∧ ∀ c ∈ after, isBlank c = true := by
  obtain ⟨after, hafter, hblank⟩ := exists_eq_append_dropBlanks (dropBlanks cs).reverse
  refine ⟨after.reverse, ?_, fun c hc => hblank c (List.mem_reverse.1 hc)⟩
  rw [trimBlanks, ← List.reverse_append, ← hafter, List.reverse_reverse]

/-- Trimming takes off blanks at both ends. -/
theorem exists_eq_append_trimBlanks (cs : List Char) :
    ∃ before after, cs = before ++ (trimBlanks cs ++ after) ∧ (∀ c ∈ before, isBlank c = true) ∧
      ∀ c ∈ after, isBlank c = true := by
  obtain ⟨before, hbefore, hblank⟩ := exists_eq_append_dropBlanks cs
  obtain ⟨after, hafter, hblank'⟩ := exists_dropBlanks_eq_append cs
  exact ⟨before, after, hafter ▸ hbefore, hblank, hblank'⟩

theorem dropBlanks_eq_nil {blanks : List Char} (h : ∀ c ∈ blanks, isBlank c = true) :
    dropBlanks blanks = [] :=
  List.dropWhile_eq_nil_iff.2 h

/-- Between blanks, a text without blanks at its ends is what trimming leaves. -/
theorem trimBlanks_append {before body after : List Char} (hbefore : ∀ c ∈ before, isBlank c = true)
    (hafter : ∀ c ∈ after, isBlank c = true) (hstart : StartsDark body)
    (hend : StartsDark body.reverse) : trimBlanks (before ++ (body ++ after)) = body := by
  have hfront : dropBlanks (body ++ after) = body ++ dropBlanks after ∨
      dropBlanks (body ++ after) = body ++ after := by
    cases body with
    | nil => exact .inl rfl
    | cons c rest => exact .inr (dropBlanks_of_startsDark hstart)
  have hback : ∀ blanks, (∀ c ∈ blanks, isBlank c = true) →
      (dropBlanks (body ++ blanks).reverse).reverse = body := fun blanks hblanks => by
    rw [List.reverse_append, dropBlanks_append fun c hc => hblanks c (List.mem_reverse.1 hc),
      dropBlanks_of_startsDark hend, List.reverse_reverse]
  rw [trimBlanks, dropBlanks_append hbefore]
  rcases hfront with hfront | hfront
  · rw [hfront, dropBlanks_eq_nil hafter]
    exact hback [] fun c hc => absurd hc List.not_mem_nil
  · rw [hfront]
    exact hback after hafter

theorem IsMagnitude.startsDark {n : Nat} {cs : List Char} (h : IsMagnitude cs n) : StartsDark cs :=
  fun _ hc => h.not_isBlank (List.mem_of_mem_head? hc)

theorem IsMagnitude.endsDark {n : Nat} {cs : List Char} (h : IsMagnitude cs n) :
    StartsDark cs.reverse :=
  fun _ hc => h.not_isBlank (List.mem_reverse.1 (List.mem_of_mem_head? hc))

/-! ## Integers -/

/-- Without the blanks around it, a text is read when it is an integer. -/
theorem readInteger?_eq_some_iff_of_trimBlanks {s : String} {i : Int} {cs : List Char}
    (hs : trimBlanks s.toList = cs) : readInteger? s = some i ↔ IsInteger cs i := by
  rw [readInteger?, hs]
  constructor
  · intro h
    split at h
    · rename_i rest
      obtain ⟨n, hn, rfl⟩ : ∃ n, readMarkedDigits? (dropBlanks rest) = some n ∧ -(n : Int) = i := by
        simpa [Option.bind_eq_some_iff] using h
      obtain ⟨blanks, hrest, hblanks⟩ := exists_eq_append_dropBlanks rest
      rw [hrest]
      exact .negative hblanks (readMarkedDigits?_eq_some_iff.1 hn)
    · obtain ⟨n, hn, rfl⟩ : ∃ n, readMarkedDigits? cs = some n ∧ (n : Int) = i := by
        simpa [Option.bind_eq_some_iff] using h
      exact .plain (readMarkedDigits?_eq_some_iff.1 hn)
  · intro h
    cases h with
    | plain h =>
      split
      · exact absurd rfl h.head_ne_minus
      · simp [readMarkedDigits?_eq_some_iff.2 h]
    | negative hblanks h =>
      simp [dropBlanks_append hblanks, dropBlanks_of_startsDark h.startsDark,
        readMarkedDigits?_eq_some_iff.2 h]

/-- The reader accepts the texts of the grammar, with the integers that they stand for. -/
theorem readInteger?_eq_some_iff {s : String} {i : Int} :
    readInteger? s = some i ↔ WritesInteger s i := by
  rw [readInteger?_eq_some_iff_of_trimBlanks rfl]
  constructor
  · intro h
    obtain ⟨before, after, heq, hbefore, hafter⟩ := exists_eq_append_trimBlanks s.toList
    exact ⟨before, _, after, heq, hbefore, hafter, h⟩
  · rintro ⟨before, body, after, heq, hbefore, hafter, h⟩
    have hdark : StartsDark body ∧ StartsDark body.reverse := by
      cases h with
      | plain h => exact ⟨h.startsDark, h.endsDark⟩
      | @negative blanks cs n hblanks h =>
        refine ⟨fun c hc => ?_, fun c hc => h.endsDark c ?_⟩
        · obtain rfl : '-' = c := Option.some.inj hc
          decide
        · obtain ⟨last, rest, hrest⟩ := List.exists_cons_of_ne_nil (List.reverse_ne_nil_iff.2 h.ne_nil)
          rw [List.reverse_cons, List.reverse_append, hrest] at hc
          rw [hrest]
          exact hc
    rw [heq, trimBlanks_append hbefore hafter hdark.1 hdark.2]
    exact h

end CircuitEquiv
