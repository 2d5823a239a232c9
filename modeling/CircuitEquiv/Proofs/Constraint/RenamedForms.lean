-- SUMMARY: The normal forms of a constraint renamed under a check, with their shapes and the parts that signals play.
import CircuitEquiv.Proofs.Constraint.Matching
import CircuitEquiv.Proofs.Constraint.Shape

/-!
# Normal forms of renamed constraints

A map of signals is checked before a constraint is renamed: it has to keep the signals that occur apart
and off the constant one. Some renaming of all signals agrees with it there. So the normal forms of the
renamed constraint are those of the original one, renamed. The order of the factors depends on the
numbers of the signals only where their coefficients do not tell them apart, and there neither shapes nor
the parts that signals play depend on the order.
-/

namespace CircuitEquiv

variable {f g : Signal → Signal}

/-! ## Constraints that a map carries onto others -/

/-- The renamed constraint is the other one, or that one with its factors exchanged if their
coefficients do not tell them apart. -/
def R1csConstraint.IsCarriedOnto (f : Signal → Signal) (l r : R1csConstraint) : Prop :=
  l.rename f = r ∨ l.isUnordered = true ∧ l.rename f = r.exchanged

/-- The renamed constraint is the other one, up to the order of factors that cannot be told apart. -/
def Constraint.IsCarriedOnto (f : Signal → Signal) : Constraint → Constraint → Prop
  | .r1cs l, .r1cs r => l.IsCarriedOnto f r
  | .acir l, .acir r => l.rename f = r
  | _, _ => False

/-- Normal forms are carried onto each other where renaming makes them equal. -/
theorem R1csConstraint.isCarriedOnto_iff_renameNormal_eq {l r : R1csConstraint} (hf : IsRenaming f)
    (hl : ofFactors l.a l.b l.c = l) (hr : ofFactors r.a r.b r.c = r) :
    l.IsCarriedOnto f r ↔ l.renameNormal f = r := by
  constructor
  · rintro (h | ⟨-, h⟩)
    · exact (congrArg (fun x : R1csConstraint => ofFactors x.a x.b x.c) h).trans hr
    · exact (congrArg (fun x : R1csConstraint => ofFactors x.a x.b x.c) h).trans
        ((ofFactors_comm _ _ _).trans hr)
  · rintro rfl
    cases hu : l.isUnordered with
    | false => exact Or.inl (renameNormal_of_not_isUnordered hf hl hu).symm
    | true =>
      rcases l.renameNormal_eq_or f with h | h
      · exact Or.inl h.symm
      · exact Or.inr ⟨hu, by rw [h]; rfl⟩

theorem R1csConstraint.IsCarriedOnto.congr {l r : R1csConstraint} (h : l.IsCarriedOnto f r)
    (hagree : ∀ s ∈ l.signals, f s = g s) (h0 : f constantSignal = g constantSignal) :
    l.IsCarriedOnto g r := by
  unfold IsCarriedOnto at h ⊢
  rwa [← rename_congr hagree h0]

namespace Constraint

variable {c d m n : Constraint}

/-- Only the values on the signals of the left constraint and on the constant one matter. -/
theorem IsCarriedOnto.congr (h : m.IsCarriedOnto f n) (hagree : ∀ s ∈ m.signals, f s = g s)
    (h0 : f constantSignal = g constantSignal) : m.IsCarriedOnto g n := by
  cases m with
  | r1cs l =>
    cases n with
    | r1cs r => exact R1csConstraint.IsCarriedOnto.congr h hagree h0
    | acir r => exact h.elim
  | acir l =>
    cases n with
    | r1cs r => exact h.elim
    | acir r => exact (AcirConstraint.rename_congr hagree).symm.trans h

variable {F : PrimeField} [Fact F.modulus.Prime]

theorem isCarriedOnto_iff_renameNormal_eq (hf : IsRenaming f) (hc : c.IsReduced F)
    (hm : m ∈ c.normalize F) (hd : d.IsReduced F) (hn : n ∈ d.normalize F) :
    m.IsCarriedOnto f n ↔ m.renameNormal f = n := by
  have hcanonical : ∀ {c m : Constraint} {l : R1csConstraint}, c.IsReduced F → m ∈ c.normalize F →
      m = .r1cs l → R1csConstraint.ofFactors l.a l.b l.c = l := by
    rintro (c | c) _ l hc hm rfl
    · obtain ⟨l', hl', heq⟩ := List.mem_map.1 hm
      cases heq
      exact R1csConstraint.ofFactors_of_mem_normalize hc hl'
    · cases dialect_of_mem_normalize hm
  cases m with
  | r1cs l =>
    cases n with
    | r1cs r =>
      refine (R1csConstraint.isCarriedOnto_iff_renameNormal_eq hf (hcanonical hc hm rfl)
        (hcanonical hd hn rfl)).trans ?_
      exact (r1cs.injEq _ _).symm ▸ Iff.rfl
    | acir r => exact ⟨fun h => h.elim, fun h => by cases h⟩
  | acir l =>
    cases n with
    | r1cs r => exact ⟨fun h => h.elim, fun h => by cases h⟩
    | acir r => exact (acir.injEq _ _).symm ▸ Iff.rfl

/-! ## Checked renaming -/

/-- The map of signals with the constant signal kept in place. -/
def keepConstant (f : Signal → Signal) (s : Signal) : Signal :=
  if s = constantSignal then constantSignal else f s

omit [Fact F.modulus.Prime] in
/-- Behind a renamed constraint stands a renaming of all signals. -/
theorem exists_isRenaming_of_signalMap (hc : c.IsReduced F) (h : c.signalMap f = .ok d) :
    ∃ g, IsRenaming g ∧ (∀ s ∈ c.signals, g s = f s) ∧ d = c.rename g := by
  obtain ⟨hne, hinj, -⟩ := signalMap_eq_ok_iff.1 h
  have hne' : ∀ s ∈ c.signals, s ≠ constantSignal := fun s hs => hc.ne_constant_of_mem_signals hs
  obtain ⟨g, hg, hagree⟩ :=
    exists_isRenaming_of_injOn c.finite_signals (fun h0 => hne' _ h0 rfl) hne hinj
  rw [signalMap_of_agree hg hne' fun s hs => (hagree s hs).symm] at h
  exact ⟨g, hg, hagree, (Except.ok.inj h).symm⟩

theorem signals_of_mem_normalize (hc : c.IsReduced F) (hn : n ∈ c.normalize F) :
    n.signals = c.signals :=
  signals_of_isRescaling (isRescaling_of_mem_normalize hc.coefficients hn)

/-- Renaming maps the normal forms one to one onto those of the renamed constraint. -/
theorem bijOn_renameNormal (hc : c.IsReduced F) (hf : IsRenaming f) :
    Set.BijOn (·.renameNormal f) {n | n ∈ c.normalize F} {m | m ∈ (c.rename f).normalize F} := by
  obtain ⟨g, hg⟩ := hf.exists_leftInverse
  refine ⟨fun n hn => (mem_normalize_rename hc hf).2 ⟨n, hn, rfl⟩, fun m hm n hn heq => ?_,
    fun m hm => ?_⟩
  · rw [← renameNormal_renameNormal hc hm hg, ← renameNormal_renameNormal hc hn hg]
    exact congrArg (renameNormal · g) heq
  · obtain ⟨n, hn, rfl⟩ := (mem_normalize_rename hc hf).1 hm
    exact ⟨n, hn, rfl⟩

/-- The checked renaming of a reduced constraint, such as one built from terms, succeeds exactly if the
map keeps the signals that occur apart and off the constant one. Then the normal forms of the result
correspond one to one to the renamed normal forms of the constraint, up to the order of factors that
cannot be told apart. Corresponding ones have the same shape under every labelling, and each signal
plays the same part in the one as its image does in the other. -/
theorem normalForms_signalMap (hc : c.IsReduced F) (f : Signal → Signal) :
    ((∃ d, c.signalMap f = .ok d) ↔
        Set.InjOn f {s | s ∈ c.signals} ∧ ∀ s ∈ c.signals, f s ≠ constantSignal) ∧
      ∀ d, c.signalMap f = .ok d →
        ∃ image : Constraint → Constraint,
          Set.BijOn image {n | n ∈ c.normalize F} {m | m ∈ d.normalize F} ∧
            ∀ n ∈ c.normalize F, n.IsCarriedOnto (keepConstant f) (image n) ∧
              ∀ labels : Signal → ClassLabel,
                (image n).shape labels = n.shape (labels ∘ keepConstant f) ∧
                  ∀ s ∈ c.signals, (image n).characteristic (f s) labels =
                    n.characteristic s (labels ∘ keepConstant f) := by
  constructor
  · constructor
    · rintro ⟨d, hd⟩
      obtain ⟨hne, hinj, -⟩ := signalMap_eq_ok_iff.1 hd
      exact ⟨hinj, hne⟩
    · rintro ⟨hinj, hne⟩
      exact ⟨_, signalMap_eq_ok_iff.2 ⟨hne, hinj, rfl⟩⟩
  · intro d hd
    obtain ⟨g, hg, hagree, rfl⟩ := exists_isRenaming_of_signalMap hc hd
    have hkeep : ∀ s ∈ c.signals, keepConstant f s = g s := fun s hs => by
      rw [keepConstant, if_neg (hc.ne_constant_of_mem_signals hs), hagree s hs]
    have hkeep0 : keepConstant f constantSignal = constantSignal := if_pos rfl
    refine ⟨(·.renameNormal g), bijOn_renameNormal hc hg, fun n hn => ⟨?_, fun labels => ?_⟩⟩
    · have hmem : n.renameNormal g ∈ (c.rename g).normalize F :=
        (mem_normalize_rename hc hg).2 ⟨n, hn, rfl⟩
      have hcarried := (isCarriedOnto_iff_renameNormal_eq hg hc hn (hc.rename hg) hmem).2 rfl
      refine hcarried.congr (fun s hs => ?_) (hg.constant.trans hkeep0.symm)
      rw [signals_of_mem_normalize hc hn] at hs
      exact (hkeep s hs).symm
    · have hlabels : ∀ s ∈ n.signals, labels (g s) = (labels ∘ keepConstant f) s := fun s hs => by
        rw [signals_of_mem_normalize hc hn] at hs
        rw [Function.comp_apply, hkeep s hs]
      refine ⟨shape_renameNormal hc hn hg hlabels ?_, fun s hs => ?_⟩
      · rw [Function.comp_apply, hkeep0]
      · rw [← hagree s hs]
        exact characteristic_renameNormal hc hn hg hlabels s

namespace Sample

/-- The product of the signals 1 and 2 is the signal 3. -/
def plainProduct : Constraint := .r1cs (.ofTerms [(1, 1)] [(2, 1)] [(3, 1)])

/-- The same product with other signals, so that the factors change places. -/
def movedProduct : Constraint := .r1cs (.ofTerms [(4, 1)] [(5, 1)] [(6, 1)])

def moved (s : Signal) : Signal := [0, 5, 4, 6].getD s s

end Sample

open Sample in
/-- The renamed factors of the product change places in the normal form. -/
theorem normalForms_signalMap_product : Nat.Prime 7 ∧ plainProduct.IsReduced ⟨7⟩ ∧
    ∃ d image, plainProduct.signalMap moved = .ok d ∧
      Set.BijOn image {n | n ∈ plainProduct.normalize ⟨7⟩} {m | m ∈ d.normalize ⟨7⟩} ∧
      image plainProduct = movedProduct ∧
      plainProduct.IsCarriedOnto (keepConstant moved) movedProduct := by
  have hprime : Nat.Prime 7 := by decide
  have : Fact (PrimeField.mk 7).modulus.Prime := ⟨hprime⟩
  have hreduced : plainProduct.IsReduced ⟨7⟩ := by decide
  have hinj : ∀ s ∈ plainProduct.signals.toList, ∀ t ∈ plainProduct.signals.toList,
      moved s = moved t → s = t := by decide
  have hne : ∀ s ∈ plainProduct.signals.toList, moved s ≠ constantSignal := by decide
  have hmem : plainProduct ∈ plainProduct.normalize ⟨7⟩ := by decide +kernel
  have hforms : (plainProduct.rename (keepConstant moved)).normalize ⟨7⟩ = [movedProduct] := by
    decide +kernel
  obtain ⟨hsucceeds, hcorrespond⟩ := normalForms_signalMap hreduced moved
  obtain ⟨d, hd⟩ := hsucceeds.2 ⟨fun s hs t ht => hinj s hs t ht, hne⟩
  obtain ⟨image, hbij, hcarried⟩ := hcorrespond d hd
  obtain ⟨-, -, rfl⟩ := signalMap_eq_ok_iff.1 hd
  have himage : image plainProduct = movedProduct := by
    have hmapped : image plainProduct ∈ (plainProduct.rename (keepConstant moved)).normalize ⟨7⟩ :=
      hbij.mapsTo hmem
    rwa [hforms, List.mem_singleton] at hmapped
  exact ⟨hprime, hreduced, _, image, hd, hbij, himage, himage ▸ (hcarried plainProduct hmem).1⟩

end Constraint

end CircuitEquiv
