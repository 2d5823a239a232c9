-- SUMMARY: The encoding of what refinement leaves open is exact: its models are the full equivalences.
import CircuitEquiv.Proofs.Circuit.Sanity
import CircuitEquiv.Proofs.Equivalence.Correspondence
import CircuitEquiv.Proofs.Equivalence.Decoding
import CircuitEquiv.Proofs.Interaction.Endings

/-!
# Exactness of the encoding

Encoding ends in time with what encoding without a deadline gives, or with a timeout. The mappings that
models of the encoding decode to are the full equivalences of the circuits, whatever the policy and
the threshold, and a difference is reported only where there is no full equivalence.
-/

namespace CircuitEquiv

variable {left right : Circuit} {res : Residual} {policy : Policy} {threshold : Nat}

/-! ## Encoding against a deadline -/

/-- The encoding without a deadline. -/
def Residual.encoding (res : Residual) (policy : Policy) (threshold : Nat) :
    Except Difference Encoding := do
  let e ← Encoder.ofResidual res policy threshold
  .ok (e.finish res policy threshold)

theorem computes_encode (deadline : Deadline) :
    deadline.Computes .encoding (encode res policy threshold deadline)
      (res.encoding policy threshold) := by
  have hencoding : res.encoding policy threshold =
      (Candidates.ofClasses res.refinement.signalClasses.values).propagated >>= fun c =>
        (Encoder.start c).round res policy threshold (policy.preliminary res.normClasses) [] >>=
          fun e => e.runRounds res policy threshold (policy.rounds res.normClasses) >>=
            fun e => .ok (e.finish res policy threshold) := by
    unfold Residual.encoding Encoder.ofResidual
    simp only [bind_assoc]
  rw [hencoding]
  refine .bind (.orDiffer _) fun c => .bind (.orDiffer _) fun e => .bind ?_ fun e => .pure _
  exact .foldlM (fun e r => .bind .check fun _ => .orDiffer _) e _

/-! ## Models -/

/-- A model of an encoding: its clauses and its assumptions hold. -/
structure Encoding.IsModel (encoding : Encoding) (model : Model) : Prop where
  clauses : Clause.allHold encoding.clauses model.isTrue = true
  assumptions : ∀ a ∈ encoding.assumptions, a.holds model.isTrue = true

/-- The mappings that the models of an encoding decode to. -/
def Encoding.decodings (encoding : Encoding) (res : Residual) : Set Mapping :=
  {m | ∃ model, encoding.IsModel model ∧
    Mapping.decode encoding.vars model res.leftNorms res.rightNorms = m}

/-- Two circuits over one field and dialect, with what refinement leaves open between them. -/
structure Residual.Compares (left right : Circuit) (res : Residual) : Prop where
  residual : Residual.ofCircuits left right = .ok res
  left_isProper : left.IsProper
  right_isProper : right.IsProper
  field : left.field = right.field
  dialect : left.dialect = right.dialect

namespace Encoder

variable {e : Encoder} {model : Model}

theorem isModel_finish_iff : (e.finish res policy threshold).IsModel model ↔
    (e.finished res policy threshold).Satisfied model.isTrue := by
  rw [finish_eq]
  constructor
  · rintro ⟨hclauses, hassumptions⟩
    exact ⟨hclauses, fun a ha => hassumptions a (SortedSet.mem_ofList.2 ha)⟩
  · rintro ⟨hclauses, hassumptions⟩
    exact ⟨hclauses, fun a ha => hassumptions a (SortedSet.mem_ofList.1 ha)⟩

/-- Some model gives the variables of an encoder the values of an assignment that obeys it. -/
theorem exists_model {v : Nat → Bool} (h : e.WellFormed) (hv : e.Satisfied v) :
    ∃ model : Model, AgreesBelow e.draft.vars.nextId v model.isTrue ∧
      e.Satisfied model.isTrue := by
  let model := Model.ofTrueVars ((List.range e.draft.vars.nextId).filter v)
  have hagrees : AgreesBelow e.draft.vars.nextId v model.isTrue := by
    intro i hi
    simp [model, hi]
  refine ⟨model, hagrees, ⟨?_, fun a ha => ?_⟩⟩
  · rw [Draft.Holds, Clause.allHold_of_agreesBelow hagrees h.wellFormed.below]
    exact hv.holds
  · rw [Literal.holds_of_agreesBelow hagrees (h.assumptions a ha)]
    exact hv.assumptions a ha

end Encoder

namespace Residual.Compares

variable (h : Residual.Compares left right res) {e : Encoder} {model : Model}

include h

theorem isBalanced : res.refinement.IsBalanced left res.leftNorms right res.rightNorms :=
  isBalanced_of_ofCircuits h.residual

theorem exists_norm {k : Nat} (hk : k < left.nConstraints) :
    ∃ l < res.leftNorms.size, Draft.originOf res.leftNorms l = k := by
  have : Fact left.field.modulus.Prime := ⟨h.left_isProper.prime⟩
  obtain ⟨hleft, -, -⟩ := eq_of_ofCircuits h.residual
  obtain ⟨l, n, hn, rfl⟩ := Circuit.exists_norm_of_lt h.left_isProper.reduced hk
  refine ⟨l, by rw [hleft]; exact (Array.getElem?_eq_some_iff.1 hn).1, ?_⟩
  rw [Draft.originOf, hleft, hn, Option.getD_some]

theorem originOf_lt {l : Nat} (hl : l < res.leftNorms.size) :
    Draft.originOf res.leftNorms l < left.nConstraints := by
  obtain ⟨hleft, -, -⟩ := eq_of_ofCircuits h.residual
  rw [hleft] at hl ⊢
  rw [Draft.originOf, Array.getElem?_eq_getElem hl, Option.getD_some]
  exact Circuit.origin_lt (Array.getElem?_eq_getElem hl)

/-- A model of a finished encoding decodes to a full equivalence, with the pairs that it selects. -/
theorem exists_of_isModel (he : Encoder.ofResidual res policy threshold = .ok e)
    (hmodel : (e.finish res policy threshold).IsModel model) :
    ∃ σ κ, FullEquivalence left right σ κ ∧
      Mapping.decode (e.finish res policy threshold).vars model res.leftNorms res.rightNorms =
        Mapping.ofFunctions left σ κ ∧
      (∀ s < left.nSignals, s ≠ constantSignal →
        (e.finished res policy threshold).draft.Selects model.isTrue (.signal s (σ s))) ∧
      ∀ k < left.nConstraints, ∃ l r, (e.finished res policy threshold).draft.Selects model.isTrue
        (.norm l r) ∧ Draft.originOf res.leftNorms l = k ∧ Draft.originOf res.rightNorms r = κ k := by
  obtain ⟨hleft, hright, -⟩ := eq_of_ofCircuits h.residual
  have hsound := Encoder.isSound_ofResidual h.isBalanced he
  have hsolution := Encoder.isSolution_of_finished hsound (Encoder.isModel_finish_iff.1 hmodel)
  obtain ⟨σ, κ, hequivalence, hσ, hκ, htotal⟩ := hsolution.exists_fullEquivalence h.isBalanced hleft
    hright h.left_isProper h.right_isProper.reduced h.field h.dialect
  have hlt : ∀ l r, (e.finished res policy threshold).draft.Selects model.isTrue (.norm l r) →
      l < res.leftNorms.size := fun l r hselects => by
    obtain ⟨m, hm, hl, -⟩ := hsolution.norms l r hselects
    exact (isPartition_normClasses h.isBalanced).left_lt m hm l hl
  have hmatched : ∀ k < left.nConstraints, ∃ l r,
      (e.finished res policy threshold).draft.Selects model.isTrue (.norm l r) ∧
        Draft.originOf res.leftNorms l = k := fun k hk => by
    obtain ⟨l, hl, horigin⟩ := h.exists_norm hk
    obtain ⟨r, hr⟩ := htotal l hl
    exact ⟨l, r, hr, horigin⟩
  refine ⟨σ, κ, hequivalence, ?_, fun s hs hne => (hσ s _).2 ⟨hne, hs, rfl⟩, fun k hk => ?_⟩
  · exact Mapping.decode_eq_ofFunctions (fun _ => Iff.rfl)
      (Encoder.isSound_finished hsound).wellFormed.functional hequivalence.constant hσ hκ
      (fun l r hselects => h.originOf_lt (hlt l r hselects)) hmatched
  · obtain ⟨l, r, hselects, rfl⟩ := hmatched k hk
    exact ⟨l, r, hselects, rfl, (hκ l r hselects).symm⟩

/-- Every full equivalence is what some model decodes to. -/
theorem exists_isModel {m : Mapping} (hm : m.IsFullEquivalence left right) :
    ∃ e model, Encoder.ofResidual res policy threshold = .ok e ∧
      (e.finish res policy threshold).IsModel model ∧
      Mapping.decode (e.finish res policy threshold).vars model res.leftNorms res.rightNorms = m := by
  obtain ⟨hleft, -, -⟩ := eq_of_ofCircuits h.residual
  obtain ⟨ν, ht⟩ := exists_isTarget h.residual hm.acts h.left_isProper h.right_isProper.reduced
  obtain ⟨e, he, hadmits⟩ := Encoder.exists_ofResidual ht h.isBalanced hleft h.left_isProper
  have hsound := Encoder.isSound_ofResidual h.isBalanced he
  have hwellFormed : (e.finished res policy threshold).WellFormed :=
    (Encoder.isSound_finished hsound).toWellFormed
  obtain ⟨v, hv, hassumptions⟩ := Encoder.isModelled_finished ht h.isBalanced hsound hadmits
  obtain ⟨model, hagrees, hsatisfied⟩ := Encoder.exists_model hwellFormed ⟨hv.holds, hassumptions⟩
  have hmodel := Encoder.isModel_finish_iff.2 hsatisfied
  have hmodels := hv.of_agreesBelow hwellFormed.wellFormed hagrees
  have hmatches : ∀ p, (e.finished res policy threshold).draft.Selects model.isTrue p →
      res.Matches left (fun s => m.signals.getD s constantSignal) ν p :=
    fun p hselects => by
      have ⟨id, hid, _⟩ := hselects
      exact (hmodels.selects_iff ⟨id, hid⟩).1 hselects
  obtain ⟨σ, κ, hequivalence, hdecode, hsignals, hconstraints⟩ := h.exists_of_isModel he hmodel
  refine ⟨e, model, he, hmodel, hdecode.trans ?_⟩
  rw [hm.eq_ofFunctions]
  refine Mapping.ofFunctions_congr (fun s hs => ?_) fun k hk => ?_
  · by_cases hne : s = constantSignal
    · rw [hne, hequivalence.constant]
      exact hm.acts.constant.symm
    · exact (hmatches _ (hsignals s hs hne)).2.2.symm
  · obtain ⟨l, r, hselects, rfl, hr⟩ := hconstraints k hk
    obtain ⟨hl, rfl⟩ := hmatches _ hselects
    rw [← hr, Encoder.originOf_image ht hl]

/-- A finished encoding decodes to the full equivalences. -/
theorem decodings_finish (he : Encoder.ofResidual res policy threshold = .ok e) :
    (e.finish res policy threshold).decodings res = {m | m.IsFullEquivalence left right} := by
  ext m
  constructor
  · rintro ⟨model, hmodel, rfl⟩
    obtain ⟨σ, κ, hequivalence, hdecode, -⟩ := h.exists_of_isModel he hmodel
    rw [hdecode]
    exact Mapping.isFullEquivalence_ofFunctions hequivalence
  · intro hm
    obtain ⟨e', model, he', hmodel, hdecode⟩ := h.exists_isModel hm
    rw [he, Except.ok.injEq] at he'
    subst he'
    exact ⟨model, hmodel, hdecode⟩

/-- The decodings of an encoding are the full equivalences. -/
theorem decodings_encoding {encoding : Encoding}
    (hencoding : res.encoding policy threshold = .ok encoding) :
    encoding.decodings res = {m | m.IsFullEquivalence left right} := by
  obtain ⟨e, he, hfinish⟩ := bind_eq_ok_iff.1 hencoding
  cases hfinish
  exact h.decodings_finish he

/-- This holds of the encoding that some policy ends with. -/
theorem decodings_eq {deadline : Deadline} {ts : List Nat} {encoding : Encoding}
    (hends : (encode res policy threshold deadline).run.Ends ts (.ok encoding)) :
    encoding.decodings res = {m | m.IsFullEquivalence left right} := by
  rcases computes_encode deadline ts _ hends with ⟨-, hresult⟩ | ⟨-, herror⟩
  · cases hencoding : res.encoding policy threshold with
    | error difference =>
      rw [hencoding] at hresult
      cases hresult
    | ok encoding' =>
      rw [hencoding] at hresult
      cases hresult
      exact h.decodings_encoding hencoding
  · cases herror

/-- Where encoding finds a difference there is no full equivalence. -/
theorem not_equivalent_of_encoding {difference : Difference}
    (hencoding : res.encoding policy threshold = .error difference) :
    ¬ left.Equivalent right := by
  intro hequivalent
  obtain ⟨m, hm⟩ := Mapping.equivalent_iff_exists.1 hequivalent
  have hmodel : ∃ e model, Encoder.ofResidual res policy threshold = .ok e ∧
      (e.finish res policy threshold).IsModel model ∧ Mapping.decode
        (e.finish res policy threshold).vars model res.leftNorms res.rightNorms = m :=
    h.exists_isModel hm
  obtain ⟨e, -, he, -⟩ := hmodel
  rw [Residual.encoding, he] at hencoding
  cases hencoding

end Residual.Compares

/-! ## The main result -/

/-- The encoding of what refinement leaves open is exact. If encoding succeeds, the models decode to
the full equivalences, which pass the check, whatever the policy and the threshold. If it fails, it
reports a difference and there is no full equivalence. -/
theorem Residual.encode_exact (h : Residual.Compares left right res) (policy : Policy)
    (threshold : Nat) (deadline : Deadline) {ts : List Nat} {r : Except EquivalenceError Encoding}
    (hends : (encode res policy threshold deadline).run.Ends ts r)
    (hdeadline : deadline.Outlasts ts) :
    (∀ encoding, r = .ok encoding →
      encoding.decodings res = {m | m.IsFullEquivalence left right} ∧
      (∀ m ∈ encoding.decodings res, m.sanityCheck left right = .ok ()) ∧
      ∀ policy' threshold' deadline' ts' encoding',
        (encode res policy' threshold' deadline').run.Ends ts' (.ok encoding') →
          encoding'.decodings res = encoding.decodings res) ∧
    ∀ error, r = .error error →
      (∃ difference, error = .notEquivalent difference) ∧ ¬ left.Equivalent right := by
  constructor
  · rintro encoding rfl
    have hdecodings := h.decodings_eq hends
    refine ⟨hdecodings, fun m hm => ?_, fun policy' threshold' deadline' ts' encoding' hends' => ?_⟩
    · rw [hdecodings] at hm
      exact Mapping.sanityCheck_of_isFullEquivalence hm
    · rw [hdecodings, h.decodings_eq hends']
  · rintro error rfl
    obtain ⟨-, hresult⟩ := (computes_encode deadline ts _ hends).resolve_right fun hout =>
      hout.1 hdeadline
    cases hencoding : res.encoding policy threshold with
    | ok encoding =>
      rw [hencoding] at hresult
      cases hresult
    | error difference =>
      rw [hencoding] at hresult
      cases hresult
      exact ⟨⟨difference, rfl⟩, h.not_equivalent_of_encoding hencoding⟩

theorem Residual.encode_exact_sample :
    ∃ res encoding, Residual.Compares Circuit.Sample.left Circuit.Sample.right res ∧
      (∃ ts, (encode res .batchedInfoPassing 6 .never).run.Ends ts (.ok encoding) ∧
        Deadline.never.Outlasts ts) ∧
      encoding.decodings res =
        {m | m.IsFullEquivalence Circuit.Sample.left Circuit.Sample.right} ∧
      Mapping.ofFunctions Circuit.Sample.left Circuit.Sample.signalMap id ∈
        encoding.decodings res := by
  have hequivalence := Circuit.Sample.fullEquivalence
  obtain ⟨res, hres⟩ := Residual.exists_ofCircuits hequivalence Circuit.Sample.isProper_left
    Circuit.Sample.isProper_right.reduced
  have h : Residual.Compares Circuit.Sample.left Circuit.Sample.right res :=
    ⟨hres, Circuit.Sample.isProper_left, Circuit.Sample.isProper_right, rfl, rfl⟩
  obtain ⟨ts, hends⟩ := Interaction.ends_run (encode res .batchedInfoPassing 6 .never).run (.ofFiles [])
  have hexact := Residual.encode_exact h .batchedInfoPassing 6 .never hends Deadline.outlasts_never
  generalize ((encode res .batchedInfoPassing 6 .never).run.run (.ofFiles [])).1 = r at hends hexact
  cases r with
  | error error => exact absurd ⟨_, _, hequivalence⟩ (hexact.2 error rfl).2
  | ok encoding =>
    obtain ⟨hdecodings, -⟩ := hexact.1 encoding rfl
    refine ⟨res, encoding, h, ⟨ts, hends, Deadline.outlasts_never⟩, hdecodings, ?_⟩
    rw [hdecodings]
    exact Mapping.isFullEquivalence_ofFunctions hequivalence

end CircuitEquiv
