-- SUMMARY: A map of signals carries one norm onto another exactly if the pair has a shape and the map meets it.
import CircuitEquiv.Proofs.Constraint.Construction
import CircuitEquiv.Proofs.Matching.PairShape

/-!
# Maps that carry one norm onto another

Shapes are exact for renamings of all signals. A map need only be injective on the signals of the left
norm, though: there it agrees with a renaming, and neither the renamed norm nor the shape can tell the
two apart, since a shape mentions no other left signals.
-/

namespace CircuitEquiv

variable {f g : Signal → Signal} {l r : Constraint}

namespace PairShape

variable {isCandidate : Signal → Signal → Bool} {shape : PairShape}

/-- Only the values on the signals of the left constraint matter for its shape. -/
theorem IsMetBy.congr (h : shape.IsMetBy f) (hshape : ofNorms? isCandidate l r = some shape)
    (hagree : ∀ s ∈ l.signals, f s = g s) : shape.IsMetBy g :=
  h.mono_within (within_signals_ofNorms? hshape) fun s _ hs hf => (hagree s hs.1).symm.trans hf

/-- A shape states exactly when one norm is carried onto another. Take a map of signals that fixes the
constant signal, is injective on that one and the signals of the left norm, and sends the latter to
candidates. It carries the left norm onto the right one exactly if the two have a shape and the map meets
it; so without a shape there is no such map. A map that meets a shape sends each signal to one of the
partners that the shape allows it. -/
theorem ofNorms?_exact (isCandidate : Signal → Signal → Bool) (hl : l.HasProperKeys)
    (hr : r.HasProperKeys) (h0 : f constantSignal = constantSignal)
    (hinj : Set.InjOn f (insert constantSignal {s | s ∈ l.signals}))
    (hcandidate : ∀ s ∈ l.signals, isCandidate s (f s) = true) :
    (l.IsCarriedOnto f r ↔
        ∃ shape, ofNorms? isCandidate l r = some shape ∧ shape.IsMetBy f) ∧
      (ofNorms? isCandidate l r = none → ¬ l.IsCarriedOnto f r) ∧
      ∀ shape : PairShape, shape.IsMetBy f →
        ∀ s allowed, shape.allowed? s = some allowed → f s ∈ allowed := by
  have hne : ∀ s ∈ l.signals, s ≠ constantSignal := fun s hs => hl.ne_constant_of_mem_signals hs
  obtain ⟨g, hg, hagree⟩ : ∃ g, IsRenaming g ∧ ∀ s ∈ {s | s ∈ l.signals}, g s = f s := by
    refine exists_isRenaming_of_injOn l.finite_signals (fun hmem => hne _ hmem rfl) (fun s hs heq => ?_)
      (hinj.mono (Set.subset_insert _ _))
    exact hne s hs (hinj (Set.mem_insert_of_mem _ hs) (Set.mem_insert _ _) (heq.trans h0.symm))
  have hg0 : g constantSignal = f constantSignal := hg.constant.trans h0.symm
  have hagree' : ∀ s ∈ l.signals, f s = g s := fun s hs => (hagree s hs).symm
  have hiff : l.IsCarriedOnto f r ↔
      ∃ shape, ofNorms? isCandidate l r = some shape ∧ shape.IsMetBy f := by
    constructor
    · intro h
      obtain ⟨shape, hshape, hmet⟩ := exists_ofNorms?_of_isCarriedOnto hg hl (h.congr hagree' hg0.symm)
        fun s hs => (hagree s hs).symm ▸ hcandidate s hs
      exact ⟨shape, hshape, hmet.congr hshape hagree⟩
    · rintro ⟨shape, hshape, hmet⟩
      exact (isCarriedOnto_of_ofNorms? hg hl hr hshape (hmet.congr hshape hagree')).congr hagree hg0
  refine ⟨hiff, fun hnone h => ?_, fun shape hmet s allowed hs => allows_allowed? hmet s allowed hs⟩
  obtain ⟨shape, hshape, -⟩ := hiff.1 h
  cases hnone.symm.trans hshape

namespace Sample

/-- A mixed product and a square, with a linear term. -/
def products : Constraint :=
  .acir (.ofTerms ⟨23⟩ [((1, 2), 1), ((3, 3), 2)] [(4, 1)] 5)

/-- The same with other signals, the factors of the mixed product the other way round. -/
def renamedProducts : Constraint :=
  .acir (.ofTerms ⟨23⟩ [((6, 7), 1), ((8, 8), 2)] [(9, 1)] 5)

def crossed (s : Signal) : Signal := [0, 7, 6, 8, 9].getD s s

end Sample

open Sample in
/-- The map that crosses the factors meets the shape of the two polynomials. -/
theorem ofNorms?_exact_products :
    products.HasProperKeys ∧ renamedProducts.HasProperKeys ∧ crossed constantSignal = constantSignal ∧
      Set.InjOn crossed (insert constantSignal {s | s ∈ products.signals}) ∧
      products.IsCarriedOnto crossed renamedProducts ∧
      ∃ shape, ofNorms? (fun _ _ => true) products renamedProducts = some shape ∧
        shape.IsMetBy crossed := by
  have hl : products.HasProperKeys := by decide
  have hr : renamedProducts.HasProperKeys := by decide
  have hinj : Set.InjOn crossed (insert constantSignal {s | s ∈ products.signals}) := by
    have hlisted : ∀ s ∈ constantSignal :: products.signals.toList,
        ∀ t ∈ constantSignal :: products.signals.toList, crossed s = crossed t → s = t := by decide
    exact fun s hs t ht => hlisted s (List.mem_cons.2 hs) t (List.mem_cons.2 ht)
  have hcarried : products.IsCarriedOnto crossed renamedProducts :=
    (by decide : AcirConstraint.rename _ crossed = _)
  exact ⟨hl, hr, rfl, hinj, hcarried,
    (ofNorms?_exact (fun _ _ => true) hl hr rfl hinj fun _ _ => rfl).1.1 hcarried⟩

end PairShape

end CircuitEquiv
