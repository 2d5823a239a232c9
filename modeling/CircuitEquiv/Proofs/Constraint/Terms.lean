-- SUMMARY: Scaling and renaming of terms: what they hold afterwards, and that the two commute.
import CircuitEquiv.Constraint.Terms
import CircuitEquiv.Proofs.Constraint.Divisor

/-!
# Scaling and renaming terms

Division multiplies all coefficients by an inverse, so the theory is stated for scaling. A renaming
that keeps the signals of a linear combination apart only moves the coefficients.
-/

namespace CircuitEquiv

/-! ## Keys -/

namespace SortedMap

variable {κ β : Type} [Ord κ] [Std.TransOrd κ]

/-- Moves every entry to the image of its key. -/
def mapKeys (m : SortedMap κ β) (f : κ → κ) : SortedMap κ β :=
  ofList (m.entries.map fun e => (f e.1, e.2))

variable [Std.LawfulEqOrd κ] {m : SortedMap κ β} {f g : κ → κ}

omit [Std.LawfulEqOrd κ] in
theorem mapKeys_congr (h : ∀ k ∈ m.keys, f k = g k) : m.mapKeys f = m.mapKeys g := by
  rw [mapKeys, mapKeys]
  congr 1
  exact List.map_congr_left fun e he => by rw [h e.1 (List.mem_map_of_mem he)]

omit [Std.TransOrd κ] in
theorem nodup_map_keys (hf : Set.InjOn f {k | k ∈ m.keys}) :
    ((m.entries.map fun e => (f e.1, e.2)).map (·.1)).Nodup := by
  have hmap : (m.entries.map fun e => (f e.1, e.2)).map (·.1) = m.keys.map f := by
    simp only [keys, List.map_map]
    rfl
  rw [hmap]
  exact List.Nodup.map_on (fun a ha b hb heq => hf ha hb heq) m.nodup_keys

theorem entries_mapKeys_perm (hf : Set.InjOn f {k | k ∈ m.keys}) :
    (m.mapKeys f).entries.Perm (m.entries.map fun e => (f e.1, e.2)) :=
  entries_ofList_perm (nodup_map_keys hf)

theorem values_mapKeys_perm (hf : Set.InjOn f {k | k ∈ m.keys}) :
    (m.mapKeys f).values.Perm m.values := by
  refine ((entries_mapKeys_perm hf).map _).trans (List.Perm.of_eq ?_)
  simp only [values, List.map_map]
  rfl

theorem mem_keys_mapKeys {k : κ} : k ∈ (m.mapKeys f).keys ↔ ∃ j ∈ m.keys, f j = k := by
  rw [mapKeys, mem_keys_ofList]
  simp [keys]

theorem get?_mapKeys (hf : Set.InjOn f {k | k ∈ m.keys}) {k : κ} (hk : k ∈ m.keys) :
    (m.mapKeys f).get? (f k) = m.get? k := by
  apply Option.ext
  intro v
  rw [get?_eq_some_iff, get?_eq_some_iff, (entries_mapKeys_perm hf).mem_iff, List.mem_map]
  constructor
  · rintro ⟨⟨j, w⟩, hj, heq⟩
    obtain ⟨hjk, rfl⟩ := Prod.mk.inj heq
    exact hf (List.mem_map_of_mem hj) hk hjk ▸ hj
  · exact fun h => ⟨(k, v), h, rfl⟩

/-- A renaming without collisions anywhere keeps what is held under each key. -/
theorem get?_mapKeys_of_injective (hf : Function.Injective f) (k : κ) :
    (m.mapKeys f).get? (f k) = m.get? k := by
  by_cases hk : k ∈ m.keys
  · exact get?_mapKeys hf.injOn hk
  · have hfk : f k ∉ (m.mapKeys f).keys := fun h => by
      obtain ⟨j, hj, heq⟩ := mem_keys_mapKeys.1 h
      exact hk (hf heq ▸ hj)
    rw [get?_eq_none_iff.2 hk, get?_eq_none_iff.2 hfk]

theorem mapKeys_mapKeys (hf : Set.InjOn f {k | k ∈ m.keys})
    (hg : Set.InjOn g {k | k ∈ (m.mapKeys f).keys}) : (m.mapKeys f).mapKeys g = m.mapKeys (g ∘ f) := by
  have hgf : Set.InjOn (g ∘ f) {k | k ∈ m.keys} := fun j hj k hk heq =>
    hf hj hk (hg (mem_keys_mapKeys.2 ⟨j, hj, rfl⟩) (mem_keys_mapKeys.2 ⟨k, hk, rfl⟩) heq)
  apply ext_entries_perm
  refine (entries_mapKeys_perm hg).trans (((entries_mapKeys_perm hf).map _).trans ?_)
  rw [List.map_map]
  exact (entries_mapKeys_perm hgf).symm

theorem mapKeys_eq_self (h : ∀ k ∈ m.keys, f k = k) : m.mapKeys f = m := by
  have hf : Set.InjOn f {k | k ∈ m.keys} := fun j hj k hk heq => by rwa [h j hj, h k hk] at heq
  apply ext_entries_perm
  refine (entries_mapKeys_perm hf).trans (List.Perm.of_eq ?_)
  refine (List.map_congr_left fun e he => ?_).trans (List.map_id _)
  show (f e.1, e.2) = e
  rw [h e.1 (List.mem_map_of_mem he)]

/-- Moving the keys back restores the map. -/
theorem mapKeys_mapKeys_cancel (h : ∀ k ∈ m.keys, g (f k) = k) : (m.mapKeys f).mapKeys g = m := by
  have hf : Set.InjOn f {k | k ∈ m.keys} := fun j hj k hk heq => by
    rw [← h j hj, ← h k hk, heq]
  have hg : Set.InjOn g {k | k ∈ (m.mapKeys f).keys} := by
    intro j hj k hk heq
    obtain ⟨j', hj', rfl⟩ := mem_keys_mapKeys.1 hj
    obtain ⟨k', hk', rfl⟩ := mem_keys_mapKeys.1 hk
    rw [h j' hj', h k' hk'] at heq
    rw [heq]
  exact (mapKeys_mapKeys hf hg).trans (mapKeys_eq_self h)

theorem isEmpty_mapKeys : (m.mapKeys f).isEmpty = m.isEmpty := by
  have hkeys : ∀ n : SortedMap κ β, n.isEmpty = true ↔ ∀ k, k ∉ n.keys := fun n => by
    rw [isEmpty, List.isEmpty_iff, ← List.eq_nil_iff_forall_not_mem, keys, List.map_eq_nil_iff]
  rw [Bool.eq_iff_iff, hkeys, hkeys]
  simp only [mem_keys_mapKeys]
  constructor
  · exact fun h k hk => h (f k) ⟨k, hk, rfl⟩
  · rintro h k ⟨j, hj, -⟩
    exact h j hj

end SortedMap

namespace Terms

section Scaling

variable {κ : Type} [Ord κ] {F : PrimeField} {t : SortedMap κ Nat}

/-! ## Scaling -/

/-- Multiplies every coefficient. -/
def scale (F : PrimeField) (t : SortedMap κ Nat) (k : Nat) : SortedMap κ Nat :=
  t.mapValues fun _ value => F.mul value k

/-- Every coefficient is a nonzero element. -/
def IsReduced (F : PrimeField) (t : SortedMap κ Nat) : Prop := F.AllNonzero t.values

instance (F : PrimeField) (t : SortedMap κ Nat) : Decidable (IsReduced F t) :=
  inferInstanceAs (Decidable (F.AllNonzero t.values))

@[simp]
theorem keys_scale (k : Nat) : (scale F t k).keys = t.keys := by
  simp [SortedMap.keys, scale, SortedMap.mapValues]

@[simp]
theorem values_scale (k : Nat) : (scale F t k).values = t.values.map (F.mul · k) := by
  simp [SortedMap.values, scale, SortedMap.mapValues]

@[simp]
theorem isEmpty_scale (k : Nat) : (scale F t k).isEmpty = t.isEmpty := by
  simp [SortedMap.isEmpty, scale, SortedMap.mapValues]

theorem scale_of_isEmpty (h : t.isEmpty = true) (k : Nat) : scale F t k = t := by
  obtain ⟨l, hl⟩ := t
  have hnil : l = [] := List.isEmpty_iff.1 h
  subst hnil
  rfl

theorem get?_scale [Std.LawfulEqOrd κ] (k : Nat) (s : κ) :
    (scale F t k).get? s = (t.get? s).map (F.mul · k) := by
  rw [scale, SortedMap.get?_mapValues]

theorem isRescaling_values_scale (k : Nat) : F.IsRescaling k t.values (scale F t k).values := by
  rw [PrimeField.IsRescaling, values_scale]

theorem scale_congr {j k : Nat} (h : ∀ v ∈ t.values, F.mul v j = F.mul v k) :
    scale F t j = scale F t k := by
  obtain ⟨l, hl⟩ := t
  simp only [scale, SortedMap.mapValues, SortedMap.mk.injEq]
  exact List.map_congr_left fun e he => by rw [h e.2 (List.mem_map_of_mem he)]

theorem scale_scale (j k : Nat) : scale F (scale F t j) k = scale F t (F.mul j k) := by
  simp [scale, SortedMap.mapValues, PrimeField.mul_assoc]

variable [hp : Fact F.modulus.Prime]

theorem IsReduced.scale {k : Nat} (h : IsReduced F t) (hk : F.IsNonzero k) :
    IsReduced F (scale F t k) :=
  PrimeField.AllNonzero.rescale h hk (isRescaling_values_scale k)

theorem divide?_eq_some {d : Nat} (h : F.IsNonzero d) :
    divide? F t d = some (scale F t (F.inverse d)) := by
  rw [divide?, PrimeField.inv?_eq_some h.cast_ne_zero]
  rfl

/-- A common factor of coefficients and divisor cancels. -/
theorem scale_scale_inverse {d k : Nat} (hd : F.IsNonzero d) (hk : F.IsNonzero k) :
    Terms.scale F (Terms.scale F t k) (F.inverse (F.mul d k)) = Terms.scale F t (F.inverse d) := by
  rw [scale_scale]
  refine scale_congr fun v _ => ?_
  rw [← PrimeField.mul_assoc, PrimeField.mul_inverse_mul hd hk]

end Scaling

/-! ## Renaming -/

section Renaming

variable {F : PrimeField} {t : Terms} {f g : Signal → Signal}

theorem rename_eq_mapKeys (t : Terms) (f : Signal → Signal) : rename t f = t.mapKeys f := rfl

theorem rename_congr (h : ∀ s ∈ t.keys, f s = g s) : rename t f = rename t g :=
  SortedMap.mapKeys_congr h

theorem sortedValues_eq_of_perm {t u : Terms} (h : t.values.Perm u.values) :
    sortedValues t = sortedValues u := ascending_eq_of_perm h

end Renaming

section MapKeys

variable {κ : Type} [Ord κ] [Std.TransOrd κ] [Std.LawfulEqOrd κ] {F : PrimeField}
  {t : SortedMap κ Nat} {f : κ → κ}

/-- Coefficients can be scaled before or after they are moved. -/
theorem scale_mapKeys (hf : Set.InjOn f {k | k ∈ t.keys}) (k : Nat) :
    scale F (t.mapKeys f) k = (scale F t k).mapKeys f := by
  apply SortedMap.ext_get?
  intro j
  by_cases hj : j ∈ (t.mapKeys f).keys
  · obtain ⟨i, hi, rfl⟩ := SortedMap.mem_keys_mapKeys.1 hj
    have hf' : Set.InjOn f {k' | k' ∈ (scale F t k).keys} := by simpa using hf
    have hi' : i ∈ (scale F t k).keys := by simpa using hi
    rw [get?_scale, SortedMap.get?_mapKeys hf hi, SortedMap.get?_mapKeys hf' hi', get?_scale]
  · have hj' : j ∉ ((scale F t k).mapKeys f).keys := by
      rw [SortedMap.mem_keys_mapKeys, keys_scale, ← SortedMap.mem_keys_mapKeys]
      exact hj
    rw [get?_scale, SortedMap.get?_eq_none_iff.2 hj, SortedMap.get?_eq_none_iff.2 hj']
    rfl

theorem IsReduced.mapKeys (h : IsReduced F t) (hf : Set.InjOn f {k | k ∈ t.keys}) :
    IsReduced F (t.mapKeys f) := fun v hv =>
  h v ((SortedMap.values_mapKeys_perm hf).mem_iff.1 hv)

end MapKeys

end Terms

end CircuitEquiv
