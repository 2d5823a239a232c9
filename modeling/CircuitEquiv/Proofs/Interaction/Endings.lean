-- SUMMARY: The ways in which an interaction can end, with the readings of the clock on the way.
import CircuitEquiv.Equivalence.Encoding

/-!
# Endings

An interaction ends differently for different answers. Its endings are the results that some answers
lead to, each with the readings of the clock that led to it. What holds of all endings holds of the
program whatever the clock shows and whatever the files contain.
-/

namespace CircuitEquiv

namespace Interaction

variable {α β : Type} {x : Interaction α} {f : α → Interaction β} {a : α} {b : β} {ts : List Nat}

/-- Some answers let the interaction end with a result, after the given readings of the clock. -/
inductive Ends : Interaction α → List Nat → α → Prop
  | done (a : α) : Ends (.done a) [] a
  | readClock {next : Nat → Interaction α} {t : Nat} {ts : List Nat} {a : α}
      (h : Ends (next t) ts a) : Ends (.readClock next) (t :: ts) a
  | readFile {path : String} {next : Option (List UInt8) → Interaction α}
      {content : Option (List UInt8)} {ts : List Nat} {a : α} (h : Ends (next content) ts a) :
      Ends (.readFile path next) ts a
  | writeFile {path content : String} {next : Bool → Interaction α} {ok : Bool} {ts : List Nat}
      {a : α} (h : Ends (next ok) ts a) : Ends (.writeFile path content next) ts a
  | makeDirectory {path : String} {next : Bool → Interaction α} {ok : Bool} {ts : List Nat} {a : α}
      (h : Ends (next ok) ts a) : Ends (.makeDirectory path next) ts a
  | print {text : String} {next : Interaction α} {ts : List Nat} {a : α} (h : Ends next ts a) :
      Ends (.print text next) ts a

theorem ends_done_iff {a b : α} : Ends (.done a) ts b ↔ ts = [] ∧ b = a := by
  constructor
  · rintro ⟨⟩
    exact ⟨rfl, rfl⟩
  · rintro ⟨rfl, rfl⟩
    exact .done b

theorem Ends.bind {ts' : List Nat} (hx : Ends x ts a) (hf : Ends (f a) ts' b) :
    Ends (x.bind f) (ts ++ ts') b := by
  induction hx with
  | done => exact hf
  | readClock _ ih => exact .readClock (ih hf)
  | readFile _ ih => exact .readFile (ih hf)
  | writeFile _ ih => exact .writeFile (ih hf)
  | makeDirectory _ ih => exact .makeDirectory (ih hf)
  | print _ ih => exact .print (ih hf)

theorem ends_bind_iff : Ends (x.bind f) ts b ↔
    ∃ ts₁ ts₂ a, ts = ts₁ ++ ts₂ ∧ Ends x ts₁ a ∧ Ends (f a) ts₂ b := by
  constructor
  · intro h
    induction x generalizing ts with
    | done a => exact ⟨[], ts, a, rfl, .done a, h⟩
    | readClock next ih =>
      obtain ⟨⟩ := h
      rename_i t ts h
      obtain ⟨ts₁, ts₂, a, rfl, hx, hf⟩ := ih t h
      exact ⟨t :: ts₁, ts₂, a, rfl, .readClock hx, hf⟩
    | readFile path next ih =>
      obtain ⟨⟩ := h
      rename_i content h
      obtain ⟨ts₁, ts₂, a, rfl, hx, hf⟩ := ih content h
      exact ⟨ts₁, ts₂, a, rfl, .readFile hx, hf⟩
    | writeFile path content next ih =>
      obtain ⟨⟩ := h
      rename_i ok h
      obtain ⟨ts₁, ts₂, a, rfl, hx, hf⟩ := ih ok h
      exact ⟨ts₁, ts₂, a, rfl, .writeFile hx, hf⟩
    | makeDirectory path next ih =>
      obtain ⟨⟩ := h
      rename_i ok h
      obtain ⟨ts₁, ts₂, a, rfl, hx, hf⟩ := ih ok h
      exact ⟨ts₁, ts₂, a, rfl, .makeDirectory hx, hf⟩
    | print text next ih =>
      obtain ⟨⟩ := h
      rename_i h
      obtain ⟨ts₁, ts₂, a, rfl, hx, hf⟩ := ih h
      exact ⟨ts₁, ts₂, a, rfl, .print hx, hf⟩
  · rintro ⟨ts₁, ts₂, a, rfl, hx, hf⟩
    exact hx.bind hf

/-- What an interaction does in a world is one of its endings. -/
theorem ends_run (x : Interaction α) (w : World) : ∃ ts, x.Ends ts (x.run w).1 := by
  induction x generalizing w with
  | done a => exact ⟨[], .done a⟩
  | readClock next ih =>
    obtain ⟨ts, h⟩ := ih w.now { w with now := w.now + w.tick }
    exact ⟨w.now :: ts, .readClock h⟩
  | readFile path next ih =>
    obtain ⟨ts, h⟩ := ih (w.files.read? path) w
    exact ⟨ts, .readFile h⟩
  | writeFile path content next ih =>
    rw [run]
    cases w.write? path content with
    | some w' =>
      obtain ⟨ts, h⟩ := ih true w'
      exact ⟨ts, .writeFile h⟩
    | none =>
      obtain ⟨ts, h⟩ := ih false w
      exact ⟨ts, .writeFile h⟩
  | makeDirectory path next ih =>
    rw [run]
    cases w.makeDirectory? path with
    | some w' =>
      obtain ⟨ts, h⟩ := ih true w'
      exact ⟨ts, .makeDirectory h⟩
    | none =>
      obtain ⟨ts, h⟩ := ih false w
      exact ⟨ts, .makeDirectory h⟩
  | print text next ih =>
    obtain ⟨ts, h⟩ := ih { w with printed := w.printed ++ text }
    exact ⟨ts, .print h⟩

end Interaction

/-! ## Interactions that can fail -/

namespace Attempt

open Interaction (Ends)

variable {ε α β : Type} {x : Attempt ε α} {f : α → Attempt ε β} {a : α} {ts : List Nat}
  {r : Except ε β}

theorem ends_pure_iff {r : Except ε α} :
    Ends (pure a : Attempt ε α).run ts r ↔ ts = [] ∧ r = .ok a := Interaction.ends_done_iff

theorem ends_throw_iff {e : ε} {r : Except ε α} :
    Ends (throw e : Attempt ε α).run ts r ↔ ts = [] ∧ r = .error e := Interaction.ends_done_iff

theorem ends_lift_iff {x : Interaction α} {r : Except ε α} :
    Ends (monadLift x : Attempt ε α).run ts r ↔ ∃ a, Ends x ts a ∧ r = .ok a := by
  show Ends (x.bind fun a => .done (.ok a)) ts r ↔ _
  rw [Interaction.ends_bind_iff]
  constructor
  · rintro ⟨ts₁, ts₂, a, rfl, hx, hf⟩
    obtain ⟨rfl, rfl⟩ := Interaction.ends_done_iff.1 hf
    exact ⟨a, by simpa using hx, rfl⟩
  · rintro ⟨a, hx, rfl⟩
    exact ⟨ts, [], a, by simp, hx, .done _⟩

theorem ends_bind_iff : Ends (x >>= f).run ts r ↔
    (∃ e, Ends x.run ts (.error e) ∧ r = .error e) ∨
      ∃ ts₁ ts₂ a, ts = ts₁ ++ ts₂ ∧ Ends x.run ts₁ (.ok a) ∧ Ends (f a).run ts₂ r := by
  show Ends (Interaction.bind x.run (ExceptT.bindCont f)) ts r ↔ _
  rw [Interaction.ends_bind_iff]
  constructor
  · rintro ⟨ts₁, ts₂, y, rfl, hx, hf⟩
    cases y with
    | ok a => exact Or.inr ⟨ts₁, ts₂, a, rfl, hx, hf⟩
    | error e =>
      obtain ⟨rfl, rfl⟩ := Interaction.ends_done_iff.1 hf
      exact Or.inl ⟨e, by simpa using hx, rfl⟩
  · rintro (⟨e, hx, rfl⟩ | ⟨ts₁, ts₂, a, rfl, hx, hf⟩)
    · exact ⟨ts, [], .error e, by simp, hx, .done _⟩
    · exact ⟨ts₁, ts₂, .ok a, rfl, hx, hf⟩

theorem ends_adapt_iff {ε' : Type} {g : ε → ε'} {r : Except ε' α} :
    Ends (x.adapt g).run ts r ↔ ∃ r', Ends x.run ts r' ∧ r = r'.mapError g := by
  show Ends (x.run.bind fun y => .done (y.mapError g)) ts r ↔ _
  rw [Interaction.ends_bind_iff]
  constructor
  · rintro ⟨ts₁, ts₂, r', rfl, hx, hf⟩
    obtain ⟨rfl, rfl⟩ := Interaction.ends_done_iff.1 hf
    exact ⟨r', by simpa using hx, rfl⟩
  · rintro ⟨r', hx, rfl⟩
    exact ⟨ts, [], r', by simp, hx, .done _⟩

/-- A sequence of attempts fails only where one of them may. -/
theorem exists_of_ends_mapM {f : α → Attempt ε β} {mayFail : Prop} {l : List α}
    (h : ∀ a ∈ l, ∀ ts r, Ends (f a).run ts r → (∃ b, r = .ok b) ∨ mayFail) {ts : List Nat}
    {r : Except ε (List β)} (hends : Ends (l.mapM f).run ts r) : (∃ bs, r = .ok bs) ∨ mayFail := by
  induction l generalizing ts r with
  | nil => exact Or.inl ⟨[], (ends_pure_iff.1 hends).2⟩
  | cons a rest ih =>
    rw [List.mapM_cons] at hends
    rcases ends_bind_iff.1 hends with ⟨e, he, -⟩ | ⟨ts₁, ts₂, b, rfl, -, hends⟩
    · exact (h a List.mem_cons_self _ _ he).elim (fun ⟨_, heq⟩ => nomatch heq) Or.inr
    rcases ends_bind_iff.1 hends with ⟨e, he, -⟩ | ⟨ts₃, ts₄, bs, rfl, -, hends⟩
    · exact (ih (fun a ha => h a (List.mem_cons_of_mem _ ha)) he).elim
        (fun ⟨_, heq⟩ => nomatch heq) Or.inr
    · exact Or.inl ⟨b :: bs, (ends_pure_iff.1 hends).2⟩

end Attempt

/-! ## Deadlines -/

namespace Deadline

open Interaction (Ends)

variable {d : Deadline} {ts : List Nat} {phase : Phase} {r : Except EquivalenceError Unit}

/-- The deadline is later than all readings of the clock. -/
def Outlasts (d : Deadline) (ts : List Nat) : Prop := ∀ moment ∈ d.moment, ∀ t ∈ ts, t < moment

theorem outlasts_append {ts' : List Nat} :
    d.Outlasts (ts ++ ts') ↔ d.Outlasts ts ∧ d.Outlasts ts' := by
  simp only [Outlasts, List.forall_mem_append]
  exact ⟨fun h => ⟨fun m hm => (h m hm).1, fun m hm => (h m hm).2⟩,
    fun h m hm => ⟨h.1 m hm, h.2 m hm⟩⟩

@[simp] theorem outlasts_nil : d.Outlasts [] := by simp [Outlasts]

@[simp] theorem outlasts_never : never.Outlasts ts := by simp [Outlasts, never]

theorem outlasts_of_ends_isExpired {b : Bool} (h : Ends d.isExpired ts b) :
    b = false ↔ d.Outlasts ts := by
  unfold isExpired at h
  cases hmoment : d.moment with
  | none =>
    rw [hmoment] at h
    obtain ⟨rfl, rfl⟩ := Interaction.ends_done_iff.1 h
    simp
  | some moment =>
    rw [hmoment] at h
    obtain ⟨⟩ := h
    rename_i t ts h
    obtain ⟨rfl, rfl⟩ := Interaction.ends_done_iff.1 h
    simp [Outlasts, hmoment]

/-- An attempt that looks at the clock first goes on before the deadline only. -/
theorem ends_unless_isExpired {α : Type} {e : EquivalenceError} {x : Attempt EquivalenceError α}
    {r : Except EquivalenceError α}
    (h : Ends (do
      if ← d.isExpired then throw e
      x : Attempt EquivalenceError α).run ts r) :
    ¬ d.Outlasts ts ∧ r = .error e ∨
      ∃ ts₁ ts₂, ts = ts₁ ++ ts₂ ∧ d.Outlasts ts₁ ∧ Ends x.run ts₂ r := by
  rcases Attempt.ends_bind_iff.1 h with ⟨e, hx, -⟩ | ⟨ts₁, ts₂, b, rfl, hx, hf⟩
  · obtain ⟨a, -, ha⟩ := Attempt.ends_lift_iff.1 hx
    cases ha
  · obtain ⟨b', hb, ha⟩ := Attempt.ends_lift_iff.1 hx
    cases ha
    have houtlasts := outlasts_of_ends_isExpired hb
    cases b with
    | false => exact Or.inr ⟨ts₁, ts₂, rfl, houtlasts.1 rfl, hf⟩
    | true =>
      obtain ⟨rfl, rfl⟩ := Attempt.ends_throw_iff.1 hf
      refine Or.inl ⟨?_, rfl⟩
      rw [List.append_nil, ← houtlasts]
      decide

/-- A check succeeds exactly when the clock shows a time before the deadline. -/
theorem ends_check (h : Ends (d.check phase).run ts r) :
    d.Outlasts ts ∧ r = .ok () ∨ ¬ d.Outlasts ts ∧ r = .error (.timeout phase none) := by
  have hcheck : d.check phase = (do
    if ← d.isExpired then throw (.timeout phase none)
    pure ()) := rfl
  rw [hcheck] at h
  rcases ends_unless_isExpired h with hexpired | ⟨ts₁, ts₂, rfl, houtlasts, hdone⟩
  · exact Or.inr hexpired
  · obtain ⟨rfl, rfl⟩ := Attempt.ends_pure_iff.1 hdone
    exact Or.inl ⟨by rwa [List.append_nil], rfl⟩

/-- The clock shows a time that is at least a budget after an earlier one. -/
def Overruns (timeout : Option Nat) (ts : List Nat) : Prop :=
  ∃ budget ∈ timeout, ∃ start t, [start, t].Sublist ts ∧ start + budget ≤ t

theorem not_overruns_none : ¬ Overruns none ts := fun ⟨_, h, _⟩ => nomatch h

theorem Overruns.mono {timeout : Option Nat} {ts' : List Nat} (h : Overruns timeout ts)
    (hts : ts.Sublist ts') : Overruns timeout ts' := by
  obtain ⟨budget, hbudget, start, t, hsublist, hle⟩ := h
  exact ⟨budget, hbudget, start, t, hsublist.trans hts, hle⟩

/-- A deadline that passes is the end of a budget that the clock overruns. -/
theorem overruns_of_ends_after {timeout : Option Nat} {ts' : List Nat}
    (h : Ends (Deadline.after timeout) ts d) (hout : ¬ d.Outlasts ts') :
    Overruns timeout (ts ++ ts') := by
  cases timeout with
  | none =>
    obtain ⟨rfl, rfl⟩ := Interaction.ends_done_iff.1 h
    exact absurd outlasts_never hout
  | some budget =>
    obtain ⟨⟩ := h
    rename_i start ts h
    obtain ⟨rfl, rfl⟩ := Interaction.ends_done_iff.1 h
    simp only [Outlasts, Option.mem_def, Option.some.injEq, forall_eq', Classical.not_forall,
      Nat.not_lt] at hout
    obtain ⟨t, ht, hle⟩ := hout
    exact ⟨budget, rfl, start, t, (List.singleton_sublist.2 ht).cons_cons start, hle⟩

end Deadline

/-! ## Computations with a deadline -/

/-- Attempts that end with what a computation gives, or with a timeout where the clock reaches the
deadline. -/
def Deadline.Computes {α : Type} (d : Deadline) (phase : Phase) (x : Attempt EquivalenceError α)
    (y : Except Difference α) : Prop :=
  ∀ ts r, x.run.Ends ts r → d.Outlasts ts ∧ r = y.mapError .notEquivalent ∨
    ¬ d.Outlasts ts ∧ r = .error (.timeout phase none)

namespace Deadline.Computes

variable {α β : Type} {d : Deadline} {phase : Phase} {x : Attempt EquivalenceError α}
  {y : Except Difference α}

theorem pure (a : α) : d.Computes phase (pure a) (.ok a) := by
  intro ts r h
  obtain ⟨rfl, rfl⟩ := Attempt.ends_pure_iff.1 h
  exact Or.inl ⟨outlasts_nil, rfl⟩

theorem orDiffer (y : Except Difference α) : d.Computes phase (orDiffer y) y := by
  intro ts r h
  cases y with
  | ok a =>
    obtain ⟨rfl, rfl⟩ := Attempt.ends_pure_iff.1 h
    exact Or.inl ⟨outlasts_nil, rfl⟩
  | error difference =>
    obtain ⟨rfl, rfl⟩ := Attempt.ends_throw_iff.1 h
    exact Or.inl ⟨outlasts_nil, rfl⟩

theorem check : d.Computes phase (d.check phase) (.ok ()) := fun _ _ h => ends_check h

theorem bind {f : α → Attempt EquivalenceError β} {g : α → Except Difference β}
    (hx : d.Computes phase x y) (hf : ∀ a, d.Computes phase (f a) (g a)) :
    d.Computes phase (x >>= f) (y >>= g) := by
  intro ts r h
  rcases Attempt.ends_bind_iff.1 h with ⟨e, he, rfl⟩ | ⟨ts₁, ts₂, a, rfl, ha, hr⟩
  · rcases hx ts _ he with ⟨hout, heq⟩ | ⟨hout, heq⟩
    · cases y with
      | ok a => cases heq
      | error difference =>
        cases heq
        exact Or.inl ⟨hout, rfl⟩
    · cases heq
      exact Or.inr ⟨hout, rfl⟩
  · rcases hx ts₁ _ ha with ⟨hout, heq⟩ | ⟨-, heq⟩
    · cases y with
      | error difference => cases heq
      | ok a' =>
        cases heq
        rw [outlasts_append, and_iff_right hout]
        exact hf a ts₂ r hr
    · cases heq

theorem foldlM {γ : Type} {step : β → γ → Attempt EquivalenceError β}
    {step' : β → γ → Except Difference β} (h : ∀ b c, d.Computes phase (step b c) (step' b c))
    (b : β) (l : List γ) : d.Computes phase (l.foldlM step b) (l.foldlM step' b) := by
  induction l generalizing b with
  | nil => exact pure b
  | cons c rest ih =>
    rw [List.foldlM_cons, List.foldlM_cons]
    exact (h b c).bind ih

end Deadline.Computes

end CircuitEquiv
