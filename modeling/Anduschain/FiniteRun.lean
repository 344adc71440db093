import Mathlib.Logic.Basic

/-! Finite runs of a partial step function. A guard is a condition on the state
before a step and on its label; a run is guarded when every step it takes meets
the condition. -/
namespace FiniteRun
open List
variable {σ α : Type} (step : σ → α → Option σ)

/-- The state after the labels, or `none` when one of them cannot be taken. -/
def run : σ → List α → Option σ
  | s, [] => some s
  | s, a :: rest => (step s a).bind fun t => run t rest

/-- Every step the run takes meets the guard. -/
def Guarded (guard : σ → α → Prop) : σ → List α → Prop
  | _, [] => True
  | s, a :: rest =>
    match step s a with
    | none => True
    | some t => guard s a ∧ Guarded guard t rest

instance decidableGuarded (guard : σ → α → Prop) [∀ s a, Decidable (guard s a)] :
    ∀ s acts, Decidable (Guarded step guard s acts)
  | _, [] => inferInstanceAs (Decidable True)
  | s, a :: rest =>
    match h : step s a with
    | none => decidable_of_iff True (by simp [Guarded, h])
    | some t =>
      @decidable_of_iff _ (guard s a ∧ Guarded step guard t rest) (by simp [Guarded, h])
        (@instDecidableAnd _ _ _ (decidableGuarded guard t rest))

/-- The property holds in every state the run reaches. -/
def Always (P : σ → Prop) (s : σ) (acts : List α) : Prop :=
  ∀ before after t, acts = before ++ after → run step s before = some t → P t

variable {step} {s : σ} {guard : σ → α → Prop} {P : σ → Prop} {a : α} {rest : List α}
  {Inv : σ → Prop} {base : σ → α → Prop}

theorem run_cons {t : σ} :
    run step s (a :: rest) = some t ↔ ∃ u, step s a = some u ∧ run step u rest = some t := by
  simp [run, Option.bind_eq_some_iff]

theorem run_total (f : σ → α → σ) (s : σ) (acts : List α) :
    run (fun s a => some (f s a)) s acts = some (acts.foldl f s) := by
  induction acts generalizing s with
  | nil => rfl
  | cons a rest ih => exact ih (f s a)

theorem run_keeps (keeps : ∀ s a t, Inv s → guard s a → step s a = some t → Inv t) :
    ∀ {acts : List α} {s t : σ}, Inv s → Guarded step guard s acts → run step s acts = some t → Inv t
  | [], s, t, start, _, ran => by
      cases ran
      exact start
  | a :: rest, s, t, start, guarded, ran => by
      obtain ⟨u, stepped, ran⟩ := run_cons.mp ran
      simp only [Guarded, stepped] at guarded
      exact run_keeps keeps (keeps s a u start guarded.1 stepped) guarded.2 ran

theorem always_nil : Always step P s [] ↔ P s := by
  constructor
  · intro always
    exact always [] [] s rfl rfl
  · intro start before after t split ran
    obtain ⟨rfl, rfl⟩ := append_eq_nil_iff.mp split.symm
    cases ran
    exact start

theorem always_cons :
    Always step P s (a :: rest) ↔ P s ∧ ∀ t, step s a = some t → Always step P t rest := by
  constructor
  · intro always
    refine ⟨always [] _ s rfl rfl, ?_⟩
    rintro t stepped before after u rfl ran
    exact always (a :: before) after u rfl (run_cons.mpr ⟨t, stepped, ran⟩)
  · rintro ⟨start, later⟩ before after u split ran
    cases before with
    | nil =>
      cases ran
      exact start
    | cons b before =>
      obtain ⟨rfl, rfl⟩ := cons_eq_cons.mp split
      obtain ⟨t, stepped, ran⟩ := run_cons.mp ran
      exact later t stepped before after u rfl ran

/-- If the guard says exactly which steps keep a property, within a base guard and an invariant,
the property holds all along a run exactly when the run is guarded. -/
theorem always_iff_guarded_within (keeps : ∀ s a t, Inv s → base s a → step s a = some t → Inv t)
    (exact_guard : ∀ s a t, Inv s → P s → base s a → step s a = some t → (P t ↔ guard s a)) :
    ∀ {acts : List α} {s : σ}, Inv s → P s → Guarded step base s acts →
      (Always step P s acts ↔ Guarded step guard s acts)
  | [], s, _, start, _ => by simpa only [always_nil, Guarded, iff_true] using start
  | a :: rest, s, inv, start, based => by
      rw [always_cons, Guarded]
      rw [Guarded] at based
      cases stepped : step s a with
      | none => simpa using start
      | some t =>
        rw [stepped] at based
        have next_inv := keeps s a t inv based.1 stepped
        have kept := exact_guard s a t inv start based.1 stepped
        constructor
        · rintro ⟨-, later⟩
          have always := later t rfl
          have next : P t := always [] rest t rfl rfl
          exact ⟨kept.mp next,
            (always_iff_guarded_within keeps exact_guard next_inv next based.2).mp always⟩
        · rintro ⟨meets, guarded⟩
          refine ⟨start, ?_⟩
          rintro u ⟨⟩
          exact (always_iff_guarded_within keeps exact_guard next_inv (kept.mpr meets)
            based.2).mpr guarded

theorem always_iff_guarded
    (exact_guard : ∀ s a t, P s → base s a → step s a = some t → (P t ↔ guard s a))
    {acts : List α} (start : P s) (based : Guarded step base s acts) :
    Always step P s acts ↔ Guarded step guard s acts :=
  always_iff_guarded_within (fun _ _ _ _ _ _ => trivial) (fun s a t _ => exact_guard s a t)
    trivial start based

theorem guarded_of_forall :
    ∀ {acts : List α} {s : σ}, (∀ a ∈ acts, ∀ s, guard s a) → Guarded step guard s acts
  | [], _, _ => trivial
  | a :: rest, s, meets => by
      rw [Guarded]
      cases step s a with
      | none => trivial
      | some t =>
        exact ⟨meets a mem_cons_self s,
          guarded_of_forall fun b member => meets b (mem_cons_of_mem a member)⟩

theorem guarded_true (s : σ) (acts : List α) : Guarded step (fun _ _ => True) s acts :=
  guarded_of_forall fun _ _ _ => trivial

end FiniteRun
