import Anduschain.GoCall
import Mathlib.Data.Set.Lattice

/-! Stores that are changed by single writes, and steps that read some keys of a store and then
write others. A list of such steps that is cut off after any of its writes can be run again from
the start without a trace of the first attempt, if no step reads what a later one overwrites. -/
namespace WriteLog
open List

variable {K V ε : Type} [DecidableEq K]

def applyWrite (store : K → V) (w : K × V) : K → V := Function.update store w.1 w.2

def applyWrites (ws : List (K × V)) (store : K → V) : K → V := ws.foldl applyWrite store

section Writes
variable {ws : List (K × V)} {s t : K → V} {k : K}

theorem applyWrites_append (vs ws : List (K × V)) (s : K → V) :
    applyWrites (vs ++ ws) s = applyWrites ws (applyWrites vs s) := foldl_append

theorem applyWrites_congr (same : (∃ w ∈ ws, w.1 = k) ∨ s k = t k) :
    applyWrites ws s k = applyWrites ws t k := by
  induction ws generalizing s t with
  | nil =>
    rcases same with ⟨w, member, -⟩ | same
    · exact absurd member not_mem_nil
    · exact same
  | cons w ws ih =>
    refine ih ?_
    by_cases here : k = w.1
    · exact .inr (by simp [applyWrite, here])
    · rcases same with ⟨v, member, touched⟩ | same
      · rcases mem_cons.mp member with rfl | later
        · exact absurd touched.symm here
        · exact .inl ⟨v, later, touched⟩
      · exact .inr (by simp [applyWrite, Function.update_of_ne here, same])

theorem applyWrites_untouched (other : ∀ w ∈ ws, w.1 ≠ k) : applyWrites ws s k = s k := by
  induction ws generalizing s with
  | nil => rfl
  | cons w ws ih =>
    obtain ⟨here, rest⟩ := forall_mem_cons.mp other
    exact (ih rest).trans (Function.update_of_ne here.symm _ _)

theorem applyWrites_value {v : V} (held : (∃ w ∈ ws, w.1 = k) ∨ s k = v)
    (same : ∀ w ∈ ws, w.1 = k → w.2 = v) : applyWrites ws s k = v := by
  rw [applyWrites_congr (t := fun _ => v) held]
  clear held
  induction ws with
  | nil => rfl
  | cons w ws ih =>
    obtain ⟨here, rest⟩ := forall_mem_cons.mp same
    change applyWrites ws (applyWrite (fun _ => v) w) k = v
    refine (applyWrites_congr (.inr ?_)).trans (ih rest)
    by_cases touched : k = w.1
    · rw [applyWrite, touched, Function.update_self, here touched.symm]
    · rw [applyWrite, Function.update_of_ne touched]

theorem applyWrites_replay (n : ℕ) : applyWrites ws (applyWrites (ws.take n) s) = applyWrites ws s := by
  funext k
  refine applyWrites_congr ?_
  by_cases touched : ∃ w ∈ ws, w.1 = k
  · exact .inl touched
  · exact .inr (applyWrites_untouched fun w member same =>
      touched ⟨w, mem_of_mem_take member, same⟩)

end Writes

structure Step (K V ε : Type) where
  run : (K → V) → GoCall ε (List (K × V))
  reads : Set K
  writes : Set K
  depends : ∀ s t, (∀ k ∈ reads, s k = t k) → run s = run t
  touches : ∀ s ws, run s = .returns ws → ∀ k, (∃ w ∈ ws, w.1 = k) ↔ k ∈ writes

def runAll : List (Step K V ε) → (K → V) → List (K × V) × GoCall ε Unit
  | [], _ => ([], .returns ())
  | step :: steps, s =>
    match step.run s with
    | .returns ws =>
      let (rest, outcome) := runAll steps (applyWrites ws s)
      (ws ++ rest, outcome)
    | .fails e => ([], .fails e)
    | .panics => ([], .panics)
    | .runs => ([], .runs)

/-- No step reads one of the keys before a step in front of it has written that key. -/
def Clean : List (Step K V ε) → Set K → Prop
  | [], _ => True
  | step :: steps, keys => (∀ k ∈ step.reads, k ∉ keys) ∧ Clean steps (keys \ step.writes)

section Runs
variable {step : Step K V ε} {steps : List (Step K V ε)} {s t : K → V}

theorem runAll_congr {keys : Set K} (clean : Clean steps keys) (same : ∀ k ∉ keys, s k = t k) :
    runAll steps s = runAll steps t := by
  induction steps generalizing s t keys with
  | nil => rfl
  | cons step steps ih =>
    have first : step.run s = step.run t := step.depends s t fun k read => same k (clean.1 k read)
    rw [runAll, runAll, ← first]
    cases ran : step.run s with
    | returns ws =>
      have rest : runAll steps (applyWrites ws s) = runAll steps (applyWrites ws t) := by
        refine ih clean.2 fun k clear => applyWrites_congr ?_
        rw [step.touches s ws ran]
        by_cases wrote : k ∈ step.writes
        · exact .inl wrote
        · exact .inr (same k fun member => clear ⟨member, wrote⟩)
      simp only [rest]
    | fails e => rfl
    | panics => rfl
    | runs => rfl

theorem runAll_writes {w : K × V} (member : w ∈ (runAll steps s).1) : ∃ q ∈ steps, w.1 ∈ q.writes := by
  induction steps generalizing s with
  | nil => exact absurd member not_mem_nil
  | cons step steps ih =>
    rw [runAll] at member
    split at member
    · rename_i ws ran
      rcases mem_append.mp member with here | later
      · exact ⟨step, mem_cons_self, (step.touches s ws ran w.1).mp ⟨w, here, rfl⟩⟩
      · obtain ⟨q, listed, wrote⟩ := ih later
        exact ⟨q, mem_cons_of_mem _ listed, wrote⟩
    all_goals exact absurd member not_mem_nil

/-- What the steps read is written in front of them or by none: a run cut off after any writes can
be repeated. -/
theorem runAll_replay (clean : Clean steps {k | ∃ q ∈ steps, k ∈ q.writes}) (s : K → V) (n : ℕ) :
    runAll steps (applyWrites ((runAll steps s).1.take n) s) = runAll steps s := by
  refine runAll_congr clean fun k clear => applyWrites_untouched fun w member same => clear ?_
  exact same ▸ runAll_writes (mem_of_mem_take member)

end Runs
end WriteLog
