import Mathlib.Logic.Basic

/-! Fallible code as a sequence of checks in `Except`: a rejection, a lookup that
must succeed, and the inversion rules that turn an accepted run into the facts
its checks established. -/
namespace CheckedSteps
variable {ε α β : Type}

def rejectIf (bad : Prop) [Decidable bad] (e : ε) : Except ε Unit := if bad then .error e else .ok ()

def orReject (x : Option α) (e : ε) : Except ε α :=
  match x with
  | some a => .ok a
  | none => .error e

variable {bad : Prop} {e : ε} {x : Except ε α}

@[simp] theorem rejectIf_eq_ok [Decidable bad] {u : Unit} : rejectIf bad e = .ok u ↔ ¬ bad := by
  unfold rejectIf
  split <;> simp_all

variable {a : α} {f : α → Except ε β} {b : β} {δ : Type} {e' : ε}

@[simp] theorem orReject_eq_ok {x : Option α} : orReject x e = .ok a ↔ x = some a := by
  cases x <;> simp [orReject]

@[simp] theorem bind_eq_ok : x >>= f = .ok b ↔ ∃ a, x = .ok a ∧ f a = .ok b := by
  cases x with
  | error e => simp [bind, Except.bind]
  | ok a => simp [bind, Except.bind]

@[simp] theorem mapError_eq_ok {g : ε → δ} : x.mapError g = .ok a ↔ x = .ok a := by
  cases x with
  | error e => exact ⟨by rintro ⟨⟩, by rintro ⟨⟩⟩
  | ok b =>
    change (.ok b : Except δ α) = .ok a ↔ _
    simp

@[simp] theorem map_eq_ok {f : α → β} : x.map f = .ok b ↔ ∃ a, x = .ok a ∧ f a = b := by
  cases x <;> simp [Except.map]

theorem bind_eq_error : x >>= f = .error e ↔ x = .error e ∨ ∃ a, x = .ok a ∧ f a = .error e := by
  cases x with
  | error e' => simp [bind, Except.bind]
  | ok a => simp [bind, Except.bind]

theorem rejectIf_eq_error [Decidable bad] : rejectIf bad e = .error e' ↔ bad ∧ e = e' := by
  unfold rejectIf
  split <;> simp_all

theorem rejectIf_congr {bad' : Prop} [Decidable bad] [Decidable bad'] (same : bad ↔ bad') (e : ε) :
    rejectIf bad e = rejectIf bad' e := by
  unfold rejectIf
  by_cases h : bad
  · rw [if_pos h, if_pos (same.mp h)]
  · rw [if_neg h, if_neg (mt same.mpr h)]

theorem orReject_eq_error {x : Option α} : orReject x e = .error e' ↔ x = none ∧ e = e' := by
  cases x <;> simp [orReject]

theorem mapError_eq_error {g : ε → δ} {d : δ} :
    x.mapError g = .error d ↔ ∃ e, x = .error e ∧ g e = d := by
  cases x with
  | error e =>
    change (.error (g e) : Except δ α) = .error d ↔ _
    simp
  | ok b => exact ⟨by rintro ⟨⟩, by rintro ⟨_, ⟨⟩, _⟩⟩

theorem exists_unit {p : Unit → Prop} : (∃ u, p u) ↔ p () := ⟨fun ⟨(), h⟩ => h, fun h => ⟨(), h⟩⟩

theorem forM_eq_ok {f : α → Except ε Unit} {xs : List α} :
    xs.forM f = .ok () ↔ ∀ x ∈ xs, f x = .ok () := by
  induction xs with
  | nil => exact iff_of_true rfl (by simp)
  | cons x xs ih =>
    have peel : (x :: xs).forM f = (f x >>= fun _ => xs.forM f) := rfl
    rw [peel, bind_eq_ok, exists_unit, ih, List.forall_mem_cons]

theorem exists_ok_of_toBool (h : x.toBool = true) : ∃ a, x = .ok a := by
  cases x with
  | error e => cases h
  | ok a => exact ⟨a, rfl⟩

end CheckedSteps
