import Mathlib.Data.List.Forall2

/-! Calls that may return, fail with an error, panic, or still run when the turns a model gives
them are used up; rules for sequences of such calls. -/
inductive GoCall (ε α : Type) where
  | returns (a : α)
  | fails (e : ε)
  | panics
  | runs
  deriving DecidableEq

namespace GoCall
variable {ε δ α β : Type}

instance : Monad (GoCall ε) where
  pure := returns
  bind x f :=
    match x with
    | returns a => f a
    | fails e => fails e
    | panics => panics
    | runs => runs

/-- An index or a slice expression, which panics out of range. -/
def orPanic (x : Option α) : GoCall ε α :=
  match x with
  | some a => returns a
  | none => panics

def mapFail (f : ε → δ) : GoCall ε α → GoCall δ α
  | returns a => returns a
  | fails e => fails (f e)
  | panics => panics
  | runs => runs

/-- The error is dropped, and the value that came with it is used. -/
def dropFail (a : α) : GoCall ε α → GoCall δ α
  | returns b => returns b
  | fails _ => returns a
  | panics => panics
  | runs => runs

def mapAll (f : α → GoCall ε β) : List α → GoCall ε (List β)
  | [] => returns []
  | x :: xs => do
    let y ← f x
    let ys ← mapAll f xs
    return y :: ys

def Returned : GoCall ε α → Prop
  | returns _ | fails _ => True
  | panics | runs => False

instance (x : GoCall ε α) : Decidable x.Returned :=
  match x with
  | returns _ | fails _ => .isTrue trivial
  | panics | runs => .isFalse id

@[simp] theorem bind_returns (a : α) (f : α → GoCall ε β) : (returns a >>= f) = f a := rfl

@[simp] theorem pure_eq (a : α) : (pure a : GoCall ε α) = returns a := rfl

variable {x : GoCall ε α} {f : α → GoCall ε β}

theorem bind_eq_returns {b : β} : (x >>= f) = returns b ↔ ∃ a, x = returns a ∧ f a = returns b := by
  cases x <;> simp [bind]

theorem bind_eq_panics : (x >>= f) = panics ↔ x = panics ∨ ∃ a, x = returns a ∧ f a = panics := by
  cases x <;> simp [bind]

theorem bind_eq_fails {e : ε} :
    (x >>= f) = fails e ↔ x = fails e ∨ ∃ a, x = returns a ∧ f a = fails e := by
  cases x <;> simp [bind]

theorem bind_eq_runs : (x >>= f) = runs ↔ x = runs ∨ ∃ a, x = returns a ∧ f a = runs := by
  cases x <;> simp [bind]

@[simp] theorem mapFail_eq_returns {f : ε → δ} {a : α} :
    x.mapFail f = returns a ↔ x = returns a := by
  cases x <;> simp [mapFail]

theorem mapFail_eq_fails {f : ε → δ} {d : δ} :
    x.mapFail f = fails d ↔ ∃ e, x = fails e ∧ f e = d := by
  cases x <;> simp [mapFail]

@[simp] theorem mapFail_eq_panics {f : ε → δ} : x.mapFail f = panics ↔ x = panics := by
  cases x <;> simp [mapFail]

@[simp] theorem mapFail_eq_runs {f : ε → δ} : x.mapFail f = runs ↔ x = runs := by
  cases x <;> simp [mapFail]

@[simp] theorem orPanic_eq_returns {x : Option α} {a : α} :
    (orPanic x : GoCall ε α) = returns a ↔ x = some a := by
  cases x <;> simp [orPanic]

theorem mapAll_eq_returns {xs : List α} {ys : List β} :
    mapAll f xs = returns ys ↔ List.Forall₂ (fun x y => f x = returns y) xs ys := by
  induction xs generalizing ys with
  | nil => simp [mapAll, eq_comm]
  | cons x xs ih =>
    simp only [mapAll, bind_eq_returns, ih, pure_eq, returns.injEq, List.forall₂_cons_left_iff]
    exact ⟨fun ⟨y, here, ys', rest, same⟩ => ⟨y, ys', here, rest, same.symm⟩,
      fun ⟨y, ys', here, rest, same⟩ => ⟨y, here, ys', rest, same.symm⟩⟩

theorem returned_iff : x.Returned ↔ x ≠ panics ∧ x ≠ runs := by
  cases x <;> simp [Returned]

theorem returned_bind (first : x.Returned)
    (next : ∀ a, x = returns a → (f a).Returned) : (x >>= f).Returned := by
  cases x with
  | returns a => exact next a rfl
  | fails e => trivial
  | panics => exact first.elim
  | runs => exact first.elim

end GoCall
