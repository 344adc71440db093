import Mathlib.Data.List.Basic
import Mathlib.Logic.Function.Basic

/-! A table that remembers the results of a fallible function under a key of its argument.
Failures are not remembered, and what the table gives up to make room is left open. -/
namespace MemoTable
open List
variable {α κ β ε : Type} (key : α → κ) (f : α → Except ε β)

def ask (table : κ → Option β) (a : α) : Except ε β :=
  match table (key a) with
  | some b => .ok b
  | none => f a

/-- A new result goes into the table; the entries under `dropped` make room for it. -/
def learn [DecidableEq κ] (table : κ → Option β) (a : α) (dropped : κ → Bool) : κ → Option β :=
  match table (key a), f a with
  | none, .ok b => Function.update (fun k => if dropped k then none else table k) (key a) (some b)
  | _, _ => table

def answers [DecidableEq κ] (table : κ → Option β) : List (α × (κ → Bool)) → List (Except ε β)
  | [] => []
  | (a, dropped) :: rest => ask key f table a :: answers (learn key f table a dropped) rest

def Backed (table : κ → Option β) (asked : α → Prop) : Prop :=
  ∀ k b, table k = some b → ∃ a, asked a ∧ key a = k ∧ f a = .ok b

variable {key f} {table : κ → Option β} {asked : α → Prop} {a : α} {dropped : κ → Bool}

theorem ask_eq_of_backed (backed : Backed key f table asked)
    (agree : ∀ other, asked other → key other = key a → ∀ b, f other = .ok b → f a = .ok b) :
    ask key f table a = f a := by
  unfold ask
  split
  case h_1 b entry =>
    obtain ⟨other, old, same, result⟩ := backed _ _ entry
    exact (agree other old same b result).symm
  case h_2 => rfl

variable [DecidableEq κ]

theorem learn_cases (key : α → κ) (f : α → Except ε β) (table : κ → Option β) (a : α)
    (dropped : κ → Bool) :
    learn key f table a dropped = table ∨
      table (key a) = none ∧ ∃ b, f a = .ok b ∧ learn key f table a dropped =
        Function.update (fun k => if dropped k then none else table k) (key a) (some b) := by
  unfold learn
  cases entry : table (key a) with
  | some v => exact .inl rfl
  | none =>
    cases result : f a with
    | error e => exact .inl rfl
    | ok b => exact .inr ⟨rfl, b, rfl, rfl⟩

theorem Backed.learn (backed : Backed key f table asked) :
    Backed key f (learn key f table a dropped) fun other => asked other ∨ other = a := by
  intro k b entry
  obtain unchanged | ⟨-, v, result, changed⟩ := learn_cases key f table a dropped
  · obtain ⟨other, old, found⟩ := backed k b (unchanged ▸ entry)
    exact ⟨other, .inl old, found⟩
  · rw [changed] at entry
    by_cases here : k = key a
    · subst here
      rw [Function.update_self, Option.some.injEq] at entry
      exact ⟨a, .inr rfl, rfl, entry ▸ result⟩
    · rw [Function.update_of_ne here] at entry
      split at entry
      · cases entry
      · obtain ⟨other, old, found⟩ := backed k b entry
        exact ⟨other, .inl old, found⟩

theorem learn_keeps {k : κ} {b : β} (entry : table k = some b) :
    learn key f table a (fun _ => false) k = some b := by
  obtain unchanged | ⟨missing, v, -, changed⟩ := learn_cases key f table a fun _ => false
  · rw [unchanged, entry]
  · have elsewhere : k ≠ key a := by
      rintro rfl
      rw [missing] at entry
      cases entry
    rw [changed, Function.update_of_ne elsewhere]
    exact entry

theorem learn_self {b : β} (answer : ask key f table a = .ok b) :
    learn key f table a (fun _ => false) (key a) = some b := by
  cases entry : table (key a) with
  | some v =>
    rw [ask, entry] at answer
    cases answer
    exact learn_keeps entry
  | none =>
    rw [ask, entry] at answer
    simp only [learn, entry, answer, Function.update_self]

def Agree (key : α → κ) (f : α → Except ε β) (a b : α) : Prop :=
  key a = key b → ∀ v, f a = .ok v → f b = .ok v

theorem answers_of_agree {calls : List (α × (κ → Bool))} (backed : Backed key f table asked)
    (old : ∀ a, asked a → ∀ call ∈ calls, Agree key f a call.1)
    (agree : (calls.map Prod.fst).Pairwise (Agree key f)) :
    answers key f table calls = (calls.map Prod.fst).map f := by
  induction calls generalizing table asked with
  | nil => rfl
  | cons call rest ih =>
    obtain ⟨a, dropped⟩ := call
    rw [map_cons, pairwise_cons] at agree
    have here : ask key f table a = f a :=
      ask_eq_of_backed backed fun other known same =>
        old other known (a, dropped) (mem_cons_self ..) same
    rw [answers, here, ih backed.learn ?_ agree.2]
    · rfl
    · rintro other (known | rfl) call member
      · exact old other known call (mem_cons_of_mem _ member)
      · exact agree.1 call.1 (mem_map_of_mem member)

theorem agree_of_answers {as : List α}
    (right : answers key f table (as.map fun a => (a, fun _ => false)) = as.map f) :
    (∀ k b, table k = some b → ∀ a ∈ as, key a = k → f a = .ok b) ∧ as.Pairwise (Agree key f) := by
  induction as generalizing table with
  | nil => simp
  | cons a rest ih =>
    rw [map_cons, answers, map_cons, List.cons.injEq] at right
    obtain ⟨later, pairs⟩ := ih right.2
    constructor
    · intro k b entry x member same
      rcases mem_cons.mp member with rfl | member
      · subst same
        rw [← right.1, ask, entry]
      · exact later k b (learn_keeps entry) x member same
    · rw [pairwise_cons]
      refine ⟨?_, pairs⟩
      intro x member same b result
      exact later (key a) b (learn_self (right.1.trans result)) x member same.symm

theorem transparent_iff {as : List α} :
    (∀ calls : List (α × (κ → Bool)), calls.map Prod.fst = as →
      answers key f (fun _ => none) calls = as.map f) ↔ as.Pairwise (Agree key f) := by
  constructor
  · intro right
    refine (agree_of_answers (right (as.map fun a => (a, fun _ => false)) ?_)).2
    rw [map_map]
    exact map_id as
  · rintro agree calls rfl
    have backed : Backed key f (fun _ => none) fun _ => False := fun _ _ entry => nomatch entry
    exact answers_of_agree backed (fun _ never => never.elim) agree

end MemoTable
