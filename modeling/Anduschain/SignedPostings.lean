import Mathlib.Algebra.Order.BigOperators.Group.List
import Mathlib.Algebra.Order.Ring.Int
import Mathlib.Tactic.Linarith

/-! Signed amounts posted to accounts: what a list of postings adds up to for one account,
and when a book without debts can take them and still have none. -/
namespace SignedPostings
open List
variable {α : Type} [DecidableEq α]

def net (postings : List (α × ℤ)) (a : α) : ℤ :=
  (postings.map fun p => if a = p.1 then p.2 else 0).sum

@[simp] theorem net_nil (a : α) : net ([] : List (α × ℤ)) a = 0 := rfl

@[simp] theorem net_cons (p : α × ℤ) (postings : List (α × ℤ)) (a : α) :
    net (p :: postings) a = (if a = p.1 then p.2 else 0) + net postings a := by
  simp [net]

@[simp] theorem net_append (left right : List (α × ℤ)) (a : α) :
    net (left ++ right) a = net left a + net right a := by
  simp [net]

def Covered (balance : α → ℤ) (postings : List (α × ℤ)) : Prop :=
  ∀ p ∈ postings, 0 ≤ balance p.1 + net postings p.1

instance (balance : α → ℤ) (postings : List (α × ℤ)) : Decidable (Covered balance postings) :=
  inferInstanceAs (Decidable (∀ p ∈ postings, 0 ≤ balance p.1 + net postings p.1))

variable {postings : List (α × ℤ)} {balance : α → ℤ}

theorem net_of_not_mem {a : α} (untouched : ∀ p ∈ postings, p.1 ≠ a) : net postings a = 0 := by
  induction postings with
  | nil => rfl
  | cons p postings ih =>
    have other : a ≠ p.1 := fun same => untouched p mem_cons_self same.symm
    rw [net_cons, if_neg other, zero_add]
    exact ih fun q member => untouched q (mem_cons_of_mem _ member)

theorem covered_iff (start : ∀ a, 0 ≤ balance a) :
    Covered balance postings ↔ ∀ a, 0 ≤ balance a + net postings a := by
  constructor
  · intro covered a
    by_cases touched : ∃ p ∈ postings, p.1 = a
    · obtain ⟨p, member, rfl⟩ := touched
      exact covered p member
    · rw [net_of_not_mem fun p member same => touched ⟨p, member, same⟩, add_zero]
      exact start a
  · intro solvent p _
    exact solvent p.1

theorem covered_of_credits (start : ∀ a, 0 ≤ balance a)
    (credits : ∀ p ∈ postings, 0 ≤ p.2) : Covered balance postings := by
  intro p _
  have gained : 0 ≤ net postings p.1 := by
    apply sum_nonneg
    intro x member
    obtain ⟨q, posted, rfl⟩ := mem_map.mp member
    split
    · exact credits q posted
    · exact le_rfl
  exact add_nonneg (start p.1) gained

end SignedPostings
