import Mathlib.Data.List.Perm.Basic
import Mathlib.Logic.Equiv.Basic
import Mathlib.Tactic.ByContra

/-! Binary heaps in an array, with the loops of Go's container/heap: `up`, `down`, and `push`,
`pop` and `init` over them. They permute the elements, and under a strict weak order they keep
every element from being less than its parent. -/
namespace BinaryHeap
open List
open Equiv (swap_apply_right swap_apply_left swap_apply_of_ne_of_ne)
variable {α : Type}

/-- A strict order in which being not less is transitive. -/
class StrictWeak (less : α → α → Bool) : Prop where
  asymm : ∀ {x y : α}, less x y = true → less y x = false
  negTrans : ∀ {x y z : α}, less z y = false → less y x = false → less z x = false

section Loops
variable (less : α → α → Bool) (a : Array α)

def lessAt (i j : ℕ) : Bool :=
  match a[i]?, a[j]? with
  | some x, some y => less x y
  | _, _ => false

def parent (j : ℕ) : ℕ := (j - 1) / 2

/-- The loop moves to the parent, so it ends within `j` turns. -/
def up : ℕ → Array α → ℕ → Array α
  | 0, a, _ => a
  | turns + 1, a, j =>
    if parent j = j ∨ lessAt less a j (parent j) = false then a
    else up turns (a.swapIfInBounds (parent j) j) (parent j)

def child (i n : ℕ) : ℕ :=
  if 2 * i + 2 < n ∧ lessAt less a (2 * i + 2) (2 * i + 1) = true then 2 * i + 2 else 2 * i + 1

def down : ℕ → Array α → ℕ → ℕ → Array α
  | 0, a, _, _ => a
  | turns + 1, a, i, n =>
    if n ≤ 2 * i + 1 ∨ lessAt less a (child less a i n) i = false then a
    else down turns (a.swapIfInBounds i (child less a i n)) (child less a i n) n

def push (x : α) : Array α := up less a.size (a.push x) a.size

def rootLast : Array α :=
  down less (a.size - 1) (a.swapIfInBounds 0 (a.size - 1)) 0 (a.size - 1)

def pop : Option (α × Array α) :=
  (rootLast less a).back?.map fun x => (x, (rootLast less a).pop)

/-- `Init`: sifts down from the last parent to the root. -/
def init : Array α :=
  (List.range (a.size / 2)).reverse.foldl (fun a i => down less a.size a i a.size) a

end Loops

section Permutes
variable {less : α → α → Bool}

theorem swap_perm (a : Array α) (i j : ℕ) : (a.swapIfInBounds i j).toList.Perm a.toList := by
  unfold Array.swapIfInBounds
  split
  · split
    · exact (Array.swap_perm ..).toList
    · exact .refl _
  · exact .refl _

theorem up_perm (less : α → α → Bool) (turns : ℕ) (a : Array α) (j : ℕ) : (up less turns a j).toList.Perm a.toList := by
  induction turns generalizing a j with
  | zero => exact .refl _
  | succ turns ih =>
    rw [up]
    split
    · exact .refl _
    · exact (ih _ _).trans (swap_perm ..)

theorem down_perm (less : α → α → Bool) (turns : ℕ) (a : Array α) (i n : ℕ) :
    (down less turns a i n).toList.Perm a.toList := by
  induction turns generalizing a i with
  | zero => exact .refl _
  | succ turns ih =>
    rw [down]
    split
    · exact .refl _
    · exact (ih _ _).trans (swap_perm ..)

theorem push_perm (a : Array α) (x : α) : (push less a x).toList.Perm (x :: a.toList) := by
  refine (up_perm ..).trans ?_
  rw [Array.toList_push]
  exact perm_append_singleton x a.toList

theorem init_perm (a : Array α) : (init less a).toList.Perm a.toList := by
  unfold init
  generalize (List.range (a.size / 2)).reverse = is
  induction is generalizing a with
  | nil => exact .refl _
  | cons i is ih => exact (ih _).trans (down_perm ..)

theorem rootLast_perm (less : α → α → Bool) (a : Array α) : (rootLast less a).toList.Perm a.toList :=
  (down_perm ..).trans (swap_perm ..)

variable {a b : Array α} {x : α}

theorem size_eq_of_perm (perm : a.toList.Perm b.toList) : a.size = b.size :=
  perm.length_eq

theorem pop_eq_some : pop less a = some (x, b) ↔ rootLast less a = b.push x := by
  unfold pop
  constructor
  · intro popped
    obtain ⟨y, last, same⟩ := Option.map_eq_some_iff.mp popped
    obtain ⟨rfl, rfl⟩ := Prod.mk.inj same
    obtain ⟨front, split⟩ := Array.back?_eq_some_iff.mp last
    rw [split, Array.pop_push]
  · intro split
    rw [split, Array.back?_push, Option.map_some, Array.pop_push]

theorem pop_perm (popped : pop less a = some (x, b)) : a.toList.Perm (x :: b.toList) := by
  have split := rootLast_perm less a
  rw [pop_eq_some.mp popped, Array.toList_push] at split
  exact split.symm.trans (perm_append_singleton x b.toList)

theorem pop_eq_none : pop less a = none ↔ a = #[] := by
  rw [pop, Option.map_eq_none_iff, Array.back?_eq_none_iff]
  have size := size_eq_of_perm (rootLast_perm less a)
  constructor <;> intro empty <;> apply Array.eq_empty_of_size_eq_zero
  · rw [← size, empty, Array.size_empty]
  · rw [size, empty, Array.size_empty]

/-! Two comparisons that agree on the elements of an array have the same effect on it. -/

variable {less' : α → α → Bool}

end Permutes

section Order
variable {less : α → α → Bool} {j i n lo : ℕ} {a : Array α}

theorem parent_lt (inner : 0 < j) : parent j < j := by
  unfold parent
  omega

theorem parent_eq_iff (inner : 0 < j) : parent j = i ↔ j = 2 * i + 1 ∨ j = 2 * i + 2 := by
  unfold parent
  omega

theorem getElem?_swap (hi : i < a.size) (hj : j < a.size) (k : ℕ) :
    (a.swapIfInBounds i j)[k]? = a[Equiv.swap i j k]? := by
  rw [Array.swapIfInBounds, dif_pos hi, dif_pos hj, Array.getElem?_swap]
  by_cases atJ : k = j
  · rw [atJ, swap_apply_right]
    simp [hi]
  · by_cases atI : k = i
    · rw [atI, swap_apply_left]
      have apart : ¬ j = i := by
        rintro rfl
        exact atJ atI
      simp [apart, hj]
    · rw [swap_apply_of_ne_of_ne atI atJ, if_neg (Ne.symm atJ), if_neg (Ne.symm atI)]

theorem lessAt_swap (less : α → α → Bool) (hi : i < a.size) (hj : j < a.size) (k l : ℕ) :
    lessAt less (a.swapIfInBounds i j) k l =
      lessAt less a (Equiv.swap i j k) (Equiv.swap i j l) := by
  rw [lessAt, lessAt, getElem?_swap hi hj, getElem?_swap hi hj]

theorem lessAt_push {x : α} (hi : i < a.size) (hj : j < a.size) :
    lessAt less (a.push x) i j = lessAt less a i j := by
  rw [lessAt, lessAt, Array.getElem?_push_lt hi, Array.getElem?_push_lt hj,
    Array.getElem?_eq_getElem hi, Array.getElem?_eq_getElem hj]

theorem down_getElem? (turns : ℕ) (a : Array α) (i : ℕ) {k : ℕ} (inside : n ≤ a.size)
    (beyond : n ≤ k) : (down less turns a i n)[k]? = a[k]? := by
  induction turns generalizing a i with
  | zero => rfl
  | succ turns ih =>
    rw [down]
    split
    · rfl
    · rename_i go
      have lower : i < child less a i n ∧ child less a i n < n := by
        unfold child
        split <;> omega
      rw [ih _ _ (by rwa [Array.size_swapIfInBounds]), getElem?_swap (by omega) (by omega),
        swap_apply_of_ne_of_ne (by omega) (by omega)]

def OrderedFrom (less : α → α → Bool) (lo n : ℕ) (a : Array α) : Prop :=
  ∀ j, 0 < j → j < n → lo ≤ parent j → lessAt less a j (parent j) = false

/-- The order holds but for the element at `i`, whose children stand above its parent. -/
structure SinkReady (less : α → α → Bool) (lo n i : ℕ) (a : Array α) : Prop where
  others : ∀ j, 0 < j → j < n → lo ≤ parent j → parent j ≠ i → lessAt less a j (parent j) = false
  grand : 0 < i → lo ≤ parent i → ∀ j, 0 < j → j < n → parent j = i →
    lessAt less a j (parent i) = false

/-- The order holds but between `j` and its parent, which the children of `j` stand above. -/
structure RiseReady (less : α → α → Bool) (j : ℕ) (a : Array α) : Prop where
  others : ∀ k, 0 < k → k < a.size → k ≠ j → lessAt less a k (parent k) = false
  grand : 0 < j → ∀ k, 0 < k → k < a.size → parent k = j → lessAt less a k (parent j) = false

theorem SinkReady.finish (ready : SinkReady less lo n i a)
    (stop : ∀ j, 0 < j → j < n → parent j = i → lessAt less a j i = false) :
    OrderedFrom less lo n a := by
  intro j inner short deep
  by_cases under : parent j = i
  · rw [under]
    exact stop j inner short under
  · exact ready.others j inner short deep under

theorem RiseReady.finish (ready : RiseReady less j a)
    (stop : 0 < j → lessAt less a j (parent j) = false) : OrderedFrom less 0 a.size a := by
  intro k inner short _
  by_cases atJ : k = j
  · subst atJ
    exact stop inner
  · exact ready.others k inner short atJ

variable [StrictWeak less]

theorem lessAt_asymm (before : lessAt less a i j = true) : lessAt less a j i = false := by
  unfold lessAt at before ⊢
  cases hi : a[i]? with
  | none => simp [hi] at before
  | some x =>
    cases hj : a[j]? with
    | none => simp [hj] at before
    | some y =>
      rw [hi, hj] at before
      exact StrictWeak.asymm before

theorem lessAt_trans {k : ℕ} (inside : j < a.size)
    (upper : lessAt less a k j = false) (lower : lessAt less a j i = false) :
    lessAt less a k i = false := by
  unfold lessAt at upper lower ⊢
  rw [Array.getElem?_eq_getElem inside] at upper lower
  cases hk : a[k]? with
  | none => rfl
  | some z =>
    cases hi : a[i]? with
    | none => rfl
    | some x =>
      rw [hk] at upper
      rw [hi] at lower
      exact StrictWeak.negTrans upper lower

theorem lessAt_self (a : Array α) (i : ℕ) : lessAt less a i i = false := by
  by_contra before
  exact before (lessAt_asymm (eq_true_of_ne_false before))

theorem child_spec (less : α → α → Bool) [StrictWeak less] (a : Array α) (more : 2 * i + 1 < n) :
    i < child less a i n ∧ child less a i n < n ∧ parent (child less a i n) = i ∧
      ∀ j, 0 < j → j < n → parent j = i → lessAt less a j (child less a i n) = false := by
  unfold child
  split
  · rename_i right
    refine ⟨by omega, right.1, (parent_eq_iff (by omega)).mpr (.inr rfl), ?_⟩
    intro j inner below under
    rcases (parent_eq_iff inner).mp under with rfl | rfl
    · exact lessAt_asymm right.2
    · exact lessAt_self ..
  · rename_i left
    refine ⟨by omega, more, (parent_eq_iff (by omega)).mpr (.inl rfl), ?_⟩
    intro j inner below under
    rcases (parent_eq_iff inner).mp under with rfl | rfl
    · exact lessAt_self ..
    · exact eq_false_of_ne_true fun before => left ⟨below, before⟩

theorem SinkReady.step {c : ℕ} (ready : SinkReady less lo n i a) (low : lo ≤ i)
    (inside : n ≤ a.size) (lower : i < c) (below : c < n) (under : parent c = i)
    (least : ∀ j, 0 < j → j < n → parent j = i → lessAt less a j c = false)
    (before : lessAt less a c i = true) : SinkReady less lo n c (a.swapIfInBounds i c) := by
  have swapped := lessAt_swap less (show i < a.size by omega) (show c < a.size by omega)
  constructor
  · intro j inner short deep apart
    rw [swapped]
    by_cases atC : j = c
    · rw [atC, under, swap_apply_right, swap_apply_left]
      exact lessAt_asymm before
    · by_cases sibling : parent j = i
      · have notI : j ≠ i := by
          have := parent_lt inner
          omega
        rw [sibling, swap_apply_left, swap_apply_of_ne_of_ne notI atC]
        exact least j inner short sibling
      · by_cases atI : j = i
        · subst atI
          rw [swap_apply_left, swap_apply_of_ne_of_ne sibling apart]
          exact ready.grand inner deep c (by omega) below under
        · rw [swap_apply_of_ne_of_ne atI atC, swap_apply_of_ne_of_ne sibling apart]
          exact ready.others j inner short deep sibling
  · intro _ _ j inner short child
    have deeper := parent_lt inner
    rw [swapped, under, swap_apply_left, swap_apply_of_ne_of_ne (by omega) (by omega)]
    have kept := ready.others j inner short (by omega) (by omega)
    rwa [child] at kept

theorem down_ordered (turns : ℕ) (enough : n ≤ turns + i)
    (low : lo ≤ i) (inside : n ≤ a.size) (ready : SinkReady less lo n i a) :
    OrderedFrom less lo n (down less turns a i n) := by
  induction turns generalizing a i with
  | zero =>
    apply ready.finish
    intro j inner short under
    have := parent_lt inner
    omega
  | succ turns ih =>
    rw [down]
    split
    · rename_i stop
      apply ready.finish
      intro j inner short under
      have bounds := (parent_eq_iff inner).mp under
      rcases stop with bare | least
      · omega
      · obtain ⟨-, below, -, first⟩ := child_spec less a (show 2 * i + 1 < n by omega)
        exact lessAt_trans (by omega) (first j inner short under) least
    · rename_i go
      rw [not_or, Bool.not_eq_false] at go
      obtain ⟨lower, below, under, least⟩ :=
        child_spec less a (show 2 * i + 1 < n by omega)
      apply ih (by omega) (by omega)
      · rwa [Array.size_swapIfInBounds]
      · exact ready.step low inside lower below under least go.2

theorem RiseReady.step (ready : RiseReady less j a) (inner : 0 < j)
    (inside : j < a.size) (before : lessAt less a j (parent j) = true) :
    RiseReady less (parent j) (a.swapIfInBounds (parent j) j) := by
  have higher := parent_lt inner
  have swapped := lessAt_swap less (show parent j < a.size by omega) inside
  constructor
  · intro k innerK short apart
    rw [Array.size_swapIfInBounds] at short
    rw [swapped]
    by_cases atJ : k = j
    · rw [atJ, swap_apply_right, swap_apply_left]
      exact lessAt_asymm before
    · rw [swap_apply_of_ne_of_ne apart atJ]
      by_cases under : parent k = j
      · rw [under, swap_apply_right]
        exact ready.grand inner k innerK short under
      · have kept := ready.others k innerK short atJ
        by_cases sibling : parent k = parent j
        · rw [sibling, swap_apply_left]
          rw [sibling] at kept
          exact lessAt_trans (by omega) kept (lessAt_asymm before)
        · rwa [swap_apply_of_ne_of_ne sibling under]
  · intro innerP k innerK short under
    rw [Array.size_swapIfInBounds] at short
    have highest := parent_lt innerP
    have above := ready.others (parent j) innerP (by omega) (by omega)
    rw [swapped, swap_apply_of_ne_of_ne (by omega : parent (parent j) ≠ parent j) (by omega)]
    by_cases atJ : k = j
    · rwa [atJ, swap_apply_right]
    · have deeper := parent_lt innerK
      rw [swap_apply_of_ne_of_ne (by omega) atJ]
      have kept := ready.others k innerK short atJ
      rw [under] at kept
      exact lessAt_trans (by omega) kept above

theorem up_ordered (turns : ℕ) (enough : j ≤ turns) (inside : j < a.size)
    (ready : RiseReady less j a) : OrderedFrom less 0 a.size (up less turns a j) := by
  induction turns generalizing a j with
  | zero => exact ready.finish (by omega)
  | succ turns ih =>
    rw [up]
    split
    · rename_i stop
      apply ready.finish
      intro inner
      rcases stop with root | least
      · have := parent_lt inner
        omega
      · exact least
    · rename_i go
      rw [not_or, Bool.not_eq_false] at go
      have inner : 0 < j := by
        by_contra root
        obtain rfl : j = 0 := by omega
        exact go.1 rfl
      have higher := parent_lt inner
      have ordered := ih (by omega) (by rw [Array.size_swapIfInBounds]; omega)
        (ready.step inner inside go.2)
      rwa [Array.size_swapIfInBounds] at ordered

theorem OrderedFrom.root (ordered : OrderedFrom less 0 a.size a) (j : ℕ)
    (inside : j < a.size) : lessAt less a j 0 = false := by
  induction j using Nat.strongRecOn with
  | ind j ih =>
    by_cases inner : 0 < j
    · have higher := parent_lt inner
      exact lessAt_trans (by omega) (ordered j inner inside (Nat.zero_le _))
        (ih (parent j) higher (by omega))
    · obtain rfl : j = 0 := by omega
      exact lessAt_self ..

theorem push_ordered (ordered : OrderedFrom less 0 a.size a) (x : α) :
    OrderedFrom less 0 (push less a x).size (push less a x) := by
  have size := size_eq_of_perm (up_perm less a.size (a.push x) a.size)
  rw [push, size]
  apply up_ordered a.size (Nat.le_refl _) (by simp)
  constructor
  · intro k inner short notNew
    rw [Array.size_push] at short
    have higher := parent_lt inner
    rw [lessAt_push (by omega) (by omega)]
    exact ordered k inner (by omega) (Nat.zero_le _)
  · intro _ k inner short under
    rw [Array.size_push] at short
    have := parent_lt inner
    omega

theorem init_ordered (a : Array α) : OrderedFrom less 0 (init less a).size (init less a) := by
  have loop (m : ℕ) : ∀ a : Array α, OrderedFrom less m a.size a →
      OrderedFrom less 0 a.size
        ((List.range m).reverse.foldl (fun a i => down less a.size a i a.size) a) := by
    induction m with
    | zero =>
      intro a ordered
      exact ordered
    | succ m ih =>
      intro a ordered
      rw [range_succ, reverse_append, reverse_singleton, singleton_append, foldl_cons]
      have size := size_eq_of_perm (down_perm less a.size a m a.size)
      have sunk : OrderedFrom less m a.size (down less a.size a m a.size) := by
        apply down_ordered a.size (by omega) (Nat.le_refl _) (Nat.le_refl _)
        constructor
        · intro j inner short deep apart
          exact ordered j inner short (by omega)
        · intro inner deep
          have := parent_lt inner
          omega
      have rest := ih (down less a.size a m a.size) (by rwa [size])
      rwa [size] at rest
  rw [size_eq_of_perm (init_perm a)]
  apply loop
  intro j inner short deep
  unfold parent at deep
  omega

theorem pop_ordered {b : Array α} {x : α} (ordered : OrderedFrom less 0 a.size a)
    (popped : pop less a = some (x, b)) :
    OrderedFrom less 0 b.size b ∧ ∀ y ∈ a.toList, less y x = false := by
  have split := pop_eq_some.mp popped
  have size : a.size = b.size + 1 := (pop_perm popped).length_eq
  have root : a[0]? = some x := by
    have last : (rootLast less a)[a.size - 1]? = (a.swapIfInBounds 0 (a.size - 1))[a.size - 1]? :=
      down_getElem? _ _ _ (by simp) (Nat.le_refl _)
    rw [split, getElem?_swap (by omega) (by omega), swap_apply_right, size] at last
    rw [← last]
    simp
  constructor
  · have sunk : OrderedFrom less 0 (a.size - 1) (rootLast less a) := by
      apply down_ordered (a.size - 1) (by omega) (Nat.le_refl _) (by simp)
      constructor
      · intro j inner short _ apart
        rw [lessAt_swap less (by omega) (by omega),
          swap_apply_of_ne_of_ne (by omega) (by omega),
          swap_apply_of_ne_of_ne apart (by have := parent_lt inner; omega)]
        exact ordered j inner (by omega) (Nat.zero_le _)
      · omega
    intro j inner short _
    have kept := sunk j inner (by omega) (Nat.zero_le _)
    have higher := parent_lt inner
    rwa [split, lessAt_push (by omega) (by omega)] at kept
  · intro y member
    obtain ⟨j, inside, found⟩ := mem_iff_getElem.mp member
    have least := ordered.root j inside
    have atJ : a[j]? = some y := by
      rw [← Array.getElem?_toList, getElem?_eq_getElem inside, found]
    rwa [lessAt, root, atJ] at least

end Order

structure Heap (less : α → α → Bool) where
  items : Array α
  ordered : OrderedFrom less 0 items.size items

namespace Heap
variable {less : α → α → Bool}

def toList (h : Heap less) : List α := h.items.toList

def empty : Heap less where
  items := #[]
  ordered := fun j _ short => absurd short (Nat.not_lt_zero j)

variable [StrictWeak less]

def push (h : Heap less) (x : α) : Heap less where
  items := BinaryHeap.push less h.items x
  ordered := push_ordered h.ordered x

def ofList (xs : List α) : Heap less where
  items := BinaryHeap.init less xs.toArray
  ordered := init_ordered xs.toArray

def pop (h : Heap less) : Option (α × Heap less) :=
  match popped : BinaryHeap.pop less h.items with
  | none => none
  | some (x, rest) => some (x, ⟨rest, (pop_ordered h.ordered popped).1⟩)

variable {h rest : Heap less} {x y : α}

theorem mem_push : y ∈ (h.push x).toList ↔ y = x ∨ y ∈ h.toList := by
  rw [toList, push, (push_perm h.items x).mem_iff, mem_cons, toList]

theorem mem_ofList {xs : List α} : y ∈ (ofList xs : Heap less).toList ↔ y ∈ xs := by
  rw [toList, ofList, (init_perm _).mem_iff]

theorem pop_eq_some (popped : h.pop = some (x, rest)) :
    h.toList.Perm (x :: rest.toList) ∧ ∀ y ∈ h.toList, less y x = false := by
  unfold pop at popped
  split at popped
  · cases popped
  · rename_i y others found
    obtain ⟨rfl, rfl⟩ := Prod.mk.inj (Option.some.inj popped)
    exact ⟨pop_perm found, (pop_ordered h.ordered found).2⟩

theorem pop_eq_none (popped : h.pop = none) : h.toList = [] := by
  unfold pop at popped
  split at popped
  · rename_i found
    rw [toList, BinaryHeap.pop_eq_none.mp found]
  · cases popped

def drain : ℕ → Heap less → List α
  | 0, _ => []
  | turns + 1, h =>
    match h.pop with
    | none => []
    | some (x, rest) => x :: drain turns rest

def popOrder (h : Heap less) : List α := drain h.toList.length h

theorem popOrder_of_pop (popped : h.pop = some (x, rest)) : h.popOrder = x :: rest.popOrder := by
  rw [popOrder, (pop_eq_some popped).1.length_eq, length_cons, drain, popped]
  rfl

end Heap

end BinaryHeap
