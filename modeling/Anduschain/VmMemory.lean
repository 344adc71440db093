import Anduschain.CheckedSteps
import Mathlib.Algebra.Order.Ring.Nat
import Mathlib.Data.UInt

/-! The memory of a frame of the virtual machine (core/vm): how an operation expands it, and what
the expansions cost. The bytes of the memory are left out. -/
namespace Anduschain.Vm
open CheckedSteps

def memoryGas : UInt64 := 3

def quadCoeffDiv : UInt64 := 512

structure Memory where
  len : UInt64
  lastGasCost : UInt64
  deriving DecidableEq

def newMemory : Memory := ⟨0, 0⟩

inductive GasError where
  | gasUintOverflow
  deriving DecidableEq

def toWordSize (size : UInt64) : UInt64 :=
  if 0xffffffffffffffff - 31 < size then 0xffffffffffffffff / 32 + 1 else (size + 31) / 32

def memoryGasCost (mem : Memory) (newMemSize : UInt64) : Except GasError (UInt64 × Memory) :=
  if newMemSize = 0 then .ok (0, mem)
  else if 0xffffffffe0 < newMemSize then .error .gasUintOverflow
  else
    let newMemSizeWords := toWordSize newMemSize
    if mem.len < newMemSizeWords * 32 then
      let square := newMemSizeWords * newMemSizeWords
      let newTotalFee := newMemSizeWords * memoryGas + square / quadCoeffDiv
      .ok (newTotalFee - mem.lastGasCost, { mem with lastGasCost := newTotalFee })
    else .ok (0, mem)

def Memory.resize (mem : Memory) (size : UInt64) : Memory :=
  if mem.len < size then { mem with len := size } else mem

/-- What a turn of `Run` charges for memory, and the memory after it. The size asked for is a big
integer. -/
def expand (mem : Memory) (memSize : ℕ) : Except GasError (UInt64 × Memory) := do
  rejectIf (2 ^ 64 ≤ memSize) .gasUintOverflow
  let words := toWordSize (UInt64.ofNat memSize)
  rejectIf (words ≠ 0 ∧ 0xffffffffffffffff / words < 32) .gasUintOverflow
  let (fee, mem) ← memoryGasCost mem (words * 32)
  return (fee, mem.resize (words * 32))

def expandAll (mem : Memory) : List ℕ → Except GasError (List UInt64 × Memory)
  | [] => return ([], mem)
  | size :: sizes => do
    let (fee, mem) ← expand mem size
    let (fees, mem) ← expandAll mem sizes
    return (fee :: fees, mem)

def Memory.words (mem : Memory) : ℕ := mem.len.toNat / 32

/-! What memory costs, in unbounded integers. -/

def memoryCost (w : ℕ) : ℕ := 3 * w + w * w / 512

def wordsFor (w memSize : ℕ) : ℕ := max w ((memSize + 31) / 32)

def exactCharges (w : ℕ) : List ℕ → List ℕ
  | [] => []
  | size :: sizes =>
    (memoryCost (wordsFor w size) - memoryCost w) :: exactCharges (wordsFor w size) sizes

def ExactGas (sizes : List ℕ) (charges : List UInt64) (mem : Memory) : Prop :=
  charges.map UInt64.toNat = exactCharges 0 sizes ∧
    (charges.map UInt64.toNat).sum = memoryCost mem.words

/-- The cost with the square taken in 64 bits. -/
def wrappedCost (w : ℕ) : ℕ := 3 * w + w * w % 2 ^ 64 / 512

structure Paid (mem : Memory) (w : ℕ) : Prop where
  len : mem.len.toNat = 32 * w
  small : w < 2 ^ 35
  cost : mem.lastGasCost.toNat = wrappedCost w

theorem paid_newMemory : Paid newMemory 0 := ⟨rfl, by decide, rfl⟩

variable {mem mem' : Memory} {w : ℕ}

theorem Paid.words (paid : Paid mem w) : mem.words = w := by
  rw [Memory.words, paid.len]
  omega

theorem wrappedCost_lt (small : w < 2 ^ 35) : wrappedCost w < 2 ^ 64 := by
  rw [wrappedCost]
  omega

theorem memoryCost_eq : memoryCost w = wrappedCost w + w * w / 2 ^ 64 * 2 ^ 55 := by
  rw [memoryCost, wrappedCost]
  omega

theorem square_fits : w * w / 2 ^ 64 = 0 ↔ w < 2 ^ 32 := by
  rw [Nat.div_eq_zero_iff_lt (by decide), show 2 ^ 64 = 2 ^ 32 * 2 ^ 32 from rfl,
    Nat.mul_self_lt_mul_self_iff]

theorem memoryCost_of_few (few : w < 2 ^ 32) : memoryCost w = wrappedCost w := by
  rw [memoryCost_eq, square_fits.mpr few, Nat.zero_mul, Nat.add_zero]

theorem few_of_memoryCost (small : w < 2 ^ 35)
    (same : wrappedCost w % 2 ^ 64 = memoryCost w % 2 ^ 64) : w < 2 ^ 32 := by
  have square : w * w < 2 ^ 35 * 2 ^ 35 := Nat.mul_lt_mul'' small small
  rw [memoryCost_eq] at same
  rw [← square_fits]
  omega

theorem memoryCost_mono {v : ℕ} (le : v ≤ w) : memoryCost v ≤ memoryCost w := by
  have square : v * v ≤ w * w := Nat.mul_le_mul le le
  rw [memoryCost, memoryCost]
  omega

theorem toWordSize_toNat {size : UInt64} : (toWordSize size).toNat = (size.toNat + 31) / 32 := by
  have bound := size.toNat_lt
  unfold toWordSize
  split
  case isTrue large =>
    have large : 0xffffffffffffffff - 31 < size.toNat := UInt64.lt_iff_toNat_lt.mp large
    change 0xffffffffffffffff / 32 + 1 = _
    omega
  case isFalse fits =>
    have fits : size.toNat ≤ 0xffffffffffffffff - 31 :=
      UInt64.le_iff_toNat_le.mp (UInt64.not_lt.mp fits)
    rw [UInt64.toNat_div, UInt64.toNat_add]
    change (size.toNat + 31) % 2 ^ 64 / 32 = _
    rw [Nat.mod_eq_of_lt (by omega)]

theorem newTotalFee_toNat {words : UInt64} (small : words.toNat < 2 ^ 35) :
    (words * memoryGas + words * words / quadCoeffDiv).toNat = wrappedCost words.toNat := by
  simp only [UInt64.toNat_add, UInt64.toNat_mul, UInt64.toNat_div, wrappedCost, memoryGas,
    quadCoeffDiv, UInt64.reduceToNat]
  omega

theorem mul_32_toNat {words : UInt64} (room : ¬ (words ≠ 0 ∧ 0xffffffffffffffff / words < 32)) :
    (words * 32).toNat = 32 * words.toNat := by
  have bound : words.toNat * 32 < 2 ^ 64 := by
    by_cases none : words = 0
    · rw [none]
      decide
    · have many : 32 ≤ 0xffffffffffffffff / words.toNat :=
        UInt64.le_iff_toNat_le.mp (UInt64.not_lt.mp fun less => room ⟨none, less⟩)
      have positive : 0 < words.toNat := Nat.pos_of_ne_zero fun h => none (UInt64.toNat_inj.mp h)
      have := (Nat.le_div_iff_mul_le positive).mp many
      omega
  rw [UInt64.toNat_mul, Nat.mul_comm 32]
  exact Nat.mod_eq_of_lt bound

theorem expand_paid {size : ℕ} {fee : UInt64} (paid : Paid mem w)
    (ran : expand mem size = .ok (fee, mem')) : Paid mem' (wordsFor w size) ∧
      fee.toNat = (2 ^ 64 - wrappedCost w + wrappedCost (wordsFor w size)) % 2 ^ 64 := by
  simp only [expand, bind_eq_ok, exists_unit, rejectIf_eq_ok] at ran
  obtain ⟨fits, room, ⟨charge, after⟩, charged, resized⟩ := ran
  generalize asked : toWordSize (UInt64.ofNat size) = words at room charged resized
  have count : words.toNat = (size + 31) / 32 := by
    rw [← asked, toWordSize_toNat, UInt64.toNat_ofNat', Nat.mod_eq_of_lt (by omega)]
  have whole := mul_32_toNat room
  obtain ⟨rfl, rfl⟩ := Prod.mk.inj (Except.ok.inj resized)
  have grown : mem.len < words * 32 ↔ w < words.toNat := by
    rw [UInt64.lt_iff_toNat_lt, paid.len, whole]
    omega
  rw [wordsFor, ← count]
  have again : toWordSize (words * 32) = words := by
    rw [← UInt64.toNat_inj, toWordSize_toNat, whole]
    omega
  by_cases less : w < words.toNat
  · unfold memoryGasCost at charged
    split at charged
    · rename_i zero
      rw [zero, UInt64.toNat_zero] at whole
      omega
    split at charged
    · cases charged
    rename_i small
    have small : words.toNat < 2 ^ 35 := by
      have := UInt64.le_iff_toNat_le.mp (UInt64.not_lt.mp small)
      rw [whole] at this
      change 32 * words.toNat ≤ 0xffffffffe0 at this
      omega
    rw [again, if_pos (grown.mpr less)] at charged
    obtain ⟨rfl, rfl⟩ := Prod.mk.inj (Except.ok.inj charged)
    rw [max_eq_right less.le, Memory.resize, if_pos (grown.mpr less), UInt64.toNat_sub,
      newTotalFee_toNat small, paid.cost]
    exact ⟨⟨whole, small, newTotalFee_toNat small⟩, rfl⟩
  · have still : charge = 0 ∧ after = mem := by
      have kept : ¬ mem.len < toWordSize (words * 32) * 32 := by
        rw [again]
        exact mt grown.mp less
      unfold memoryGasCost at charged
      rw [if_neg kept] at charged
      split_ifs at charged
      · cases charged
        exact ⟨rfl, rfl⟩
      · cases charged
        exact ⟨rfl, rfl⟩
    obtain ⟨rfl, rfl⟩ := still
    rw [max_eq_left (by omega), Memory.resize, if_neg (mt grown.mp less),
      Nat.sub_add_cancel (Nat.le_of_lt (wrappedCost_lt paid.small))]
    exact ⟨paid, rfl⟩

theorem expandAll_paid {sizes : List ℕ} {fees : List UInt64}
    (paid : Paid mem w) (ran : expandAll mem sizes = .ok (fees, mem')) :
    ∃ v, w ≤ v ∧ Paid mem' v ∧
      (wrappedCost w + (fees.map UInt64.toNat).sum) % 2 ^ 64 = wrappedCost v % 2 ^ 64 ∧
      (v < 2 ^ 32 → fees.map UInt64.toNat = exactCharges w sizes ∧
        memoryCost w + (fees.map UInt64.toNat).sum = memoryCost v) := by
  induction sizes generalizing mem w fees with
  | nil =>
    cases ran
    exact ⟨w, le_rfl, paid, by simp, fun _ => ⟨rfl, by simp⟩⟩
  | cons size sizes ih =>
    simp only [expandAll, bind_eq_ok, Prod.exists] at ran
    obtain ⟨fee, next, first, rest, last, others, done⟩ := ran
    obtain ⟨rfl, rfl⟩ := Prod.mk.inj (Except.ok.inj done)
    obtain ⟨here, charged⟩ := expand_paid paid first
    obtain ⟨v, above, final, wrapped, counted⟩ := ih here others
    have before := wrappedCost_lt paid.small
    have grows : w ≤ wordsFor w size := le_max_left _ _
    rw [List.map_cons, List.sum_cons]
    refine ⟨v, grows.trans above, final, by omega, fun few => ?_⟩
    obtain ⟨same, total⟩ := counted few
    have mono := memoryCost_mono grows
    have paidFor : fee.toNat = memoryCost (wordsFor w size) - memoryCost w := by
      have after := wrappedCost_lt here.small
      rw [memoryCost_of_few (by omega), memoryCost_of_few (by omega)] at mono ⊢
      omega
    rw [exactCharges, ← same, paidFor]
    exact ⟨rfl, by omega⟩

/-- The gas charged for memory is exact if and only if the memory stays below 2 ^ 32 words. -/
theorem memory_gas_exact_iff (sizes : List ℕ) (charges : List UInt64) (mem : Memory)
    (ran : expandAll newMemory sizes = .ok (charges, mem)) :
    ExactGas sizes charges mem ↔ mem.words < 2 ^ 32 := by
  obtain ⟨w, -, paid, wrapped, counted⟩ := expandAll_paid paid_newMemory ran
  rw [ExactGas, paid.words]
  constructor
  · rintro ⟨-, total⟩
    refine few_of_memoryCost paid.small ?_
    rw [← wrapped, total, show wrappedCost 0 = 0 from rfl, Nat.zero_add]
  · intro few
    obtain ⟨same, total⟩ := counted few
    exact ⟨same, by rwa [show memoryCost 0 = 0 from rfl, Nat.zero_add] at total⟩

theorem sampleFrame_exact : ∃ charges mem, expandAll newMemory [64, 32, 100] = .ok (charges, mem) ∧
    ExactGas [64, 32, 100] charges mem :=
  ⟨[6, 0, 6], ⟨128, 12⟩, rfl, (memory_gas_exact_iff _ _ _ rfl).mpr (by decide)⟩

/-- 2 ^ 32 words: their square is 0 in 64 bits, and 3 * 2 ^ 32 is all that is charged. -/
theorem sampleFrame_undercharged : ∃ mem, expandAll newMemory [2 ^ 37] = .ok ([3 * 2 ^ 32], mem) ∧
    memoryCost mem.words = 3 * 2 ^ 32 + 2 ^ 55 ∧ ¬ ExactGas [2 ^ 37] [3 * 2 ^ 32] mem :=
  ⟨⟨2 ^ 37, 3 * 2 ^ 32⟩, by decide, by decide, fun paid => absurd paid.2 (by decide)⟩

end Anduschain.Vm
