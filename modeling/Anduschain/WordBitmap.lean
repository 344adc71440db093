import Anduschain.ByteOrder
import Mathlib.Data.List.GetD

/-! Bitmaps kept as lists of 256-bit words that grow on demand, and their big-endian bytes. Bit
`k` is bit `k % 256` of word `k / 256`. -/
namespace WordBitmap
open ByteOrder List

variable {words : List ℕ} {k quo rem : ℕ}

def bitAt (words : List ℕ) (k : ℕ) : Bool := (words.getD (k / 256) 0).testBit (k % 256)

def grow (quo : ℕ) (words : List ℕ) : List ℕ := words ++ List.replicate (quo + 1 - words.length) 0

def setBit (quo rem : ℕ) (words : List ℕ) : List ℕ := words.modify quo (· ||| 2 ^ rem)

def wordBytes (word : ℕ) : Bytes := List.replicate (32 - (beBytes word).length) 0 ++ beBytes word

def readBit (bytes : Bytes) (k : ℕ) : Bool :=
  (beNat ((bytes.drop (32 * (k / 256))).take 32)).testBit (k % 256)

theorem bitAt_grow : bitAt (grow quo words) k = bitAt words k := by
  unfold bitAt grow
  rcases Nat.lt_or_ge (k / 256) words.length with inside | outside
  · rw [getD_append _ _ _ _ inside]
  · rw [getD_append_right _ _ _ _ outside, getD_eq_default words 0 outside]
    rw [getD_eq_getElem?_getD, getElem?_getD_replicate_default_eq]

theorem length_grow : (grow quo words).length = max words.length (quo + 1) := by
  rw [grow, length_append, length_replicate]
  omega

theorem bitAt_setBit (inside : quo < words.length) (bit : rem < 256) :
    bitAt (setBit quo rem words) k = (bitAt words k || decide (k = 256 * quo + rem)) := by
  unfold bitAt setBit
  have here : k = 256 * quo + rem ↔ quo = k / 256 ∧ rem = k % 256 := by omega
  simp only [getD_eq_getElem?_getD, getElem?_modify, here]
  by_cases same : quo = k / 256
  · rw [← same, getElem?_eq_getElem inside]
    simp [Nat.testBit_or, Nat.testBit_two_pow]
  · simp [same]

theorem words_grow (small : ∀ word ∈ words, word < 2 ^ 256) :
    ∀ word ∈ grow quo words, word < 2 ^ 256 := by
  intro word member
  rcases mem_append.mp member with old | new
  · exact small word old
  · rw [eq_of_mem_replicate new]
    decide

theorem words_setBit (bit : rem < 256) (small : ∀ word ∈ words, word < 2 ^ 256) :
    ∀ word ∈ setBit quo rem words, word < 2 ^ 256 := by
  intro word member
  obtain ⟨i, found⟩ := mem_iff_getElem?.mp member
  rw [setBit, getElem?_modify] at found
  obtain ⟨old, listed, rfl⟩ := Option.map_eq_some_iff.mp found
  have before := small old (mem_of_getElem? listed)
  split
  · exact Nat.or_lt_two_pow before (Nat.pow_lt_pow_right (by decide) bit)
  · exact before

theorem length_wordBytes {word : ℕ} (small : word < 2 ^ 256) : (wordBytes word).length = 32 := by
  have width : (beBytes word).length ≤ 32 := by
    rw [beBytes_length]
    exact beLen_le (by simpa using small)
  rw [wordBytes, length_append, length_replicate]
  omega

theorem beNat_wordBytes (word : ℕ) : beNat (wordBytes word) = word := by
  have zeros (n : ℕ) : beNat (List.replicate n 0) = 0 := by
    induction n with
    | zero => rfl
    | succ n ih => rw [replicate_succ, beNat_cons, ih, UInt8.toNat_zero, Nat.zero_mul]
  rw [wordBytes, beNat_append, zeros, Nat.zero_mul, Nat.zero_add, beNat_beBytes]

theorem length_bytes (small : ∀ word ∈ words, word < 2 ^ 256) :
    (words.flatMap wordBytes).length = 32 * words.length := by
  induction words with
  | nil => rfl
  | cons word words ih =>
    obtain ⟨here, rest⟩ := forall_mem_cons.mp small
    rw [flatMap_cons, length_append, ih rest, length_wordBytes here, length_cons]
    omega

theorem readBit_bytes (small : ∀ word ∈ words, word < 2 ^ 256) :
    readBit (words.flatMap wordBytes) k = bitAt words k := by
  unfold readBit bitAt
  generalize k / 256 = i
  congr 1
  induction words generalizing i with
  | nil => simp
  | cons word words ih =>
    obtain ⟨here, rest⟩ := forall_mem_cons.mp small
    have width := length_wordBytes here
    cases i with
    | zero =>
      rw [flatMap_cons, Nat.mul_zero, drop_zero, take_left' width, beNat_wordBytes]
      rfl
    | succ i =>
      rw [flatMap_cons, Nat.mul_succ, Nat.add_comm, ← drop_drop, drop_left' width, ih rest]
      rfl

end WordBitmap
