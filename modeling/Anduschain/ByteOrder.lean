import Mathlib.Data.List.Induction
import Mathlib.Data.Nat.Log
import Mathlib.Tactic.Ring
import Mathlib.Tactic.Linarith

/-! Byte strings and their big-endian reading. Everything here is independent
of any wire format: a width-directed writer, the shortest writer, and the
reader that inverts both. -/
namespace ByteOrder
open List

abbrev Bytes := List UInt8

instance Bytes.lawfulBEq : LawfulBEq Bytes := inferInstance

def beNat (b : Bytes) : Nat := b.foldl (fun n x => n * 256 + x.toNat) 0

def beFixedOnto : Nat → Nat → Bytes → Bytes
  | 0, _, tail => tail
  | width + 1, n, tail => beFixedOnto width (n / 256) (UInt8.ofNat n :: tail)

/-- The low `width` bytes of a number, most significant first. -/
def beFixed (width n : Nat) : Bytes := beFixedOnto width n []

def beLen (n : Nat) : Nat := if n = 0 then 0 else n.log2 / 8 + 1

/-- The shortest big-endian form; zero is the empty string. -/
def beBytes (n : Nat) : Bytes := beFixed (beLen n) n

@[simp] theorem beNat_nil : beNat [] = 0 := rfl

theorem beNat_concat (b : Bytes) (x : UInt8) : beNat (b ++ [x]) = beNat b * 256 + x.toNat := by
  simp only [beNat, foldl_append, foldl_cons, foldl_nil]

theorem beNat_append (a b : Bytes) : beNat (a ++ b) = beNat a * 256 ^ b.length + beNat b := by
  induction b using List.reverseRecOn with
  | nil => simp
  | append_singleton b x ih =>
    rw [← append_assoc, beNat_concat, beNat_concat, ih]
    simp only [length_append, length_singleton, pow_succ]
    ring

theorem beNat_cons (x : UInt8) (b : Bytes) :
    beNat (x :: b) = x.toNat * 256 ^ b.length + beNat b := by
  have h := beNat_append [x] b
  simpa [beNat] using h

theorem beNat_single (x : UInt8) : beNat [x] = x.toNat := by
  simp [beNat]

theorem beNat_lt (b : Bytes) : beNat b < 256 ^ b.length := by
  induction b with
  | nil => simp
  | cons x b ih =>
    have hx := x.toNat_lt
    rw [beNat_cons, length_cons, pow_succ]
    nlinarith

theorem beFixedOnto_eq (width n : Nat) (tail : Bytes) :
    beFixedOnto width n tail = beFixed width n ++ tail := by
  induction width generalizing n tail with
  | zero => rfl
  | succ width ih =>
    rw [beFixed, beFixedOnto, beFixedOnto, ih, ih (n / 256) [UInt8.ofNat n]]
    simp

@[simp] theorem beFixed_zero (n : Nat) : beFixed 0 n = [] := rfl

theorem beFixed_succ (width n : Nat) :
    beFixed (width + 1) n = beFixed width (n / 256) ++ [UInt8.ofNat n] :=
  beFixedOnto_eq width (n / 256) [UInt8.ofNat n]

@[simp] theorem beFixed_length (width n : Nat) : (beFixed width n).length = width := by
  induction width generalizing n with
  | zero => rfl
  | succ width ih => simp [beFixed_succ, ih]

theorem beNat_beFixed (width n : Nat) : beNat (beFixed width n) = n % 256 ^ width := by
  induction width generalizing n with
  | zero => simp [Nat.mod_one]
  | succ width ih =>
    rw [beFixed_succ, beNat_concat, ih, UInt8.toNat_ofNat', Nat.pow_succ 256,
      Nat.mul_comm (256 ^ width) 256, Nat.mod_mul]
    omega

variable {n k : Nat} {b : Bytes}

theorem beNat_beFixed_of_lt {width : Nat} (h : n < 256 ^ width) : beNat (beFixed width n) = n := by
  rw [beNat_beFixed, Nat.mod_eq_of_lt h]

theorem beFixed_beNat (b : Bytes) : beFixed b.length (beNat b) = b := by
  induction b using List.reverseRecOn with
  | nil => rfl
  | append_singleton b x ih =>
    have hx : x.toNat < 256 := x.toNat_lt
    rw [length_append, length_singleton, beFixed_succ, beNat_concat]
    have hq : (beNat b * 256 + x.toNat) / 256 = beNat b := by omega
    rw [hq, ih]
    congr 2
    apply UInt8.toNat_inj.mp
    rw [UInt8.toNat_ofNat']
    omega

theorem beNat_inj {a : Bytes} (hlen : a.length = b.length) (h : beNat a = beNat b) : a = b := by
  rw [← beFixed_beNat a, ← beFixed_beNat b, hlen, h]

theorem beLen_bounds (h : n ≠ 0) : 256 ^ (beLen n - 1) ≤ n ∧ n < 256 ^ beLen n := by
  have lo : 2 ^ n.log2 ≤ n := Nat.log2_self_le h
  have hi : n < 2 ^ (n.log2 + 1) := Nat.lt_log2_self
  have pw (k : Nat) : 256 ^ k = 2 ^ (8 * k) := by rw [pow_mul]; norm_num
  simp only [beLen, if_neg h, pw, Nat.add_sub_cancel]
  constructor
  · exact (Nat.pow_le_pow_right (by decide) (by omega)).trans lo
  · exact hi.trans_le (Nat.pow_le_pow_right (by decide) (by omega))

theorem lt_beLen (n : Nat) : n < 256 ^ beLen n := by
  by_cases h : n = 0
  · simp [h]
  · exact (beLen_bounds h).2

@[simp] theorem beNat_beBytes (n : Nat) : beNat (beBytes n) = n :=
  beNat_beFixed_of_lt (lt_beLen n)

@[simp] theorem beBytes_length (n : Nat) : (beBytes n).length = beLen n := beFixed_length _ _

theorem beBytes_inj {m : Nat} (h : beBytes m = beBytes n) : m = n := by
  rw [← beNat_beBytes m, ← beNat_beBytes n, h]

@[simp] theorem beBytes_zero : beBytes 0 = [] := rfl

theorem beLen_le (h : n < 256 ^ k) : beLen n ≤ k := by
  by_cases hn : n = 0
  · simp [beLen, hn]
  · by_contra hk
    have lo := (beLen_bounds hn).1
    have : 256 ^ k ≤ 256 ^ (beLen n - 1) := Nat.pow_le_pow_right (by decide) (by omega)
    omega

theorem beLen_eq (lo : 256 ^ k ≤ n) (hi : n < 256 ^ (k + 1)) : beLen n = k + 1 := by
  have hn : n ≠ 0 := by have := Nat.pow_pos (n := k) (show 0 < 256 by decide); omega
  have upper := beLen_le hi
  by_contra hk
  have small : 256 ^ beLen n ≤ 256 ^ k := Nat.pow_le_pow_right (by decide) (by omega)
  have := lt_beLen n
  omega

theorem beLen_pos (h : n ≠ 0) : 0 < beLen n := by
  simp [beLen, h]

theorem beBytes_head {x : UInt8} (h : beBytes n = x :: b) : x ≠ 0 := by
  rintro rfl
  have hn : n ≠ 0 := by rintro rfl; simp at h
  have hlen : beLen n = b.length + 1 := by rw [← beBytes_length, h, length_cons]
  have value : n = beNat b := by rw [← beNat_beBytes n, h, beNat_cons]; simp
  have lo := (beLen_bounds hn).1
  rw [hlen, Nat.add_sub_cancel] at lo
  have := beNat_lt b
  omega

theorem beBytes_head_ne (n : Nat) : (beBytes n).head? ≠ some 0 := by
  intro zero
  obtain ⟨tail, split⟩ := head?_eq_some_iff.mp zero
  exact beBytes_head split rfl

theorem beBytes_low (pos : n ≠ 0) (low : n < 128) :
    (beBytes n).length = 1 ∧ (beBytes n).head?.any (· < 128) := by
  have one : beLen n = 1 := beLen_eq (k := 0) (by omega) (by omega)
  obtain ⟨x, single⟩ := length_eq_one_iff.mp ((beBytes_length n).trans one)
  have value : x.toNat = n := by rw [← beNat_beBytes n, single, beNat_single]
  refine ⟨(beBytes_length n).trans one, ?_⟩
  rw [single]
  simp only [head?_cons, Option.any_some, decide_eq_true_eq, UInt8.lt_iff_toNat_lt, value]
  exact low

end ByteOrder
