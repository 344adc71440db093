import Mathlib.Data.BitVec
import Mathlib.Data.Int.Bitwise
import Mathlib.Data.Nat.Digits.Lemmas

/-! Arithmetic opcodes of the virtual machine (core/vm/instructions.go, common/math/big.go). The
stack holds big integers; an integer that is popped, or the one on top, is worked on in place. -/
namespace Anduschain.Vm
open BitVec hiding neg_neg not_or

abbrev Word := BitVec 256

def tt255 : ℤ := 2 ^ 255

def tt256m1 : ℤ := (2 ^ 256 - 1 : ℕ)

def u256 (x : ℤ) : ℤ := x.land tt256m1

def s256 (x : ℤ) : ℤ := if x < tt255 then x else x - 2 ^ 256

def bits (x : ℕ) : List ℕ := Nat.digits (2 ^ 64) x

def expWord : ℕ → ℕ → ℤ × ℤ → ℤ × ℤ
  | 0, _, s => s
  | i + 1, word, (result, base) =>
    expWord i (word / 2) (if word % 2 = 1 then u256 (result * base) else result, u256 (base * base))

def exp (base exponent : ℤ) : ℤ :=
  ((bits exponent.toNat).foldl (fun s word => expWord 64 word s) (1, base)).1

def bigEndianByteAt (x : ℤ) (n : ℕ) : ℕ :=
  match (bits x.toNat)[n / 8]? with
  | none => 0
  | some word => word >>> (8 * (n % 8)) % 256

def byte (x : ℤ) (padlength n : ℕ) : ℕ :=
  if padlength ≤ n then 0 else bigEndianByteAt x (padlength - 1 - n)

/-- The stack from its top, and `none` where an operation finds too few items. -/
abbrev Op := List ℤ → Option (List ℤ)

def opSdiv : Op
  | x :: y :: stack =>
    let x := s256 x
    let y := s256 y
    if y.sign = 0 ∨ x.sign = 0 then some (0 :: stack)
    else if x.sign ≠ y.sign then some (u256 (-(|x| / |y|)) :: stack)
    else some (u256 (|x| / |y|) :: stack)
  | _ => none

def opSmod : Op
  | x :: y :: stack =>
    let x := s256 x
    let y := s256 y
    if y.sign = 0 then some (0 :: stack)
    else if x.sign < 0 then some (u256 (-(|x| % |y|)) :: stack)
    else some (u256 (|x| % |y|) :: stack)
  | _ => none

def opExp : Op
  | base :: exponent :: stack => some (exp base exponent :: stack)
  | _ => none

/-- From 31 on the second item stays as it is. -/
def opSignExtend : Op
  | back :: stack =>
    if back < 31 then
      match stack with
      | num :: stack =>
        let bit := back.toNat * 8 + 7
        let mask := 2 ^ bit - 1
        some (u256 (if num.testBit bit then num.lor mask.lnot else num.land mask) :: stack)
      | [] => none
    else some stack
  | [] => none

def opByte : Op
  | th :: val :: stack => some ((if th < 32 then (byte val 32 th.toNat : ℤ) else 0) :: stack)
  | _ => none

def opAddmod : Op
  | x :: y :: z :: stack => some ((if 0 < z then u256 ((x + y) % z) else 0) :: stack)
  | _ => none

def opMulmod : Op
  | x :: y :: z :: stack => some ((if 0 < z then u256 (x * y % z) else 0) :: stack)
  | _ => none

def opSlt : Op
  | x :: y :: stack =>
    some ((if tt255 ≤ x ∧ y < tt255 then 1 else if x < tt255 ∧ tt255 ≤ y then 0
      else if x < y then 1 else 0) :: stack)
  | _ => none

def opSgt : Op
  | x :: y :: stack =>
    some ((if tt255 ≤ x ∧ y < tt255 then 0 else if x < tt255 ∧ tt255 ≤ y then 1
      else if y < x then 1 else 0) :: stack)
  | _ => none

def opSHL : Op
  | shift :: value :: stack =>
    some ((if 256 ≤ u256 shift then 0 else u256 (u256 value <<< (u256 shift).toNat)) :: stack)
  | _ => none

def opSHR : Op
  | shift :: value :: stack =>
    some ((if 256 ≤ u256 shift then 0 else u256 (u256 value >>> (u256 shift).toNat)) :: stack)
  | _ => none

def opSAR : Op
  | shift :: value :: stack =>
    let value := s256 value
    some (u256 (if 256 ≤ u256 shift then if 0 ≤ value.sign then 0 else -1
      else value >>> (u256 shift).toNat) :: stack)
  | _ => none

def val (x : Word) : ℤ := x.toNat

theorem getLsbD_ofInt (x : ℤ) {i : ℕ} (inside : i < 256) :
    (BitVec.ofInt 256 x).getLsbD i = x.testBit i := by
  cases x with
  | ofNat n =>
    rw [Int.ofNat_eq_natCast, ofInt_natCast, getLsbD_ofNat, decide_eq_true inside]
    rfl
  | negSucc n =>
    rw [ofInt_negSucc_eq_not_ofNat, getLsbD_not, getLsbD_ofNat, decide_eq_true inside]
    rfl

theorem u256_eq (x : ℤ) : u256 x = val (BitVec.ofInt 256 x) := by
  obtain ⟨n, natural⟩ : ∃ n : ℕ, u256 x = n := by
    cases x <;> exact ⟨_, rfl⟩
  rw [natural, val, Nat.cast_inj]
  refine Nat.eq_of_testBit_eq fun i => ?_
  have mask : tt256m1.testBit i = decide (i < 256) := Nat.testBit_two_pow_sub_one 256 i
  have masked : n.testBit i = (x.testBit i && decide (i < 256)) := by
    rw [← mask, ← Int.testBit_land]
    exact (congrArg (·.testBit i) natural).symm
  rw [masked, testBit_toNat]
  by_cases inside : i < 256
  · rw [getLsbD_ofInt x inside, decide_eq_true inside, Bool.and_true]
  · rw [getLsbD_of_ge _ _ (Nat.not_lt.mp inside), decide_eq_false inside, Bool.and_false]

theorem ofInt_val (x : Word) : BitVec.ofInt 256 (val x) = x := by
  rw [val, ofInt_natCast, ofNat_toNat, setWidth_eq]

@[simp] theorem u256_val (x : Word) : u256 (val x) = val x := by
  rw [u256_eq, ofInt_val]

@[simp] theorem s256_val (x : Word) : s256 (val x) = x.toInt := by
  rw [s256, val, toInt_eq_toNat_cond, tt255]
  split_ifs <;> omega

theorem u256_mul (x y : Word) : u256 (val x * val y) = val (x * y) := by
  rw [u256_eq, ofInt_mul, ofInt_val, ofInt_val]

theorem u256_natCast (n : ℕ) : u256 n = val (BitVec.ofNat 256 n) := by
  rw [u256_eq, ofInt_natCast]

theorem expWord_val (i word : ℕ) (result base : Word) : expWord i word (val result, val base) =
    (val (result * base ^ (word % 2 ^ i)), val (base ^ 2 ^ i)) := by
  induction i generalizing word result base with
  | zero => simp [expWord, Nat.mod_one]
  | succ i ih =>
    have step : (if word % 2 = 1 then u256 (val result * val base) else val result) =
        val (result * base ^ (word % 2)) := by
      rcases Nat.mod_two_eq_zero_or_one word with even | odd
      · rw [even, if_neg (by decide), pow_zero, mul_one]
      · rw [odd, if_pos rfl, pow_one, u256_mul]
    rw [expWord, step, u256_mul, ih, Nat.pow_succ', Nat.mod_mul, ← pow_two, ← pow_mul, ← pow_mul,
      mul_assoc, ← pow_add]

theorem exp_val (x y : Word) : exp (val x) (val y) = val (x ^ y.toNat) := by
  have fold (words : List ℕ) (small : ∀ word ∈ words, word < 2 ^ 64) (result base : Word) :
      (words.foldl (fun s word => expWord 64 word s) (val result, val base)).1 =
        val (result * base ^ Nat.ofDigits (2 ^ 64) words) := by
    induction words generalizing result base with
    | nil => simp
    | cons word words ih =>
      obtain ⟨here, rest⟩ := List.forall_mem_cons.mp small
      rw [List.foldl_cons, expWord_val, ih rest, Nat.mod_eq_of_lt here, Nat.ofDigits_cons, pow_add,
        pow_mul, mul_assoc]
  have digits := fold (bits y.toNat) (fun word => Nat.digits_lt_base (by decide)) 1 x
  rw [bits, Nat.ofDigits_digits, one_mul] at digits
  exact digits

theorem bigEndianByteAt_val (x : Word) (n : ℕ) :
    bigEndianByteAt (val x) n = x.toNat / 2 ^ (8 * n) % 256 := by
  have digit : (bits x.toNat)[n / 8]?.getD 0 = x.toNat / (2 ^ 64) ^ (n / 8) % 2 ^ 64 := by
    rw [← List.getD_eq_getElem?_getD, bits, Nat.getD_digits _ _ (by decide)]
  have split : 8 * n = 64 * (n / 8) + 8 * (n % 8) := by
    omega
  have taken : bigEndianByteAt (val x) n =
      (bits x.toNat)[n / 8]?.getD 0 >>> (8 * (n % 8)) % 256 := by
    unfold bigEndianByteAt
    rw [show (val x).toNat = x.toNat from rfl]
    cases (bits x.toNat)[n / 8]? with
    | none => simp
    | some word => rfl
  rw [taken, digit, ← pow_mul, Nat.shiftRight_eq_div_pow, split, pow_add, ← Nat.div_div_eq_div_mul]
  generalize x.toNat / 2 ^ (64 * (n / 8)) = word
  change word % 2 ^ 64 / 2 ^ (8 * (n % 8)) % 2 ^ 8 = word / 2 ^ (8 * (n % 8)) % 2 ^ 8
  rw [← Nat.mod_mul_right_div_self, ← Nat.mod_mul_right_div_self, ← pow_add,
    Nat.mod_mod_of_dvd _ (pow_dvd_pow 2 (by omega))]

theorem byte_val (x : Word) {i : ℕ} (inside : i < 32) :
    (byte (val x) 32 i : ℤ) = val (x >>> (8 * (31 - i)) &&& 0xff) := by
  rw [byte, if_neg (Nat.not_le.mpr inside), bigEndianByteAt_val, val, toNat_and,
    toNat_ushiftRight, Nat.shiftRight_eq_div_pow]
  exact congrArg Nat.cast (Nat.and_two_pow_sub_one_eq_mod _ 8).symm

theorem signExtend_val (x : Word) {k : ℕ} (inside : k < 31) :
    u256 (if (val x).testBit (k * 8 + 7) then (val x).lor (2 ^ (k * 8 + 7) - 1 : ℤ).lnot
      else (val x).land (2 ^ (k * 8 + 7) - 1)) = val ((x.setWidth (8 * (k + 1))).signExtend 256) := by
  have mask (i : ℕ) : (2 ^ (k * 8 + 7) - 1 : ℤ).testBit i = decide (i < k * 8 + 7) := by
    have cast : (2 ^ (k * 8 + 7) - 1 : ℤ) = (2 ^ (k * 8 + 7) - 1 : ℕ) := by
      rw [Nat.cast_sub Nat.one_le_two_pow]
      norm_num
    rw [cast]
    exact Nat.testBit_two_pow_sub_one _ _
  have bit (i : ℕ) : (val x).testBit i = x.getLsbD i := rfl
  rw [u256_eq]
  refine congrArg val (eq_of_getLsbD_eq fun i lt => ?_)
  have msb : (x.setWidth (8 * (k + 1))).msb = x.getLsbD (k * 8 + 7) := by
    rw [msb_eq_getLsbD_last, getLsbD_setWidth, decide_eq_true (by omega),
      Bool.true_and, show 8 * (k + 1) - 1 = k * 8 + 7 by omega]
  have wide : i < 8 * (k + 1) ↔ i < k * 8 + 7 ∨ i = k * 8 + 7 := by
    omega
  simp only [getLsbD_ofInt _ lt, getLsbD_signExtend, msb, getLsbD_setWidth, bit, wide,
    decide_eq_true lt, Bool.true_and]
  -- Below the sign bit the bits are those of the word, from it on they are all the sign bit.
  cases top : x.getLsbD (k * 8 + 7) <;> by_cases low : i < k * 8 + 7 <;>
    by_cases here : i = k * 8 + 7 <;>
    simp [Int.testBit_lor, Int.testBit_land, Int.testBit_lnot, bit, mask, low, here, top]

theorem tmod_eq (x y : ℤ) : x.tmod y = if x.sign < 0 then -(|x| % |y|) else |x| % |y| := by
  rw [Int.emod_abs]
  rcases lt_or_ge x 0 with negative | natural
  · rw [if_pos (Int.sign_neg_iff.mpr negative), abs_of_neg negative,
      ← Int.tmod_eq_emod_of_nonneg (by omega), Int.neg_tmod, neg_neg]
  · rw [if_neg (not_lt.mpr (Int.sign_nonneg_iff.mpr natural)), abs_of_nonneg natural,
      Int.tmod_eq_emod_of_nonneg natural]

theorem tdiv_eq {x y : ℤ} (some : ¬ (y.sign = 0 ∨ x.sign = 0)) :
    x.tdiv y = if x.sign ≠ y.sign then -(|x| / |y|) else |x| / |y| := by
  rw [not_or] at some
  rw [← Int.tdiv_eq_ediv_of_nonneg (abs_nonneg x)]
  conv_lhs => rw [← Int.sign_mul_abs x, ← Int.sign_mul_abs y]
  rcases Int.sign_trichotomy x with sx | sx | sx
  · rcases Int.sign_trichotomy y with sy | sy | sy
    · simp [sx, sy]
    · exact absurd sy some.1
    · simp [sx, sy]
  · exact absurd sx some.2
  · rcases Int.sign_trichotomy y with sy | sy | sy
    · simp [sx, sy]
    · exact absurd sy some.1
    · simp [sx, sy]

theorem slt_iff (x y : Word) : x.slt y ↔ tt255 ≤ val x ∧ val y < tt255 ∨
    ¬ (val x < tt255 ∧ tt255 ≤ val y) ∧ val x < val y := by
  rw [slt_iff_toInt_lt, toInt_eq_toNat_cond, toInt_eq_toNat_cond, val, val, tt255]
  split_ifs <;> omega

theorem toInt_shiftRight_far (x : Word) {shift : ℕ} (far : 256 ≤ shift) :
    x.toInt >>> shift = if 0 ≤ x.toInt.sign then 0 else -1 := by
  have wide : (2 ^ 255 : ℤ) ≤ 2 ^ shift := pow_le_pow_right₀ (by decide) (by omega)
  have low : -2 ^ 255 ≤ x.toInt := x.le_toInt
  have high : x.toInt < 2 ^ 255 := x.toInt_lt
  rw [Int.shiftRight_eq_div_pow, Nat.cast_pow, Nat.cast_ofNat]
  by_cases natural : 0 ≤ x.toInt
  · rw [if_pos (Int.sign_nonneg_iff.mpr natural), Int.ediv_eq_zero_of_lt natural (by omega)]
  · rw [if_neg (mt Int.sign_nonneg_iff.mp natural)]
    have negative := Int.ediv_neg_of_neg_of_pos (not_le.mp natural) (by omega : (0 : ℤ) < 2 ^ shift)
    have above : -1 ≤ x.toInt / 2 ^ shift := Int.le_ediv_of_mul_le (by omega) (by omega)
    omega

/-- Each opcode leaves the word that it stands for on the rest of the stack. -/
theorem arithmetic_opcodes (x y z : Word) (rest : List ℤ) :
    opSdiv (val x :: val y :: rest) = some (val (.ofInt 256 (x.toInt.tdiv y.toInt)) :: rest) ∧
    opSmod (val x :: val y :: rest) =
      some (val (if y = 0 then 0 else .ofInt 256 (x.toInt.tmod y.toInt)) :: rest) ∧
    opExp (val x :: val y :: rest) = some (val (x ^ y.toNat) :: rest) ∧
    opSignExtend (val x :: val y :: rest) = some (val (if x.toNat < 31
      then (y.setWidth (8 * (x.toNat + 1))).signExtend 256 else y) :: rest) ∧
    opByte (val x :: val y :: rest) =
      some (val (if x.toNat < 32 then y >>> (8 * (31 - x.toNat)) &&& 0xff else 0) :: rest) ∧
    opAddmod (val x :: val y :: val z :: rest) =
      some (val (if z = 0 then 0 else .ofNat 256 ((x.toNat + y.toNat) % z.toNat)) :: rest) ∧
    opMulmod (val x :: val y :: val z :: rest) =
      some (val (if z = 0 then 0 else .ofNat 256 (x.toNat * y.toNat % z.toNat)) :: rest) ∧
    opSlt (val x :: val y :: rest) = some (val (if x.slt y then 1 else 0) :: rest) ∧
    opSgt (val x :: val y :: rest) = some (val (if y.slt x then 1 else 0) :: rest) ∧
    opSHL (val x :: val y :: rest) = some (val (y <<< x.toNat) :: rest) ∧
    opSHR (val x :: val y :: rest) = some (val (y >>> x.toNat) :: rest) ∧
    opSAR (val x :: val y :: rest) = some (val (y.sshiftRight x.toNat) :: rest) := by
  have positive (w : Word) : 0 < val w ↔ w ≠ 0 := by
    rw [val, Nat.cast_pos, Nat.pos_iff_ne_zero, ne_eq, ne_eq, ← toNat_inj]
    rfl
  have sign (w : Word) : w.toInt.sign = 0 ↔ w = 0 := by
    rw [Int.sign_eq_zero_iff_zero, ← toInt_inj]
    rfl
  have nat (w : Word) : (val w).toNat = w.toNat := rfl
  have far (w : Word) : 256 ≤ val w ↔ 256 ≤ w.toNat := Nat.cast_le (m := 256)
  have reduced (n : ℕ) : (if 0 < val z then u256 (n % val z) else 0) =
      val (if z = 0 then 0 else .ofNat 256 (n % z.toNat)) := by
    by_cases none : z = 0
    · rw [if_neg (mt (positive z).mp (not_not.mpr none)), if_pos none]
      rfl
    · rw [if_pos ((positive z).mpr none), if_neg none]
      exact u256_natCast (n % z.toNat)
  refine ⟨?_, ?_, ?_, ?_, ?_, ?_, ?_, ?_, ?_, ?_, ?_, ?_⟩
  · simp only [opSdiv, s256_val]
    by_cases none : y.toInt.sign = 0 ∨ x.toInt.sign = 0
    · rw [if_pos none]
      rcases none with zero | zero <;> rw [Int.sign_eq_zero_iff_zero.mp zero] <;> simp [val]
    · rw [if_neg none, tdiv_eq none, u256_eq, u256_eq]
      split_ifs <;> rfl
  · simp only [opSmod, s256_val, sign, tmod_eq, u256_eq]
    split_ifs <;> rfl
  · rw [opExp, exp_val]
  · have low : val x < 31 ↔ x.toNat < 31 := Nat.cast_lt (n := 31)
    simp only [opSignExtend, low, nat]
    by_cases inside : x.toNat < 31
    · rw [if_pos inside, if_pos inside, signExtend_val y inside]
    · rw [if_neg inside, if_neg inside]
  · have low : val x < 32 ↔ x.toNat < 32 := Nat.cast_lt (n := 32)
    simp only [opByte, low, nat]
    split_ifs with inside
    · rw [byte_val y inside]
    · rfl
  · exact congrArg (fun r => some (r :: rest)) (reduced (x.toNat + y.toNat))
  · exact congrArg (fun r => some (r :: rest)) (reduced (x.toNat * y.toNat))
  · simp only [opSlt, slt_iff]
    split_ifs <;> first | rfl | omega
  · simp only [opSgt, slt_iff]
    split_ifs <;> first | rfl | omega
  · simp only [opSHL, u256_val, far, nat]
    split_ifs with large
    · rw [shiftLeft_eq_zero large]
      rfl
    · exact congrArg (fun r => some (r :: rest)) (u256_natCast (y.toNat <<< x.toNat))
  · simp only [opSHR, u256_val, far, nat]
    split_ifs with large
    · rw [ushiftRight_eq_zero large]
      rfl
    · exact congrArg (fun r => some (r :: rest)) (u256_val (y >>> x.toNat))
  · simp only [opSAR, u256_val, s256_val, far, nat]
    rw [BitVec.sshiftRight, ← u256_eq]
    by_cases large : 256 ≤ x.toNat
    · rw [if_pos large, toInt_shiftRight_far y large]
    · rw [if_neg large]

end Anduschain.Vm
