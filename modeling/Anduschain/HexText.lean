import Anduschain.ChainTypes
import Mathlib.Data.Nat.Digits.Lemmas

/-! Hexadecimal texts of package hexutil: quantities without leading zeros, byte strings as
pairs of digits, and what their decoders accept. -/
namespace Anduschain.HexText
open ByteOrder List

inductive HexError where
  | missingPrefix
  | emptyNumber
  | leadingZero
  | uint64Range
  | big256Range
  | oddLength
  | errSyntax
  | wrongLength (got want : ℕ)
  deriving DecidableEq

def hexChar (d : ℕ) : UInt8 := if d < 10 then UInt8.ofNat (0x30 + d) else UInt8.ofNat (0x57 + d)

variable (input : Bytes) (raw : Bytes) (n : ℕ) (b : Bytes)

def hexNumber : Bytes := if n = 0 then [0x30] else ((Nat.digits 16 n).map hexChar).reverse

def zeroX : Bytes := 0x30 :: 0x78 :: raw

/-- `EncodeUint64` and `EncodeBig`. -/
def encodeNumber : Bytes := zeroX (hexNumber n)

def cut0x : Bytes → Option Bytes
  | 0x30 :: x :: raw => if x = 0x78 ∨ x = 0x58 then some raw else none
  | _ => none

/-- Empty texts are allowed. -/
def checkNumberText : Except HexError Bytes :=
  if input = [] then .ok []
  else
    match cut0x input with
    | none => .error .missingPrefix
    | some raw =>
      if raw = [] then .error .emptyNumber
      else if 1 < raw.length ∧ raw.head? = some 0x30 then .error .leadingZero
      else .ok raw

def readDigits : Option ℕ :=
  raw.foldlM (fun acc c => (hexDigit c).map (16 * acc + ·)) 0

def unmarshalNumber (width : ℕ) (tooLong : HexError) (input : Bytes) : Except HexError ℕ := do
  let raw ← checkNumberText input
  if width < raw.length then .error tooLong
  else
    match readDigits raw with
    | some n => .ok n
    | none => .error .errSyntax

def unmarshalUint64 : Except HexError UInt64 :=
  (unmarshalNumber 16 .uint64Range input).map UInt64.ofNat

def unmarshalBig : Except HexError ℕ := unmarshalNumber 64 .big256Range input

def encodePairs : Bytes :=
  b.flatMap fun x => [hexChar (x.toNat / 16), hexChar (x.toNat % 16)]

/-- `Encode`, the text of a byte string. -/
def encodeBytes : Bytes := zeroX (encodePairs b)

def checkText : Except HexError Bytes :=
  if input = [] then .ok []
  else
    match cut0x input with
    | none => .error .missingPrefix
    | some raw => if raw.length % 2 ≠ 0 then .error .oddLength else .ok raw

def readPairs : Bytes → Option Bytes
  | hi :: lo :: raw => do
      let h ← hexDigit hi
      let l ← hexDigit lo
      return UInt8.ofNat (16 * h + l) :: (← readPairs raw)
  | _ => some []

def decodeString : Option Bytes := if raw.length % 2 ≠ 0 then none else readPairs raw

def unmarshalBytes : Except HexError Bytes := do
  let raw ← checkText input
  match readPairs raw with
  | some b => .ok b
  | none => .error .errSyntax

def unmarshalFixed (width : ℕ) (input : Bytes) : Except HexError Bytes := do
  let raw ← checkText input
  if raw.length / 2 ≠ width then .error (.wrongLength raw.length (2 * width))
  else
    match readPairs raw with
    | some b => .ok b
    | none => .error .errSyntax

theorem hexDigit_hexChar {d : ℕ} (small : d < 16) : hexDigit (hexChar d) = some d := by
  have each : ∀ d : Fin 16, hexDigit (hexChar d) = some d.val := by decide
  exact each ⟨d, small⟩

theorem hexChar_zero {d : ℕ} (small : d < 16) (zero : hexChar d = 0x30) : d = 0 := by
  have each : ∀ d : Fin 16, hexChar d = 0x30 → d.val = 0 := by decide
  exact each ⟨d, small⟩ zero

theorem readDigits_reverse (ds : List ℕ) (small : ∀ d ∈ ds, d < 16) :
    readDigits (ds.map hexChar).reverse = some (Nat.ofDigits 16 ds) := by
  induction ds with
  | nil => rfl
  | cons d ds ih =>
    have rest := ih fun d member => small d (mem_cons_of_mem _ member)
    rw [readDigits] at rest
    rw [readDigits, map_cons, reverse_cons, foldlM_append, rest]
    simp [hexDigit_hexChar (small d mem_cons_self), Nat.ofDigits_cons, Nat.add_comm]

theorem readDigits_hexNumber : readDigits (hexNumber n) = some n := by
  unfold hexNumber
  split
  · rename_i zero
    subst zero
    rfl
  · have digits := readDigits_reverse (Nat.digits 16 n) fun d member =>
      Nat.digits_lt_base (by decide) member
    rw [digits, Nat.ofDigits_digits]

theorem hexNumber_ne_nil : hexNumber n ≠ [] := by
  unfold hexNumber
  split
  · exact cons_ne_nil _ _
  · rename_i pos
    simpa using Nat.digits_ne_nil_iff_ne_zero.mpr pos

theorem hexNumber_length_le {n k : ℕ} (pos : 0 < k) : (hexNumber n).length ≤ k ↔ n < 16 ^ k := by
  unfold hexNumber
  split
  · rename_i zero
    subst zero
    simp only [length_singleton]
    exact ⟨fun _ => Nat.pow_pos (by decide), fun _ => pos⟩
  · rw [length_reverse, length_map, Nat.digits_length_le_iff (by decide)]

theorem hexNumber_head {n : ℕ} (zero : (hexNumber n).head? = some 0x30) :
    (hexNumber n).length = 1 := by
  unfold hexNumber at zero ⊢
  split
  · rfl
  · rename_i pos
    rw [if_neg pos, head?_reverse, getLast?_map] at zero
    have some : Nat.digits 16 n ≠ [] := Nat.digits_ne_nil_iff_ne_zero.mpr pos
    rw [getLast?_eq_some_getLast some, Option.map_some, Option.some.injEq] at zero
    have small := Nat.digits_lt_base (b := 16) (by decide) (getLast_mem some)
    exact absurd (hexChar_zero small zero) (Nat.getLast_digit_ne_zero 16 pos)

theorem checkNumberText_encodeNumber : checkNumberText (encodeNumber n) = .ok (hexNumber n) := by
  have proper : ¬ (1 < (hexNumber n).length ∧ (hexNumber n).head? = some 0x30) := by
    rintro ⟨long, zero⟩
    rw [hexNumber_head zero] at long
    exact absurd long (Nat.lt_irrefl 1)
  have cut : cut0x (encodeNumber n) = some (hexNumber n) := rfl
  have ne : encodeNumber n ≠ [] := cons_ne_nil _ _
  rw [checkNumberText, if_neg ne, cut]
  simp only [hexNumber_ne_nil, proper, if_false]

theorem unmarshalNumber_encodeNumber {width : ℕ} (pos : 0 < width) (tooLong : HexError) (n : ℕ) :
    unmarshalNumber width tooLong (encodeNumber n) =
      if n < 16 ^ width then .ok n else .error tooLong := by
  have fits := hexNumber_length_le (n := n) pos
  rw [unmarshalNumber, checkNumberText_encodeNumber]
  by_cases small : n < 16 ^ width
  · have short : ¬ width < (hexNumber n).length := Nat.not_lt.mpr (fits.mpr small)
    simp only [bind, Except.bind, if_neg short, readDigits_hexNumber, if_pos small]
  · have long : width < (hexNumber n).length := Nat.not_le.mp (mt fits.mp small)
    simp only [bind, Except.bind, if_pos long, if_neg small]

theorem unmarshalUint64_encodeNumber (n : UInt64) :
    unmarshalUint64 (encodeNumber n.toNat) = .ok n := by
  have fits : n.toNat < 16 ^ 16 := n.toNat_lt
  rw [unmarshalUint64, unmarshalNumber_encodeNumber (by decide), if_pos fits]
  simp only [Except.map, UInt64.ofNat_toNat]

theorem unmarshalBig_encodeNumber :
    unmarshalBig (encodeNumber n) = if n < 2 ^ 256 then .ok n else .error .big256Range := by
  rw [unmarshalBig, unmarshalNumber_encodeNumber (by decide)]
  rfl

theorem pair_digits (x : UInt8) : hexDigit (hexChar (x.toNat / 16)) = some (x.toNat / 16) ∧
    hexDigit (hexChar (x.toNat % 16)) = some (x.toNat % 16) ∧
      UInt8.ofNat (16 * (x.toNat / 16) + x.toNat % 16) = x := by
  have byte : x.toNat < 256 := x.toNat_lt
  rw [Nat.div_add_mod, UInt8.ofNat_toNat]
  exact ⟨hexDigit_hexChar (by omega), hexDigit_hexChar (by omega), rfl⟩

theorem readPairs_encodePairs : readPairs (encodePairs b) = some b := by
  induction b with
  | nil => rfl
  | cons x b ih =>
    obtain ⟨high, low, value⟩ := pair_digits x
    rw [encodePairs] at ih ⊢
    simp only [flatMap_cons, cons_append, nil_append, readPairs, ih, high, low, bind, Option.bind,
      value]
    rfl

theorem encodePairs_length : (encodePairs b).length = 2 * b.length := by
  induction b with
  | nil => rfl
  | cons x b ih =>
    rw [encodePairs] at ih ⊢
    simp only [flatMap_cons, length_append, length_cons, length_nil, ih]
    omega

theorem decodeString_encodePairs : decodeString (encodePairs b) = some b := by
  have even : (encodePairs b).length % 2 = 0 := by
    rw [encodePairs_length]
    omega
  rw [decodeString, if_neg (not_not.mpr even), readPairs_encodePairs]

theorem checkText_encodeBytes : checkText (encodeBytes b) = .ok (encodePairs b) := by
  have cut : cut0x (encodeBytes b) = some (encodePairs b) := rfl
  have even : ¬ (encodePairs b).length % 2 ≠ 0 := by
    rw [encodePairs_length]
    omega
  have ne : encodeBytes b ≠ [] := cons_ne_nil _ _
  rw [checkText, if_neg ne, cut]
  simp only [even, if_false]

theorem unmarshalBytes_encodeBytes : unmarshalBytes (encodeBytes b) = .ok b := by
  rw [unmarshalBytes, checkText_encodeBytes]
  simp only [bind, Except.bind, readPairs_encodePairs]

theorem unmarshalFixed_encodeBytes : unmarshalFixed b.length (encodeBytes b) = .ok b := by
  have size : ¬ (encodePairs b).length / 2 ≠ b.length := by
    rw [encodePairs_length]
    omega
  rw [unmarshalFixed, checkText_encodeBytes]
  simp only [bind, Except.bind, if_neg size, readPairs_encodePairs]

end Anduschain.HexText
