import Anduschain.FairnodeVerify

/-! What the difficulty of a block draws from an OTPRN: `BytesToHash` keeps the last
32 bytes of the encoding, and those lie in the signature, which the signed hash
does not cover. -/
namespace Anduschain
open ByteOrder RlpItem

/-- `SigToPub` recovers from signatures of 65 bytes only. -/
def SignatureSized (crypto : Crypto) : Prop :=
  ∀ hash sign addr, crypto.sigToAddr hash sign = .ok addr → sign.length = 65

/-- Some first draw tells two hashes apart; a draw below zero counts as zero. -/
def DrawsSeparate (crypto : Crypto) : Prop :=
  ∀ h₁ h₂, h₁ ≠ h₂ → ∃ coinbase parentHash,
    max 0 (csprng crypto 0 h₁ coinbase parentHash) ≠ max 0 (csprng crypto 0 h₂ coinbase parentHash)

def signTail (sign : Bytes) : Bytes := sign.drop 33

theorem bytesToHash_append (a b : Bytes) (long : 32 ≤ b.length) :
    bytesToHash (a ++ b) = bytesToHash b := by
  have whole : (2 ^ 256 : ℕ) ∣ 256 ^ b.length := by
    rw [show (2 ^ 256 : ℕ) = 256 ^ 32 by norm_num]
    exact pow_dvd_pow 256 long
  apply BitVec.eq_of_toNat_eq
  simp only [bytesToHash, BitVec.toNat_ofNat, beNat_append]
  rw [Nat.add_mod, Nat.mod_eq_zero_of_dvd (whole.mul_left (beNat a)), zero_add, Nat.mod_mod]

theorem bytesToHash_inj {a b : Bytes} (ha : a.length = 32) (hb : b.length = 32)
    (same : bytesToHash a = bytesToHash b) : a = b := by
  have small (c : Bytes) (hc : c.length = 32) : beNat c < 2 ^ 256 := by
    have bound := beNat_lt c
    rw [hc] at bound
    norm_num at bound ⊢
    exact bound
  have nats := congrArg BitVec.toNat same
  simp only [bytesToHash, BitVec.toNat_ofNat] at nats
  rw [Nat.mod_eq_of_lt (small a ha), Nat.mod_eq_of_lt (small b hb)] at nats
  exact beNat_inj (ha.trans hb.symm) nats

theorem decodeOtprn_sign {b : Bytes} {o : Otprn} (decoded : decodeOtprn b = some o) :
    o.sign <:+ b := by
  obtain ⟨item, read, built⟩ := Option.bind_eq_some_iff.mp decoded
  unfold Otprn.ofItem at built
  split at built
  · rename_i rand fnAddr cminer data sign
    simp only [bind, Option.bind_eq_some_iff] at built
    obtain ⟨_, -, _, -, _, -, _, -, signBytes, isBytes, built⟩ := built
    obtain rfl := Option.some.inj built
    cases sign with
    | str s =>
      obtain rfl := Option.some.inj isBytes
      have read : decode b = some (.list ([rand, fnAddr, cminer, data] ++ [.str s])) := read
      exact decode_last read
    | list xs => cases isBytes
  · cases built

theorem bytesToHash_encoding {b : Bytes} {o : Otprn} (decoded : decodeOtprn b = some o)
    (sized : o.sign.length = 65) : bytesToHash b = bytesToHash (signTail o.sign) := by
  obtain ⟨head, rfl⟩ := decodeOtprn_sign decoded
  rw [bytesToHash_append head _ (by omega)]
  conv_lhs => rw [← List.take_append_drop 33 o.sign]
  exact bytesToHash_append _ _ (by simp [sized])

section Draws
variable (crypto : Crypto) (otprn : Hash) (coinbase : Address) (parentHash : Hash)

theorem asInt64_lt (n : Nat) : asInt64 n < 2 ^ 63 := BitVec.toInt_lt

theorem makeRandLoop_bounds (fuel i : Nat) {rand : Int} (nonneg : 0 ≤ rand) (small : rand < 2 ^ 63) :
    0 ≤ makeRandLoop crypto otprn coinbase parentHash fuel i rand ∧
      makeRandLoop crypto otprn coinbase parentHash fuel i rand < 2 ^ 63 := by
  induction fuel generalizing i rand with
  | zero => exact ⟨nonneg, small⟩
  | succ fuel ih =>
    rw [makeRandLoop]
    split
    · rename_i larger
      exact ih (i + 1) (nonneg.trans larger.le) (asInt64_lt _)
    · exact ih (i + 1) nonneg small

theorem makeRand_eq (joinNonce : UInt64) :
    makeRand crypto joinNonce otprn coinbase parentHash =
      makeRandLoop crypto otprn coinbase parentHash ((if 1000 < asInt64 joinNonce.toNat then 1000
        else asInt64 joinNonce.toNat) + 1).toNat 0 0 :=
  if_neg (not_lt.mpr (makeRandLoop_bounds crypto otprn coinbase parentHash _ 0 le_rfl (by norm_num)).1)

theorem makeRand_bounds (joinNonce : UInt64) :
    0 ≤ makeRand crypto joinNonce otprn coinbase parentHash ∧
      makeRand crypto joinNonce otprn coinbase parentHash < 2 ^ 63 := by
  rw [makeRand_eq]
  exact makeRandLoop_bounds crypto otprn coinbase parentHash _ 0 le_rfl (by norm_num)

theorem makeRandLoop_le_iff (fuel i : ℕ) (rand bound : Int) :
    makeRandLoop crypto otprn coinbase parentHash fuel i rand ≤ bound ↔
      rand ≤ bound ∧ ∀ j < fuel, csprng crypto (i + j) otprn coinbase parentHash ≤ bound := by
  induction fuel generalizing i rand with
  | zero => simp [makeRandLoop]
  | succ fuel ih =>
    rw [makeRandLoop, ih, ← max_def_lt, max_le_iff, and_assoc, Nat.forall_lt_succ_left]
    simp only [Nat.add_zero, Nat.add_assoc, Nat.add_comm 1]

/-- The draws of a join nonce; as an `int` a nonce of 2^63 or more is negative and has none. -/
def Counts (joinNonce : UInt64) (j : ℕ) : Prop :=
  joinNonce.toNat < 2 ^ 63 ∧ j ≤ joinNonce.toNat ∧ j ≤ 1000

theorem makeRand_le_iff (joinNonce : UInt64) {bound : Int} (nonneg : 0 ≤ bound) :
    makeRand crypto joinNonce otprn coinbase parentHash ≤ bound ↔
      ∀ j, Counts joinNonce j → csprng crypto j otprn coinbase parentHash ≤ bound := by
  have count (j : ℕ) : j < ((if 1000 < asInt64 joinNonce.toNat then 1000
      else asInt64 joinNonce.toNat) + 1).toNat ↔ Counts joinNonce j := by
    have bound := joinNonce.toNat_lt
    rw [asInt64, BitVec.toInt_eq_toNat_cond, BitVec.toNat_ofNat, Counts]
    split <;> omega
  rw [makeRand_eq, makeRandLoop_le_iff]
  simp only [nonneg, true_and, count, Nat.zero_add]

theorem makeRand_zero :
    makeRand crypto 0 otprn coinbase parentHash = max 0 (csprng crypto 0 otprn coinbase parentHash) := by
  have single : makeRand crypto 0 otprn coinbase parentHash =
      makeRandLoop crypto otprn coinbase parentHash 1 0 0 := makeRand_eq _ _ _ _ 0
  rw [single, makeRandLoop, makeRandLoop, max_def]
  split <;> split <;> omega

theorem makeRand_of_difficulty {joinNonce : UInt64} {b₁ b₂ : Bytes}
    (same : calcDifficultyDeb crypto joinNonce b₁ coinbase parentHash =
      calcDifficultyDeb crypto joinNonce b₂ coinbase parentHash) :
    makeRand crypto joinNonce (bytesToHash b₁) coinbase parentHash =
      makeRand crypto joinNonce (bytesToHash b₂) coinbase parentHash := by
  have first := makeRand_bounds crypto (bytesToHash b₁) coinbase parentHash joinNonce
  have second := makeRand_bounds crypto (bytesToHash b₂) coinbase parentHash joinNonce
  have words := congrArg BitVec.toNat (BitVec.eq_of_toInt_eq same)
  simp only [BitVec.toNat_ofInt] at words
  omega

def MoreIsBetter (difficulty : UInt64 → Int) (m n : UInt64) : Prop :=
  m ≤ n → 1 ≤ difficulty m ∧ difficulty m ≤ difficulty n ∧ (1000 ≤ m → difficulty n = difficulty m)

/-- The larger join nonce is the better one exactly when no draw of it is the largest `int64`, and
it is not negative beside one that draws more than zero. -/
theorem more_joins_better_iff (otprn : Bytes) (m n : UInt64) :
    MoreIsBetter (fun k => calcDifficultyDeb crypto k otprn coinbase parentHash) m n ↔ (m ≤ n →
      (∀ j, Counts n j → csprng crypto j (bytesToHash otprn) coinbase parentHash ≤ 2 ^ 63 - 2) ∧
      (2 ^ 63 ≤ n.toNat → ∀ j, Counts m j →
        csprng crypto j (bytesToHash otprn) coinbase parentHash ≤ 0)) := by
  have m_bounds := makeRand_bounds crypto (bytesToHash otprn) coinbase parentHash m
  have n_bounds := makeRand_bounds crypto (bytesToHash otprn) coinbase parentHash n
  have least (k : UInt64) {bound : Int} (nonneg : 0 ≤ bound) :=
    makeRand_le_iff crypto (bytesToHash otprn) coinbase parentHash k nonneg
  refine imp_congr_right fun le => ?_
  rw [UInt64.le_iff_toNat_le] at le
  rw [← least n (by norm_num), ← least m le_rfl, UInt64.le_iff_toNat_le]
  simp only [calcDifficultyDeb, BitVec.toInt_ofInt, Int.bmod_def]
  by_cases negative : 2 ^ 63 ≤ n.toNat
  · have none_drawn : makeRand crypto n (bytesToHash otprn) coinbase parentHash ≤ 0 :=
      (least n le_rfl).mpr fun j drawn => absurd drawn.1 (by omega)
    omega
  · have more : makeRand crypto m (bytesToHash otprn) coinbase parentHash ≤
        makeRand crypto n (bytesToHash otprn) coinbase parentHash :=
      (least m n_bounds.1).mpr fun j drawn =>
        (least n n_bounds.1).mp le_rfl j ⟨by omega, by have := drawn.2; omega⟩
    have same (many : 1000 ≤ m.toNat) : makeRand crypto n (bytesToHash otprn) coinbase parentHash ≤
        makeRand crypto m (bytesToHash otprn) coinbase parentHash :=
      (least n m_bounds.1).mpr fun j drawn =>
        (least m m_bounds.1).mp le_rfl j ⟨by omega, by have := drawn.2; omega⟩
    have thousand : UInt64.toNat 1000 = 1000 := rfl
    omega

end Draws

/-- Two accepted encodings, of one signed OTPRN or not, draw alike exactly when their
signatures agree in the last 32 bytes. -/
theorem calcDifficultyDeb_agrees_iff (crypto : Crypto) (sized : SignatureSized crypto)
    (separates : DrawsSeparate crypto) (b₁ b₂ : Bytes) (o₁ o₂ : Otprn)
    (decoded₁ : decodeOtprn b₁ = some o₁) (decoded₂ : decodeOtprn b₂ = some o₂)
    (signed₁ : o₁.validateSignature crypto = .ok ())
    (signed₂ : o₂.validateSignature crypto = .ok ()) :
    (∀ joinNonce coinbase parentHash,
        calcDifficultyDeb crypto joinNonce b₁ coinbase parentHash =
          calcDifficultyDeb crypto joinNonce b₂ coinbase parentHash) ↔
      signTail o₁.sign = signTail o₂.sign := by
  have size₁ := sized _ _ _ (Otprn.validateSignature_ok.mp signed₁)
  have size₂ := sized _ _ _ (Otprn.validateSignature_ok.mp signed₂)
  have drawn₁ := bytesToHash_encoding decoded₁ size₁
  have drawn₂ := bytesToHash_encoding decoded₂ size₂
  constructor
  · intro agrees
    by_contra differ
    have apart : bytesToHash b₁ ≠ bytesToHash b₂ := by
      rw [drawn₁, drawn₂]
      intro same
      exact differ (bytesToHash_inj (by simp [signTail, size₁]) (by simp [signTail, size₂]) same)
    obtain ⟨coinbase, parentHash, draws⟩ := separates _ _ apart
    have rands := makeRand_of_difficulty crypto coinbase parentHash (agrees 0 coinbase parentHash)
    rw [makeRand_zero, makeRand_zero] at rands
    exact draws rands
  · intro tails joinNonce coinbase parentHash
    rw [calcDifficultyDeb, calcDifficultyDeb, drawn₁, drawn₂, tails]

/-- A stand-in whose draws read single bits: the coinbase says which bit of the OTPRN hash.
Signatures end in the signer, so each signer has many. -/
def bitCrypto : Crypto where
  keccak b := if (beNat b / 2 ^ 160 / 2 ^ 256).testBit (beNat b % 256) then 1 else 0
  sigToAddr _ sign :=
    if sign.length = 65 then .ok (bytesToAddress sign) else .error "invalid signature length"
  decompressPubkey b := if b.length = 33 then some (bytesToAddress b) else none

theorem bitCrypto_sized : SignatureSized bitCrypto := by
  intro hash sign addr recovered
  simp only [bitCrypto] at recovered
  split at recovered
  · assumption
  · cases recovered

theorem bitCrypto_csprng (h : Hash) {i : ℕ} (fits : i < 256) :
    csprng bitCrypto 0 h (BitVec.ofNat 160 i) 0 = if h.getLsbD i then 1 else 0 := by
  have small : (BitVec.ofNat 160 i).toNat = i := by
    rw [BitVec.toNat_ofNat]
    omega
  have bound : h.toNat < 256 ^ 32 := h.isLt
  have message : beNat (itoa 0 ++ hashBytes h ++ hashBytes 0 ++ addressBytes (BitVec.ofNat 160 i)) =
      2 ^ 160 * (2 ^ 256 * (2 ^ 256 * 48 + h.toNat)) + i := by
    have digit : beNat (itoa 0) = 48 := rfl
    simp only [beNat_append, digit, hashBytes, addressBytes, beFixed_length, small,
      beNat_beFixed_of_lt bound, beNat_beFixed_of_lt (show i < 256 ^ 20 by omega), beNat_beFixed]
    rw [show BitVec.toNat (0 : Hash) = 0 from rfl]
    omega
  have quotient : (2 ^ 160 * (2 ^ 256 * (2 ^ 256 * 48 + h.toNat)) + i) / 2 ^ 160 / 2 ^ 256 =
      2 ^ 256 * 48 + h.toNat := by
    omega
  have remainder : (2 ^ 160 * (2 ^ 256 * (2 ^ 256 * 48 + h.toNat)) + i) % 256 = i := by omega
  have bit : (2 ^ 256 * 48 + h.toNat).testBit i = h.getLsbD i := by
    rw [Nat.testBit_two_pow_mul_add 48 h.isLt i, if_pos fits]
    rfl
  simp only [csprng, bitCrypto, message, quotient, remainder, bit]
  cases h.getLsbD i <;> rfl

theorem bitCrypto_separates : DrawsSeparate bitCrypto := by
  intro h₁ h₂ differ
  obtain ⟨i, fits, bits⟩ : ∃ i, i < 256 ∧ h₁.getLsbD i ≠ h₂.getLsbD i := by
    by_contra same
    refine differ (BitVec.eq_of_getLsbD_eq fun i fits => ?_)
    by_contra bits
    exact same ⟨i, fits, bits⟩
  refine ⟨BitVec.ofNat 160 i, 0, ?_⟩
  rw [bitCrypto_csprng h₁ fits, bitCrypto_csprng h₂ fits]
  cases first : h₁.getLsbD i <;> cases second : h₂.getLsbD i <;> simp_all

def sampleTicket (head mid : Bool) : Otprn :=
  { sampleOtprn 0xfa with
    sign := (if head then 1 else 0) :: List.replicate 32 0 ++ (if mid then 1 else 0) ::
      List.replicate 11 0 ++ addressBytes 0xfa }

theorem sampleTicket_decoded (head mid : Bool) :
    decodeOtprn (sampleTicket head mid).encodeOtprn = some (sampleTicket head mid) := by
  refine decodeOtprn_encodeOtprn _ ?_
  cases head <;> cases mid <;> decide +kernel

theorem sampleTicket_signed (head mid : Bool) :
    (sampleTicket head mid).validateSignature bitCrypto = .ok () := by
  cases head <;> cases mid <;> decide +kernel

/-- Signatures that differ in their first byte draw alike. -/
theorem sampleTicket_same_tail :
    signTail (sampleTicket false false).sign = signTail (sampleTicket true false).sign ∧
    ∀ joinNonce coinbase parentHash,
      calcDifficultyDeb bitCrypto joinNonce (sampleTicket false false).encodeOtprn coinbase parentHash =
        calcDifficultyDeb bitCrypto joinNonce (sampleTicket true false).encodeOtprn coinbase parentHash :=
  ⟨rfl, (calcDifficultyDeb_agrees_iff bitCrypto bitCrypto_sized bitCrypto_separates _ _ _ _
    (sampleTicket_decoded false false) (sampleTicket_decoded true false)
    (sampleTicket_signed false false) (sampleTicket_signed true false)).mpr rfl⟩

/-- A join nonce of 2^63 draws nothing, and a draw of 2^63 - 1 wraps. -/
theorem sampleTicket_more_is_worse :
    calcDifficultyDeb bitCrypto 0 (sampleTicket false true).encodeOtprn 248 0 = 2 ∧
      calcDifficultyDeb bitCrypto 0x8000000000000000 (sampleTicket false true).encodeOtprn 248 0 = 1 ∧
      calcDifficultyDeb { bitCrypto with keccak := fun _ => 0x7fffffffffffffff } 0 [] 0 0 =
        -0x8000000000000000 :=
  ⟨by decide +kernel, by decide +kernel, by decide +kernel⟩

/-- A second signature of the same OTPRN by the same fairnode doubles the difficulty. -/
theorem sampleTicket_extra_draw :
    decodeOtprn (sampleTicket false false).encodeOtprn = some (sampleTicket false false) ∧
      decodeOtprn (sampleTicket false true).encodeOtprn = some (sampleTicket false true) ∧
      (sampleTicket false false).validateSignature bitCrypto = .ok () ∧
      (sampleTicket false true).validateSignature bitCrypto = .ok () ∧
      (sampleTicket false false).hashOtprn bitCrypto = (sampleTicket false true).hashOtprn bitCrypto ∧
      (sampleTicket false false).fnAddr = (sampleTicket false true).fnAddr ∧
      calcDifficultyDeb bitCrypto 0 (sampleTicket false false).encodeOtprn 248 0 = 1 ∧
      calcDifficultyDeb bitCrypto 0 (sampleTicket false true).encodeOtprn 248 0 = 2 :=
  ⟨sampleTicket_decoded _ _, sampleTicket_decoded _ _, sampleTicket_signed _ _,
    sampleTicket_signed _ _, rfl, rfl, by decide +kernel, by decide +kernel⟩

end Anduschain
