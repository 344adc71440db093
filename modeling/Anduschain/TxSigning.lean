import Anduschain.TxData

/-! Signing transactions: what a signed transaction recovers to, and what signing does to the
transaction it starts from. ECDSA is a parameter that signs and recovers as its package says. -/
namespace Anduschain.Types
open ByteOrder RlpItem List

/-- The form that `crypto.Sign` gives: the lower of the two values `s`, and a recovery id of 0 or
1. -/
structure Canonical (sig : Bytes) : Prop where
  size : sig.length = 65
  r_pos : 1 ≤ beNat (sig.take 32)
  r_lt : beNat (sig.take 32) < secp256k1N
  s_pos : 1 ≤ beNat ((sig.drop 32).take 32)
  s_le : beNat ((sig.drop 32).take 32) ≤ secp256k1halfN
  id : sig.getD 64 0 = 0 ∨ sig.getD 64 0 = 1

/-- Signing and recovering are inverse, and no other digest leads back to the signer. -/
structure Ecdsa.Inverse (crypto : Crypto) (ecdsa : Ecdsa) : Prop where
  uncompressed : ∀ key, (ecdsa.publicKey key).head? = some 4
  signs : ∀ key digest, ∃ sig, ecdsa.sign key digest = .ok sig ∧ Canonical sig ∧
    ecdsa.ecrecover digest sig = .ok (ecdsa.publicKey key)
  binds : ∀ key digest other sig pub, ecdsa.sign key digest = .ok sig →
    ecdsa.ecrecover other sig = .ok pub →
    pubkeyToAddress crypto pub = pubkeyToAddress crypto (ecdsa.publicKey key) → other = digest

def Ecdsa.address (crypto : Crypto) (ecdsa : Ecdsa) (key : ecdsa.Key) : Address :=
  pubkeyToAddress crypto (ecdsa.publicKey key)

namespace Canonical
variable {sig : Bytes}

theorem parts (canonical : Canonical sig) :
    beFixed 32 (beNat (sig.take 32)) ++ beFixed 32 (beNat ((sig.drop 32).take 32)) ++
      [sig.getD 64 0] = sig := by
  have size := canonical.size
  have first : (sig.take 32).length = 32 := by rw [length_take]; omega
  have second : ((sig.drop 32).take 32).length = 32 := by
    rw [length_take, length_drop]
    omega
  have third : sig.drop 64 = [sig.getD 64 0] := by
    rw [drop_eq_getElem_cons (by omega), drop_eq_nil_of_le (by omega),
      getD_eq_getElem?_getD, getElem?_eq_getElem (by omega), Option.getD_some]
  have r := beFixed_beNat (sig.take 32)
  have s := beFixed_beNat ((sig.drop 32).take 32)
  rw [first] at r
  rw [second] at s
  rw [r, s, ← third, append_assoc]
  have tail : (sig.drop 32).take 32 ++ sig.drop 64 = sig.drop 32 := by
    have split := take_append_drop 32 (sig.drop 32)
    rwa [drop_drop] at split
  rw [tail, take_append_drop]

theorem recovery_id (canonical : Canonical sig) :
    (UInt64.ofNat ((sig.getD 64 0).toNat + 27) - 27).toUInt8 = sig.getD 64 0 := by
  rcases canonical.id with zero | one
  · rw [zero]
    rfl
  · rw [one]
    rfl

theorem id_le (canonical : Canonical sig) : (sig.getD 64 0).toNat ≤ 1 := by
  rcases canonical.id with zero | one
  · rw [zero]
    decide
  · rw [one]
    decide

theorem valid (canonical : Canonical sig) (homestead : Bool) :
    validateSignatureValues (sig.getD 64 0) (beNat (sig.take 32))
      (beNat ((sig.drop 32).take 32)) homestead = true := by
  have low : secp256k1halfN < secp256k1N := by decide
  have r_pos := canonical.r_pos
  have r_lt := canonical.r_lt
  have s_pos := canonical.s_pos
  have s_le := canonical.s_le
  have id : (sig.getD 64 0 == 0 || sig.getD 64 0 == 1) = true := by
    rcases canonical.id with zero | one
    · rw [zero]
      rfl
    · rw [one]
      rfl
  rw [validateSignatureValues, if_neg (by omega), if_neg (by simp; omega), id]
  simp only [Bool.and_true, Bool.and_eq_true, decide_eq_true_eq]
  omega

end Canonical

section Signing
variable {crypto : Crypto} {ecdsa : Ecdsa}

theorem recoverPlain_canonical {sig : Bytes} (canonical : Canonical sig) (digest : Hash)
    (homestead : Bool) :
    recoverPlain crypto ecdsa digest (beNat (sig.take 32)) (beNat ((sig.drop 32).take 32))
        (((sig.getD 64 0).toNat + 27 : ℕ) : ℤ) homestead =
      addressOf crypto (ecdsa.ecrecover digest sig) := by
  have id := canonical.id_le
  rw [recoverPlain, Int.natAbs_natCast, if_neg (by omega)]
  simp only [canonical.recovery_id, canonical.valid, canonical.parts, if_true]

theorem toNat_id_add {id : UInt8} (small : id.toNat ≤ 1) (n : UInt8) (fits : n.toNat < 255) :
    (id + n).toNat = id.toNat + n.toNat := by
  rw [UInt8.toNat_add]
  omega

theorem deriveChainId_signed (chainId : ℕ) {id : ℕ} (small : id ≤ 1) :
    deriveChainId (id + 35 + 2 * chainId) = chainId := by
  unfold deriveChainId
  split
  · rename_i fits
    rw [if_neg (by omega), UInt64.toNat_div, UInt64.toNat_sub_of_le]
    · rw [UInt64.toNat_ofNat_of_lt' fits]
      change (id + 35 + 2 * chainId - 35) / 2 = chainId
      omega
    · rw [UInt64.le_iff_toNat_le, UInt64.toNat_ofNat_of_lt' fits]
      change 35 ≤ _
      omega
  · omega

theorem isProtectedV_signed (chainId id : ℕ) : isProtectedV (id + 35 + 2 * chainId) = true := by
  unfold isProtectedV
  split
  · simp only [Bool.and_eq_true, bne_iff_ne]
    omega
  · rfl

variable {key : ecdsa.Key} {sig : Bytes} {digest : Hash}

theorem recoverPlain_signed (inverse : ecdsa.Inverse crypto) (signed : ecdsa.sign key digest = .ok sig)
    (homestead : Bool) :
    recoverPlain crypto ecdsa digest (beNat (sig.take 32)) (beNat ((sig.drop 32).take 32))
      (((sig.getD 64 0).toNat + 27 : ℕ) : ℤ) homestead = .ok (ecdsa.address crypto key) := by
  obtain ⟨sig', signed', canonical, recovered⟩ := inverse.signs key digest
  obtain rfl : sig' = sig := Except.ok.inj (signed'.symm.trans signed)
  rw [recoverPlain_canonical canonical, recovered, addressOf, if_pos (inverse.uncompressed key)]
  rfl

theorem recoverPlain_other (inverse : ecdsa.Inverse crypto) (signed : ecdsa.sign key digest = .ok sig)
    {other : Hash} {homestead : Bool}
    (recovered : recoverPlain crypto ecdsa other (beNat (sig.take 32))
      (beNat ((sig.drop 32).take 32)) (((sig.getD 64 0).toNat + 27 : ℕ) : ℤ) homestead =
        .ok (ecdsa.address crypto key)) : other = digest := by
  obtain ⟨sig', signed', canonical, -⟩ := inverse.signs key digest
  obtain rfl : sig' = sig := Except.ok.inj (signed'.symm.trans signed)
  rw [recoverPlain_canonical canonical] at recovered
  cases found : ecdsa.ecrecover other sig' with
  | error err => simp [found, addressOf] at recovered
  | ok pub =>
    rw [found, addressOf] at recovered
    split at recovered
    · exact inverse.binds key digest other sig' pub signed found (Except.ok.inj recovered)
    · cases recovered

/-- The unprotected signature of a chain id of zero is checked against the Homestead digest. -/
def DigestsAgree (crypto : Crypto) (signer : Signer) (u : Unsigned) : Prop :=
  signer = .eip155 0 → Signer.homestead.hash crypto u = signer.hash crypto u

theorem signatureValues_canonical (canonical : Canonical sig) (signer : Signer) :
    signer.signatureValues sig = some (beNat (sig.take 32), beNat ((sig.drop 32).take 32),
      match signer with
      | .eip155 chainId =>
        if chainId = 0 then (sig.getD 64 0).toNat + 27
        else (sig.getD 64 0).toNat + 35 + 2 * chainId
      | _ => (sig.getD 64 0).toNat + 27) := by
  have home := toNat_id_add canonical.id_le 27 (by decide)
  have replay := toNat_id_add canonical.id_le 35 (by decide)
  rw [Signer.signatureValues, if_pos canonical.size]
  cases signer with
  | frontier => simp only [home]; rfl
  | homestead => simp only [home]; rfl
  | eip155 chainId => simp only [home, replay]; rfl

theorem sender_signed (inverse : ecdsa.Inverse crypto) (signer : Signer) (tx : LegacyTx)
    (signed : ecdsa.sign key (signer.hash crypto (TxData.legacy tx).unsigned) = .ok sig)
    {r s v : ℕ} (values : signer.signatureValues sig = some (r, s, v)) :
    signer.sender crypto ecdsa ((TxData.legacy tx).setSignatureValues v r s) =
        .ok (ecdsa.address crypto key) ↔
      DigestsAgree crypto signer (TxData.legacy tx).unsigned := by
  obtain ⟨sig', signed', canonical, -⟩ := inverse.signs key
    (signer.hash crypto (TxData.legacy tx).unsigned)
  obtain rfl : sig' = sig := Except.ok.inj (signed'.symm.trans signed)
  have id := canonical.id_le
  rw [signatureValues_canonical canonical, Option.some.injEq] at values
  simp only [Prod.mk.injEq] at values
  obtain ⟨rfl, rfl, rfl⟩ := values
  cases signer with
  | frontier =>
    have found := recoverPlain_signed inverse signed false
    exact ⟨fun _ => nofun, fun _ => found⟩
  | homestead =>
    have found := recoverPlain_signed inverse signed true
    exact ⟨fun _ => nofun, fun _ => found⟩
  | eip155 chainId =>
    by_cases zero : chainId = 0
    · subst zero
      have unprotected : isProtectedV ((sig'.getD 64 0).toNat + 27) = false := by
        rcases canonical.id with id | id
        · rw [id]
          rfl
        · rw [id]
          rfl
      simp only [if_true, Signer.sender, TxData.setSignatureValues, TxData.rawSignatureValues,
        unprotected, Bool.not_false]
      constructor
      · intro found _
        exact recoverPlain_other inverse signed found
      · intro agree
        have same := agree rfl
        rw [← same] at signed
        exact recoverPlain_signed inverse signed true
    · have found := recoverPlain_signed inverse signed true
      have guarded := isProtectedV_signed chainId (sig'.getD 64 0).toNat
      have derived := deriveChainId_signed chainId id
      refine ⟨fun _ same => absurd (Signer.eip155.inj same) zero, fun _ => ?_⟩
      have offset : (((sig'.getD 64 0).toNat + 35 + 2 * chainId : ℕ) : ℤ) - 2 * chainId - 8 =
          ((sig'.getD 64 0).toNat + 27 : ℕ) := by push_cast; omega
      simp only [if_neg zero, Signer.sender, TxData.setSignatureValues,
        TxData.rawSignatureValues, TxData.chainID, guarded, derived, Bool.not_true,
        Bool.false_eq_true, if_false, ne_eq, not_true_eq_false, offset]
      exact found

theorem signTx_eq (inverse : ecdsa.Inverse crypto) (heap : Heap) (tx : Transaction)
    (signer : Signer) (key : ecdsa.Key) :
    ∃ sig r s v, ecdsa.sign key (signer.hash crypto (tx.inner heap).unsigned) = .ok sig ∧
      signer.signatureValues sig = some (r, s, v) ∧
      signTx crypto ecdsa heap tx signer key = some (.ok (⟨tx.data, none, none⟩,
        heap.write tx.data ((tx.inner heap).setSignatureValues v r s))) := by
  obtain ⟨sig, signed, canonical, -⟩ := inverse.signs key
    (signer.hash crypto (tx.inner heap).unsigned)
  have values := signatureValues_canonical canonical signer
  refine ⟨sig, _, _, _, signed, values, ?_⟩
  rw [signTx, signed]
  simp only [Transaction.withSignature, values, Option.map_some]

end Signing

section SignThenRecover
variable (crypto : Crypto) (ecdsa : Ecdsa)

def Recovers (signer : Signer) (key : ecdsa.Key) (given : TxData)
    (outcome : Option (Except String (Transaction × Heap))) : Prop :=
  ∃ signed heap, outcome = some (.ok (signed, heap)) ∧
    (signed.inner heap).unsigned = given.unsigned ∧
    signed.sender crypto ecdsa heap signer = .ok (ecdsa.address crypto key)

/-- Only a legacy transaction takes a new signature; other data must carry one that recovers to
the key. -/
def Signable (signer : Signer) (key : ecdsa.Key) : TxData → Prop
  | .legacy tx => DigestsAgree crypto signer (TxData.legacy tx).unsigned
  | inner => signer.sender crypto ecdsa inner = .ok (ecdsa.address crypto key)

variable {crypto ecdsa}

theorem signTx_recovers_iff (inverse : ecdsa.Inverse crypto) (heap : Heap) (tx : Transaction)
    (signer : Signer) (key : ecdsa.Key) :
    Recovers crypto ecdsa signer key (tx.inner heap) (signTx crypto ecdsa heap tx signer key) ↔
      Signable crypto ecdsa signer key (tx.inner heap) := by
  obtain ⟨sig, r, s, v, signed, values, ran⟩ := signTx_eq inverse heap tx signer key
  have recovers : Recovers crypto ecdsa signer key (tx.inner heap)
      (signTx crypto ecdsa heap tx signer key) ↔
      signer.sender crypto ecdsa ((tx.inner heap).setSignatureValues v r s) =
        .ok (ecdsa.address crypto key) := by
    rw [ran]
    constructor
    · rintro ⟨signed, heap', outcome, -, found⟩
      cases outcome
      simpa [Transaction.sender, Transaction.inner] using found
    · intro found
      refine ⟨_, _, rfl, ?_, ?_⟩
      · simp [Transaction.inner]
      · simpa [Transaction.sender, Transaction.inner] using found
  rw [recovers]
  cases known : tx.inner heap with
  | legacy legacy =>
    rw [known] at signed
    exact sender_signed inverse signer legacy signed values
  | eth tx => rfl
  | l1Message tx => rfl

theorem signNewTx_recovers_iff (inverse : ecdsa.Inverse crypto) (heap : Heap) (signer : Signer)
    (key : ecdsa.Key) (txdata : TxData) :
    Recovers crypto ecdsa signer key txdata (signNewTx crypto ecdsa heap key signer txdata) ↔
      (∀ tx, txdata = .legacy tx → tx.txType = generalTx) ∧
        Signable crypto ecdsa signer key txdata := by
  have copied : (newTx heap txdata).1.inner (newTx heap txdata).2 = txdata.copy :=
    heap.alloc_data txdata.copy
  have recovers := signTx_recovers_iff inverse (newTx heap txdata).2 (newTx heap txdata).1 signer key
  rw [copied] at recovers
  rw [← TxData.unsigned_copy]
  by_cases kept : txdata.copy.unsigned = txdata.unsigned
  · have same : Signable crypto ecdsa signer key txdata.copy ↔
        Signable crypto ecdsa signer key txdata := by
      cases txdata with
      | legacy tx => exact iff_of_eq (congrArg (DigestsAgree crypto signer) kept)
      | eth tx => rfl
      | l1Message tx => rfl
    rw [← same, ← recovers]
    simp only [Recovers, kept, true_and, signNewTx]
  · refine ⟨?_, fun held => absurd held.1 kept⟩
    rintro ⟨signed, heap', outcome, fields, -⟩
    obtain ⟨sig, r, s, v, -, -, ran⟩ :=
      signTx_eq inverse (newTx heap txdata).2 (newTx heap txdata).1 signer key
    change signTx crypto ecdsa (newTx heap txdata).2 (newTx heap txdata).1 signer key = _ at outcome
    rw [ran] at outcome
    cases outcome
    rw [copied] at fields
    simp only [Transaction.inner, Heap.write_self, TxData.unsigned_setSignatureValues] at fields
    exact absurd fields kept

end SignThenRecover

section Sample

variable (key : Bool) (digest : Hash)

def spell : Bytes :=
  beFixed 32 (1 + digest.toNat % 2 ^ 128) ++
    beFixed 32 (1 + digest.toNat / 2 ^ 128 + 2 ^ 128 * key.toNat) ++ [0]

def sampleEcdsa : Ecdsa where
  Key := Bool
  publicKey key := [4, UInt8.ofNat key.toNat]
  sign key digest := .ok (spell key digest)
  ecrecover digest sig :=
    if sig = spell false digest then .ok [4, 0]
    else if sig = spell true digest then .ok [4, 1]
    else .error "recovery failed"

theorem spell_length : (spell key digest).length = 65 := by
  simp [spell]

theorem spell_first : beNat ((spell key digest).take 32) = 1 + digest.toNat % 2 ^ 128 := by
  have head : (spell key digest).take 32 = beFixed 32 (1 + digest.toNat % 2 ^ 128) := by
    rw [spell, append_assoc, take_left' (beFixed_length _ _)]
  rw [head, beNat_beFixed_of_lt]
  have : digest.toNat % 2 ^ 128 < 2 ^ 128 := Nat.mod_lt _ (by decide)
  omega

theorem spell_second :
    beNat (((spell key digest).drop 32).take 32) =
      1 + digest.toNat / 2 ^ 128 + 2 ^ 128 * key.toNat := by
  have middle : ((spell key digest).drop 32).take 32 =
      beFixed 32 (1 + digest.toNat / 2 ^ 128 + 2 ^ 128 * key.toNat) := by
    rw [spell, append_assoc, drop_left' (beFixed_length _ _), take_left' (beFixed_length _ _)]
  have high : digest.toNat / 2 ^ 128 < 2 ^ 128 := Nat.div_lt_of_lt_mul digest.isLt
  have small : key.toNat ≤ 1 := Bool.toNat_le key
  rw [middle, beNat_beFixed_of_lt]
  omega

theorem spell_inj {key other : Bool} {digest digest' : Hash}
    (same : spell key digest = spell other digest') : digest = digest' ∧ key = other := by
  have first := spell_first key digest
  have second := spell_second key digest
  rw [same, spell_first] at first
  rw [same, spell_second] at second
  have high : digest.toNat / 2 ^ 128 < 2 ^ 128 := Nat.div_lt_of_lt_mul digest.isLt
  have high' : digest'.toNat / 2 ^ 128 < 2 ^ 128 := Nat.div_lt_of_lt_mul digest'.isLt
  have bit : key.toNat = other.toNat := by omega
  have value : digest.toNat = digest'.toNat := by omega
  refine ⟨BitVec.toNat_inj.mp value, ?_⟩
  cases key <;> cases other <;> simp_all

theorem spell_canonical : Canonical (spell key digest) where
  size := spell_length key digest
  r_pos := by
    rw [spell_first]
    omega
  r_lt := by
    have : digest.toNat % 2 ^ 128 < 2 ^ 128 := Nat.mod_lt _ (by decide)
    have : 1 + 2 ^ 128 < secp256k1N := by decide
    rw [spell_first]
    omega
  s_pos := by
    rw [spell_second]
    omega
  s_le := by
    have high : digest.toNat / 2 ^ 128 < 2 ^ 128 := Nat.div_lt_of_lt_mul digest.isLt
    have small : key.toNat ≤ 1 := Bool.toNat_le key
    have : 1 + 2 * 2 ^ 128 < secp256k1halfN := by decide
    rw [spell_second]
    omega
  id := .inl (by simp [spell])

theorem sampleEcdsa_inverse : sampleEcdsa.Inverse sampleCrypto where
  uncompressed _ := rfl
  signs key digest := by
    refine ⟨_, rfl, spell_canonical key digest, ?_⟩
    cases key with
    | false => simp [sampleEcdsa]
    | true =>
      have other : spell true digest ≠ spell false digest :=
        fun same => absurd (spell_inj same).2 (by decide)
      simp [sampleEcdsa, other]
  binds key digest other sig pub signed recovered _ := by
    cases signed
    simp only [sampleEcdsa] at recovered
    split at recovered
    · rename_i same
      exact (spell_inj same).1.symm
    · split at recovered
      · rename_i same
        exact (spell_inj same).1.symm
      · cases recovered

def sampleTransfer (txType : UInt64) : LegacyTx where
  txType
  accountNonce := 0
  price := 1
  gasLimit := 21000
  recipient := some 7
  amount := 5
  payload := []
  v := 0
  r := 0
  s := 0

def sampleEthdata : TxEthdata where
  accountNonce := 0
  price := 1
  gasLimit := 21000
  recipient := some 7
  amount := 5
  payload := []
  v := 0
  r := 0
  s := 0

def sampleHeap (inner : TxData) : Heap := ⟨fun _ => inner, 1⟩

def sampleRef : Transaction := ⟨0, none, none⟩

end Sample

section SignThenRecover
variable {crypto : Crypto} {ecdsa : Ecdsa}

/-- Signing a transaction, or new inner data, and recovering its sender under the same signer. -/
theorem sign_then_recover_iff (inverse : ecdsa.Inverse crypto) (heap : Heap) (tx : Transaction)
    (txdata : TxData) (signer : Signer) (key : ecdsa.Key) :
    (Recovers crypto ecdsa signer key (tx.inner heap) (signTx crypto ecdsa heap tx signer key) ↔
        Signable crypto ecdsa signer key (tx.inner heap)) ∧
      (Recovers crypto ecdsa signer key txdata (signNewTx crypto ecdsa heap key signer txdata) ↔
        (∀ tx, txdata = .legacy tx → tx.txType = generalTx) ∧
          Signable crypto ecdsa signer key txdata) :=
  ⟨signTx_recovers_iff inverse heap tx signer key,
    signNewTx_recovers_iff inverse heap signer key txdata⟩

theorem sampleTransfer_recovers :
    Recovers sampleCrypto sampleEcdsa (.eip155 3) true (.legacy (sampleTransfer generalTx))
      (signNewTx sampleCrypto sampleEcdsa (sampleHeap (.eth sampleEthdata)) true (.eip155 3)
        (.legacy (sampleTransfer generalTx))) := by
  refine (sign_then_recover_iff sampleEcdsa_inverse (sampleHeap (.eth sampleEthdata)) sampleRef
    (.legacy (sampleTransfer generalTx)) (.eip155 3) true).2.mpr ⟨?_, nofun⟩
  rintro tx ⟨⟩
  rfl

/-- A new join transaction comes back as a general one, and one of Ethereum without a signature. -/
theorem sampleJoin_comes_back_general :
    ¬ Recovers sampleCrypto sampleEcdsa .homestead true (.legacy (sampleTransfer joinTx))
        (signNewTx sampleCrypto sampleEcdsa (sampleHeap (.eth sampleEthdata)) true .homestead
          (.legacy (sampleTransfer joinTx))) ∧
      ¬ Recovers sampleCrypto sampleEcdsa .homestead true (.eth sampleEthdata)
        (signTx sampleCrypto sampleEcdsa (sampleHeap (.eth sampleEthdata)) sampleRef .homestead
          true) := by
  constructor
  · intro recovers
    obtain ⟨general, -⟩ := (signNewTx_recovers_iff sampleEcdsa_inverse
      (sampleHeap (.eth sampleEthdata)) .homestead true (.legacy (sampleTransfer joinTx))).mp recovers
    exact absurd (general _ rfl) (by decide)
  · intro recovers
    have carried := (signTx_recovers_iff sampleEcdsa_inverse (sampleHeap (.eth sampleEthdata))
      sampleRef .homestead true).mp recovers
    have invalid : Signer.homestead.sender sampleCrypto sampleEcdsa (.eth sampleEthdata) =
        .error errInvalidSig := rfl
    exact absurd (invalid.symm.trans carried) nofun

end SignThenRecover

section Frame
variable (crypto : Crypto) (ecdsa : Ecdsa)

structure Unchanged (before after : Heap) (tx : Transaction) : Prop where
  values : (tx.inner after).rawSignatureValues = (tx.inner before).rawSignatureValues
  hash : tx.hash crypto after = tx.hash crypto before
  sender : ∀ signer, tx.sender crypto ecdsa after signer = tx.sender crypto ecdsa before signer

variable {crypto ecdsa} {heap heap' : Heap} {tx signed : Transaction} {signer : Signer}

theorem withSignature_eq {sig : Bytes}
    (ran : tx.withSignature heap signer sig = some (signed, heap')) :
    ∃ r s v, signer.signatureValues sig = some (r, s, v) ∧ signed = ⟨tx.data, none, none⟩ ∧
      heap' = heap.write tx.data ((tx.inner heap).setSignatureValues v r s) := by
  obtain ⟨⟨r, s, v⟩, values, outcome⟩ := Option.map_eq_some_iff.mp ran
  cases outcome
  exact ⟨r, s, v, values, rfl, rfl⟩

theorem unchanged_of_inner (same : tx.inner heap' = tx.inner heap) :
    Unchanged crypto ecdsa heap heap' tx where
  values := by rw [same]
  hash := by rw [Transaction.hash, Transaction.hash, same]
  sender signer := by rw [Transaction.sender, Transaction.sender, same]

theorem withSignature_unchanged_iff {sig : Bytes}
    (ran : tx.withSignature heap signer sig = some (signed, heap')) :
    Unchanged crypto ecdsa heap heap' tx ↔
      ∀ legacy, tx.inner heap = .legacy legacy →
        signer.signatureValues sig = some (legacy.r, legacy.s, legacy.v) := by
  obtain ⟨r, s, v, values, -, rfl⟩ := withSignature_eq ran
  have written : tx.inner (heap.write tx.data ((tx.inner heap).setSignatureValues v r s)) =
      (tx.inner heap).setSignatureValues v r s := heap.write_self tx.data _
  constructor
  · rintro unchanged legacy known
    have same := unchanged.values
    rw [written, known] at same
    cases same
    exact values
  · intro carried
    apply unchanged_of_inner
    rw [written]
    cases known : tx.inner heap with
    | legacy legacy =>
      have same := carried legacy known
      rw [values] at same
      cases same
      rfl
    | eth eth => rfl
    | l1Message message => rfl

theorem signTx_shares {signed' : Transaction} {heap'' : Heap} {key other : ecdsa.Key}
    (first : signTx crypto ecdsa heap tx signer key = some (.ok (signed, heap')))
    (second : signTx crypto ecdsa heap' tx signer other = some (.ok (signed', heap''))) :
    signed' = signed := by
  have outcome {h₁ h₂ : Heap} {t : Transaction} {k : ecdsa.Key}
      (ran : signTx crypto ecdsa h₁ tx signer k = some (.ok (t, h₂))) :
      t = ⟨tx.data, none, none⟩ := by
    unfold signTx at ran
    split at ran
    · cases ran
    · obtain ⟨⟨t', h'⟩, inner, outcome⟩ := Option.map_eq_some_iff.mp ran
      cases outcome
      obtain ⟨-, -, -, -, rfl, -⟩ := withSignature_eq inner
      rfl
  rw [outcome first, outcome second]

/-- Signing writes into the receiver, and two signatures of one transaction are one. -/
theorem withSignature_aliases (sig : Bytes)
    (ran : tx.withSignature heap signer sig = some (signed, heap')) :
    (Unchanged crypto ecdsa heap heap' tx ↔
        ∀ legacy, tx.inner heap = .legacy legacy →
          signer.signatureValues sig = some (legacy.r, legacy.s, legacy.v)) ∧
      ∀ (key other : ecdsa.Key) (one two : Transaction) (mid last : Heap),
        signTx crypto ecdsa heap tx signer key = some (.ok (one, mid)) →
        signTx crypto ecdsa mid tx signer other = some (.ok (two, last)) →
        one.sender crypto ecdsa last signer = .ok (ecdsa.address crypto key) →
        two.sender crypto ecdsa last signer = .ok (ecdsa.address crypto other) →
        ecdsa.address crypto key = ecdsa.address crypto other := by
  refine ⟨withSignature_unchanged_iff ran, ?_⟩
  intro key other one two mid last first second found found'
  rw [signTx_shares first second, found] at found'
  exact Except.ok.inj found'

theorem sampleEthdata_unchanged :
    Unchanged sampleCrypto sampleEcdsa (sampleHeap (.eth sampleEthdata))
      ((sampleHeap (.eth sampleEthdata)).write 0 (.eth sampleEthdata)) sampleRef := by
  have values := signatureValues_canonical (spell_canonical true 5) .homestead
  have ran : sampleRef.withSignature (sampleHeap (.eth sampleEthdata)) .homestead (spell true 5) =
      some (sampleRef, (sampleHeap (.eth sampleEthdata)).write 0 (.eth sampleEthdata)) := by
    rw [Transaction.withSignature, values]
    rfl
  exact (withSignature_aliases (spell true 5) ran).1.mpr nofun

/-- The receiver of `SignTx` carries the signature afterwards. -/
theorem sampleTransfer_overwritten :
    ∃ signed heap', signTx sampleCrypto sampleEcdsa (sampleHeap (.legacy (sampleTransfer generalTx)))
        sampleRef .homestead true = some (.ok (signed, heap')) ∧
      ¬ Unchanged sampleCrypto sampleEcdsa (sampleHeap (.legacy (sampleTransfer generalTx))) heap'
        sampleRef := by
  obtain ⟨sig, r, s, v, signed, values, ran⟩ := signTx_eq sampleEcdsa_inverse
    (sampleHeap (.legacy (sampleTransfer generalTx))) sampleRef .homestead true
  refine ⟨_, _, ran, fun unchanged => ?_⟩
  cases signed
  rw [signatureValues_canonical (spell_canonical _ _), Option.some.injEq] at values
  have first := (Prod.mk.inj values).1
  rw [spell_first] at first
  have kept := congrArg (fun raw => raw.2.1) unchanged.values
  change r = 0 at kept
  omega

end Frame

end Anduschain.Types
