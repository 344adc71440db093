import Anduschain.GoCall
import Anduschain.HexText
import Anduschain.TxWire

/-! The orderer: the digest of a broadcast list that it signs, folded through hexadecimal texts,
and the handler that puts submitted transactions into the pool. -/
namespace Anduschain.Orderer
open ByteOrder RlpItem HexText Anduschain.Types GoCall

/-- `Hash.String`. -/
def hashText (h : Hash) : Bytes := encodeBytes (hashBytes h)

def xorHashes (hash1 hash2 : Bytes) : Option Bytes := do
  let bytes1 ← decodeString hash1
  let bytes2 ← decodeString hash2
  if bytes1.length ≠ bytes2.length then none
  else return encodePairs (bytes1.zipWith (· ^^^ ·) bytes2)

structure Identity where
  chainID : UInt64
  address : Bytes
  signHash : Hash → Bytes

structure TransactionList where
  chainID : UInt64
  address : Bytes
  sign : Bytes
  transactions : List Bytes
  deriving DecidableEq

section Broadcast
variable (crypto : Crypto)

def foldHash (rHash : Hash) (tx : Bytes) : Hash :=
  match unmarshalBinary tx with
  | .error _ => rHash
  | .ok aTx =>
    match xorHashes (hashText rHash) (hashText (aTx.hash crypto)) with
    | some thash => hexToHash thash
    | none => rHash

def signedDigest (txs : List Bytes) : Hash := txs.foldl (foldHash crypto) 0

def makeMsg (orderer : Identity) (txs : List Bytes) : TransactionList where
  chainID := orderer.chainID
  address := orderer.address
  sign := orderer.signHash (signedDigest crypto txs)
  transactions := txs

def pooledHashes (txs : List Bytes) : List Hash :=
  txs.filterMap fun tx => (unmarshalBinary tx).toOption.map (TxData.hash crypto)

def xorAll (hashes : List Hash) : Hash := hashes.foldl (· ^^^ ·) 0

variable {crypto}

-- The `x` of a leading `0x` is no digit.
theorem decodeString_hashText (h : Hash) : decodeString (hashText h) = none := by
  rw [decodeString]
  split_ifs with odd
  · rfl
  · rfl

theorem foldHash_eq (rHash : Hash) (tx : Bytes) : foldHash crypto rHash tx = rHash := by
  unfold foldHash
  cases unmarshalBinary tx with
  | error e => rfl
  | ok aTx =>
    have refused : xorHashes (hashText rHash) (hashText (aTx.hash crypto)) = none := by
      rw [xorHashes, decodeString_hashText]
      rfl
    simp only [refused]

theorem signedDigest_eq_zero (txs : List Bytes) : signedDigest crypto txs = 0 := by
  induction txs with
  | nil => rfl
  | cons tx txs ih =>
    rw [signedDigest, List.foldl_cons, foldHash_eq]
    exact ih

/-- The signature never depends on the list, and what is signed is the XOR of the hashes only
where that is zero. -/
theorem signed_digest_constant (crypto : Crypto) (orderer : Identity) (txs txs' : List Bytes) :
    signedDigest crypto txs = signedDigest crypto txs' ∧
    (makeMsg crypto orderer txs).sign = (makeMsg crypto orderer txs').sign ∧
    (signedDigest crypto txs = xorAll (pooledHashes crypto txs) ↔
      xorAll (pooledHashes crypto txs) = 0) := by
  simp only [makeMsg, signedDigest_eq_zero, true_and]
  exact eq_comm

def samplePooled (nonce : UInt64) : TxData :=
  .legacy ⟨generalTx, nonce, 1, 21000, some 7, 100, [], 27, 1, 1⟩

theorem samplePooled_decodes :
    unmarshalBinary (encode (samplePooled 1).toItem) = .ok (samplePooled 1) ∧
    unmarshalBinary (encode (samplePooled 2).toItem) = .ok (samplePooled 2) :=
  ⟨unmarshalBinary_encode nofun (by decide), unmarshalBinary_encode nofun (by decide)⟩

theorem samplePooled_same_digest :
    let one := encode (samplePooled 1).toItem
    let two := encode (samplePooled 2).toItem
    pooledHashes sampleCrypto [one] ≠ pooledHashes sampleCrypto [two] ∧
    signedDigest sampleCrypto [one] = signedDigest sampleCrypto [two] ∧
    signedDigest sampleCrypto [one] ≠ xorAll (pooledHashes sampleCrypto [one]) := by
  obtain ⟨first, second⟩ := samplePooled_decodes
  have apart : (samplePooled 1).hash sampleCrypto ≠ (samplePooled 2).hash sampleCrypto := by
    decide +kernel
  have nonzero : 0 ≠ xorAll [(samplePooled 1).hash sampleCrypto] := by decide +kernel
  refine ⟨?_, ?_, ?_⟩
  · simpa [pooledHashes, first, second, Except.toOption] using apart
  · rw [signedDigest_eq_zero, signedDigest_eq_zero]
  · rw [signedDigest_eq_zero]
    simpa [pooledHashes, first, Except.toOption] using nonzero

end Broadcast

structure PoolRow where
  sender : Address
  nonce : UInt64
  hash : Hash
  transaction : Bytes
  deriving DecidableEq

def ofExcept {ε α : Type} : Except ε α → GoCall ε α
  | .ok a => .returns a
  | .error e => .fails e

section Handler
variable (crypto : Crypto) (ecdsa : Ecdsa)

/-- `EIP155Signer.Sender`, for a signer whose chain id may be nil and a transaction whose inner
data may be. -/
def eip155Sender (chainId : Option ℕ) (data : Option TxData) : GoCall String Address := do
  let inner ← orPanic data
  if !isProtectedV inner.rawSignatureValues.1 then
    ofExcept (Signer.homestead.sender crypto ecdsa inner)
  else
    let chainId ← orPanic chainId
    ofExcept ((Signer.eip155 chainId).sender crypto ecdsa inner)

variable (transaction : Bytes)

/-- The row the handler inserts. A failed decoding is only logged, a failed recovery not even
that, and the signer is the zero `EIP155Signer`. -/
def insertTransaction : GoCall String PoolRow := do
  let data := (unmarshalBinary transaction).toOption
  let sender ← (eip155Sender crypto ecdsa none data).dropFail 0
  let inner ← orPanic data
  return ⟨sender, inner.unsigned.nonce, inner.hash crypto, transaction⟩

def transactions (txs : List Bytes) : GoCall String (List PoolRow) :=
  mapAll (insertTransaction crypto ecdsa) txs

def recovered (inner : TxData) : Except String Address :=
  (Signer.eip155 inner.chainID).sender crypto ecdsa inner

def Decodable : Prop := (unmarshalBinary transaction).toOption.isSome = true

instance (transaction : Bytes) : Decidable (Decodable transaction) := by
  unfold Decodable
  infer_instance

def RowOf (row : PoolRow) : Prop :=
  ∃ inner, unmarshalBinary transaction = .ok inner ∧ recovered crypto ecdsa inner = .ok row.sender ∧
    row.nonce = inner.unsigned.nonce ∧ row.hash = inner.hash crypto ∧ row.transaction = transaction

/-- The handler returns, with a row for each decodable transaction and for no other. -/
def Survives (txs : List Bytes) : Prop :=
  ∃ rows, transactions crypto ecdsa txs = returns rows ∧
    List.Forall₂ (RowOf crypto ecdsa) (txs.filter fun tx => Decodable tx) rows

def Unprotected : Prop :=
  ∃ inner, unmarshalBinary transaction = .ok inner ∧
    isProtectedV inner.rawSignatureValues.1 = false ∧
    ∃ sender, Signer.homestead.sender crypto ecdsa inner = .ok sender

variable {crypto ecdsa}

theorem exists_forall₂_iff {α β : Type} {R : α → β → Prop} {xs : List α} :
    (∃ ys, List.Forall₂ R xs ys) ↔ ∀ x ∈ xs, ∃ y, R x y := by
  induction xs with
  | nil => simp
  | cons x xs ih =>
    simp only [List.mem_cons, forall_eq_or_imp, ← ih, List.forall₂_cons_left_iff]
    exact ⟨fun ⟨_, y, ys, here, rest, _⟩ => ⟨⟨y, here⟩, ys, rest⟩,
      fun ⟨⟨y, here⟩, ys, rest⟩ => ⟨_, y, ys, here, rest, rfl⟩⟩

theorem recovered_unprotected {inner : TxData}
    (unprotected : isProtectedV inner.rawSignatureValues.1 = false) :
    recovered crypto ecdsa inner = Signer.homestead.sender crypto ecdsa inner := by
  simp [recovered, Signer.sender, unprotected]

-- Without a chain id the signer gets through an unprotected transaction only.
theorem eip155Sender_nil {inner : TxData} :
    eip155Sender crypto ecdsa none (some inner) =
      if isProtectedV inner.rawSignatureValues.1 then panics
      else ofExcept (recovered crypto ecdsa inner) := by
  cases guarded : isProtectedV inner.rawSignatureValues.1 with
  | true => simp [eip155Sender, orPanic, guarded, bind]
  | false => simp [eip155Sender, orPanic, guarded, recovered_unprotected guarded, bind]

def Inserted (crypto : Crypto) (ecdsa : Ecdsa) (transaction : Bytes) (row : PoolRow) : Prop :=
  ∃ inner, unmarshalBinary transaction = .ok inner ∧
    isProtectedV inner.rawSignatureValues.1 = false ∧
    row = ⟨(recovered crypto ecdsa inner).toOption.getD 0, inner.unsigned.nonce, inner.hash crypto,
      transaction⟩

theorem insertTransaction_eq_returns {tx : Bytes} {row : PoolRow} :
    insertTransaction crypto ecdsa tx = returns row ↔ Inserted crypto ecdsa tx row := by
  unfold insertTransaction Inserted
  cases decoded : unmarshalBinary tx with
  | error e => simp [Except.toOption, eip155Sender, orPanic, bind, dropFail]
  | ok inner =>
    cases guarded : isProtectedV inner.rawSignatureValues.1 with
    | true => simp [Except.toOption, eip155Sender_nil, guarded, bind, dropFail]
    | false =>
      have sent : ((ofExcept (recovered crypto ecdsa inner)).dropFail 0 : GoCall String Address) =
          returns ((recovered crypto ecdsa inner).toOption.getD 0) := by
        cases recovered crypto ecdsa inner <;> rfl
      dsimp only [Except.toOption]
      rw [eip155Sender_nil, guarded, if_neg Bool.false_ne_true, sent]
      constructor
      · intro inserted
        exact ⟨inner, rfl, guarded, (returns.inj inserted).symm⟩
      · rintro ⟨inner', same, -, rfl⟩
        obtain rfl := Except.ok.inj same
        rfl

theorem transactions_eq_returns {txs : List Bytes} {rows : List PoolRow} :
    transactions crypto ecdsa txs = returns rows ↔
      List.Forall₂ (Inserted crypto ecdsa) txs rows := by
  simp only [transactions, mapAll_eq_returns, insertTransaction_eq_returns]

theorem filter_decodable {txs : List Bytes}
    (each : ∀ tx ∈ txs, ∃ row, Inserted crypto ecdsa tx row) :
    (txs.filter fun tx => Decodable tx) = txs := by
  refine List.filter_eq_self.mpr fun tx member => ?_
  obtain ⟨_, inner, decoded, -⟩ := each tx member
  simp [Decodable, decoded, Except.toOption]

/-- A list gets through, all of its decodable transactions with their senders, exactly if each of
them is decodable, unprotected and recovers under the Homestead rules. -/
theorem transactions_survive_iff (crypto : Crypto) (ecdsa : Ecdsa) (txs : List Bytes) :
    Survives crypto ecdsa txs ↔ ∀ tx ∈ txs, Unprotected crypto ecdsa tx := by
  simp only [Survives, transactions_eq_returns]
  constructor
  · rintro ⟨rows, inserted, senders⟩ tx member
    have each := exists_forall₂_iff.mp ⟨rows, inserted⟩
    rw [filter_decodable each] at senders
    obtain ⟨_, inner, decoded, unprotected, -⟩ := each tx member
    obtain ⟨row, inner', decoded', sent, -⟩ := exists_forall₂_iff.mp ⟨rows, senders⟩ tx member
    obtain rfl := Except.ok.inj (decoded.symm.trans decoded')
    exact ⟨inner, decoded, unprotected, row.sender, recovered_unprotected unprotected ▸ sent⟩
  · intro good
    have both : ∀ tx ∈ txs, ∃ row, Inserted crypto ecdsa tx row ∧ RowOf crypto ecdsa tx row := by
      intro tx member
      obtain ⟨inner, decoded, unprotected, sender, sent⟩ := good tx member
      rw [← recovered_unprotected unprotected] at sent
      refine ⟨_, ⟨inner, decoded, unprotected, rfl⟩, inner, decoded, ?_, rfl, rfl, rfl⟩
      rw [sent]
      rfl
    obtain ⟨rows, rowOf⟩ := exists_forall₂_iff.mpr both
    have inserted := rowOf.imp fun _ _ both => both.1
    refine ⟨rows, inserted, ?_⟩
    rw [filter_decodable (exists_forall₂_iff.mp ⟨rows, inserted⟩)]
    exact rowOf.imp fun _ _ both => both.2

def samplePanicking : TxData := .legacy ⟨generalTx, 0, 1, 21000, some 7, 100, [], 37, 1, 1⟩

/-- Neither the empty string nor a transaction protected for chain 1 gets through. -/
theorem samplePanicking_panics :
    transactions sampleCrypto ⟨Unit, fun _ => [], fun _ _ => .error "", fun _ _ => .error ""⟩
      [encode samplePanicking.toItem] = panics ∧
    transactions sampleCrypto ⟨Unit, fun _ => [], fun _ _ => .error "", fun _ _ => .error ""⟩
      [[]] = panics := by
  have decoded : unmarshalBinary (encode samplePanicking.toItem) = .ok samplePanicking :=
    unmarshalBinary_encode nofun (by decide)
  refine ⟨?_, rfl⟩
  unfold transactions mapAll insertTransaction
  rw [decoded]
  dsimp only [Except.toOption]
  rw [eip155Sender_nil]
  rfl

end Handler
end Anduschain.Orderer
