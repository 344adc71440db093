import Anduschain.GoCall
import Anduschain.HexText
import Anduschain.TxWire

/-! Blocks of the rollup as package rollup_sync_service flattens and encodes them: which
transactions count as L1 messages, and which transactions a chunk carries unchanged. -/
namespace Anduschain.Rollup
open ByteOrder RlpItem HexText Anduschain.Types GoCall List

inductive RollupError where
  | numberNotUint64
  | tooManyL1Messages
  | tooManyTransactions
  | decodeData (text : Bytes)
  | marshalTx (e : EncodeError)
  | encodeBlock (e : RollupError)
  | blockEncodingSize (got : ℕ)
  | tooManyBlocks
  | noBlocks
  | decodeTxHash (text : Bytes)
  | unexpectedPayload (expected got batchIndex : UInt64) (chunkID blockID : ℕ) (blockHash : Hash)
      (txHash : Bytes)
  | emptyChunk
  | chunkSize
  | contextSize
  deriving DecidableEq

/-- What is kept of a transaction; the texts are hexadecimal. -/
structure TransactionData where
  type : UInt64
  nonce : UInt64
  txHash : Bytes
  gas : UInt64
  gasPrice : ℕ
  recipient : Option Address
  chainId : ℕ
  value : ℕ
  data : Bytes
  isCreate : Bool
  v : ℕ
  r : ℕ
  s : ℕ
  deriving DecidableEq

structure WrappedBlock where
  header : Header
  transactions : List TransactionData
  withdrawRoot : Hash := 0
  deriving DecidableEq

/-- `Transaction.Type` looks at the dynamic type first. -/
def txType : TxData → UInt64
  | .legacy tx => tx.txType
  | _ => ethTx

def isL1MessageTx (inner : TxData) : Bool := txType inner = l1MessageTxType

section Conversion
variable {ε : Type} (crypto : Crypto)

/-- The type assertion has no second result, so it panics at any other dynamic type. -/
def asL1MessageTx (inner : TxData) : GoCall ε (Option L1MessageTx) :=
  if isL1MessageTx inner then
    match inner with
    | .l1Message tx => returns (some tx)
    | _ => panics
  else returns none

/-- The queue index of an L1 message takes the place of the nonce. -/
def txDataOf (inner : TxData) (msg : Option L1MessageTx) : TransactionData where
  type := txType inner
  nonce := msg.elim inner.unsigned.nonce L1MessageTx.queueIndex
  txHash := encodeBytes (hashBytes (inner.hash crypto))
  gas := inner.unsigned.gas
  gasPrice := inner.unsigned.gasPrice
  recipient := inner.unsigned.recipient
  chainId := inner.chainID
  value := inner.unsigned.value
  data := encodeBytes inner.unsigned.data
  isCreate := inner.unsigned.recipient.isNone
  v := inner.rawSignatureValues.1
  r := inner.rawSignatureValues.2.1
  s := inner.rawSignatureValues.2.2

def txsToTxsData : List TxData → GoCall ε (List TransactionData)
  | [] => returns []
  | tx :: txs => do
    let msg ← asL1MessageTx tx
    return txDataOf crypto tx msg :: (← txsToTxsData txs)

end Conversion

/-- `hexutil.Decode`. -/
def decodeHex (text : Bytes) : Option Bytes := (cut0x text).bind decodeString

/-- The transaction is rebuilt without its type, and `NewTx` copies it. -/
def convertTxDataToRLPEncoding (txData : TransactionData) : GoCall RollupError Bytes := do
  let data ← match decodeHex txData.data with
    | some data => returns data
    | none => fails (.decodeData txData.data)
  let tx : LegacyTx := {
    txType := 0
    accountNonce := txData.nonce
    price := txData.gasPrice
    gasLimit := txData.gas
    recipient := txData.recipient
    amount := txData.value
    payload := data
    v := txData.v
    r := txData.r
    s := txData.s }
  match (TxData.legacy tx).copy.encodeRLP with
  | .ok rlpTxData => returns rlpTxData
  | .error err => fails (.marshalTx err)

namespace WrappedBlock

variable (w : WrappedBlock) (totalL1MessagePoppedBefore : UInt64)

/-- The index of the last L1 message, counted from the first one that was not popped before. -/
def numL1Messages : UInt64 :=
  match (w.transactions.filter (·.type = l1MessageTxType)).getLast? with
  | none => 0
  | some last => last.nonce - totalL1MessagePoppedBefore + 1

def numL2Transactions : UInt64 :=
  UInt64.ofNat (w.transactions.filter (·.type ≠ l1MessageTxType)).length

/-- Bytes 16 to 47 are for the base fee, which is not in use. -/
def encode : GoCall RollupError Bytes :=
  let numL1Messages := w.numL1Messages totalL1MessagePoppedBefore
  let numTransactions := numL1Messages + w.numL2Transactions
  if 2 ^ 64 ≤ w.header.number then fails .numberNotUint64
  else if 0xffff < numL1Messages then fails .tooManyL1Messages
  else if 0xffff < numTransactions then fails .tooManyTransactions
  else
    returns (beFixed 8 w.header.number ++ beFixed 8 w.header.time ++ List.replicate 32 0 ++
      beFixed 8 w.header.gasLimit.toNat ++ beFixed 2 numTransactions.toNat ++
      beFixed 2 numL1Messages.toNat)

theorem encode_ok {w : WrappedBlock} {before : UInt64} {context : Bytes}
    (encoded : w.encode before = returns context) :
    w.header.number < 2 ^ 64 ∧ context.length = 60 ∧ beNat (context.take 8) = w.header.number := by
  unfold encode at encoded
  dsimp only at encoded
  split_ifs at encoded with number
  cases encoded
  refine ⟨Nat.not_le.mp number, by simp, ?_⟩
  simp only [append_assoc]
  rw [take_append_of_le_length (beFixed_length 8 _).ge, take_of_length_le (beFixed_length 8 _).le]
  exact beNat_beFixed_of_lt (Nat.not_le.mp number)

theorem encode_total {w : WrappedBlock} {before : UInt64} (number : w.header.number < 2 ^ 64)
    (messages : ¬ 0xffff < w.numL1Messages before)
    (txs : ¬ 0xffff < w.numL1Messages before + w.numL2Transactions) :
    ∃ context, w.encode before = returns context := by
  unfold encode
  dsimp only
  rw [if_neg (Nat.not_le.mpr number), if_neg messages, if_neg txs]
  exact ⟨_, rfl⟩

end WrappedBlock

def framed (tx : Bytes) : Bytes := beFixed 4 tx.length ++ tx

def encodeTxs : List TransactionData → GoCall RollupError Bytes
  | [] => returns []
  | txData :: txs =>
    if txData.type = l1MessageTxType then encodeTxs txs
    else do
      let rlpTxData ← convertTxDataToRLPEncoding txData
      return framed rlpTxData ++ (← encodeTxs txs)

namespace Chunk

def numL1Messages (totalL1MessagePoppedBefore : UInt64) : List WrappedBlock → UInt64
  | [] => 0
  | block :: blocks =>
    let inBlock := block.numL1Messages totalL1MessagePoppedBefore
    inBlock + numL1Messages (totalL1MessagePoppedBefore + inBlock) blocks

def encodeBlocks (totalL1MessagePoppedBefore : UInt64) :
    List WrappedBlock → GoCall RollupError (Bytes × Bytes)
  | [] => returns ([], [])
  | block :: blocks => do
    let blockBytes ← (block.encode totalL1MessagePoppedBefore).mapFail .encodeBlock
    if blockBytes.length ≠ 60 then fails (.blockEncodingSize blockBytes.length)
    else
      let l2TxDataBytes ← encodeTxs block.transactions
      let (contexts, rest) ← encodeBlocks
        (totalL1MessagePoppedBefore + block.numL1Messages totalL1MessagePoppedBefore) blocks
      return (blockBytes ++ contexts, l2TxDataBytes ++ rest)

def encode (blocks : List WrappedBlock) (totalL1MessagePoppedBefore : UInt64) :
    GoCall RollupError Bytes :=
  if 255 < blocks.length then fails .tooManyBlocks
  else if blocks.length = 0 then fails .noBlocks
  else do
    let (contexts, l2TxDataBytes) ← encodeBlocks totalL1MessagePoppedBefore blocks
    return UInt8.ofNat blocks.length :: contexts ++ l2TxDataBytes

def hashText (txData : TransactionData) : GoCall RollupError Bytes :=
  let text := match txData.txHash with
    | 0x30 :: 0x78 :: text => text
    | text => text
  match decodeString text with
  | some hash => returns hash
  | none => fails (.decodeTxHash text)

def txHashes : List TransactionData → GoCall RollupError (Bytes × Bytes)
  | [] => returns ([], [])
  | txData :: txs => do
    let hash ← hashText txData
    let (l1TxHashes, l2TxHashes) ← txHashes txs
    return if txData.type = l1MessageTxType then (hash ++ l1TxHashes, l2TxHashes)
      else (l1TxHashes, hash ++ l2TxHashes)

def blockHashes : List WrappedBlock → GoCall RollupError Bytes
  | [] => returns []
  | block :: blocks => do
    let (l1TxHashes, l2TxHashes) ← txHashes block.transactions
    return l1TxHashes ++ l2TxHashes ++ (← blockHashes blocks)

/-- Of each context 58 bytes are hashed, without the number of L1 messages. -/
def hash (crypto : Crypto) (blocks : List WrappedBlock) (totalL1MessagePoppedBefore : UInt64) :
    GoCall RollupError Hash := do
  let chunkBytes ← encode blocks totalL1MessagePoppedBefore
  let contexts := (List.range (chunkBytes.headD 0).toNat).flatMap fun i =>
    (chunkBytes.drop (1 + 60 * i)).take 58
  return crypto.keccak (contexts ++ (← blockHashes blocks))

theorem encodeBlocks_length {blocks : List WrappedBlock} {before : UInt64} {parts : Bytes × Bytes}
    (encoded : encodeBlocks before blocks = returns parts) :
    parts.1.length = 60 * blocks.length := by
  induction blocks generalizing before parts with
  | nil => cases encoded; rfl
  | cons block blocks ih =>
    obtain ⟨context, wrote, encoded⟩ := bind_eq_returns.mp encoded
    split_ifs at encoded with size
    obtain ⟨txs, -, encoded⟩ := bind_eq_returns.mp encoded
    obtain ⟨⟨contexts, rest⟩, tail, encoded⟩ := bind_eq_returns.mp encoded
    cases encoded
    rw [length_append, ih tail, not_not.mp size, length_cons]
    ring

end Chunk

/-- The entry names an L1 message if the transaction is one, and then has its queue index. -/
def Recognised (inner : TxData) (txData : TransactionData) : Prop :=
  (txData.type = l1MessageTxType ↔ ∃ message, inner = .l1Message message) ∧
    ∀ message, inner = .l1Message message → txData.nonce = message.queueIndex

/-- No L1 message, and no legacy transaction under its type number. -/
def Ordinary (inner : TxData) : Prop :=
  (∀ message, inner ≠ .l1Message message) ∧ ∀ tx, inner = .legacy tx → tx.txType ≠ l1MessageTxType

section Recognition
variable {ε : Type} {inner : TxData}

theorem Ordinary.txType_ne (ordinary : Ordinary inner) : txType inner ≠ l1MessageTxType := by
  cases inner with
  | legacy tx => exact ordinary.2 tx rfl
  | eth tx => exact (by decide : ethTx ≠ l1MessageTxType)
  | l1Message message => exact absurd rfl (ordinary.1 message)

theorem asL1MessageTx_ordinary (ordinary : Ordinary inner) :
    (asL1MessageTx inner : GoCall ε (Option L1MessageTx)) = returns none := by
  have other : isL1MessageTx inner = false := decide_eq_false ordinary.txType_ne
  unfold asL1MessageTx
  rw [other]
  rfl

theorem recognised_iff (crypto : Crypto) :
    (∃ msg, (asL1MessageTx inner : GoCall ε (Option L1MessageTx)) = returns msg ∧
      Recognised inner (txDataOf crypto inner msg)) ↔ Ordinary inner := by
  constructor
  · rintro ⟨msg, asked, recognised, -⟩
    cases inner with
    | legacy tx =>
      refine ⟨nofun, fun tx' same typed => ?_⟩
      cases same
      have l1 : isL1MessageTx (.legacy tx) = true := decide_eq_true typed
      unfold asL1MessageTx at asked
      rw [l1] at asked
      nomatch asked
    | eth tx => exact ⟨nofun, nofun⟩
    | l1Message message =>
      exact absurd (recognised.mpr ⟨message, rfl⟩) (by decide : ethTx ≠ l1MessageTxType)
  · intro ordinary
    refine ⟨none, asL1MessageTx_ordinary ordinary, ?_, fun message l1 => absurd l1 (ordinary.1 message)⟩
    exact ⟨fun l1 => absurd l1 ordinary.txType_ne, fun ⟨message, l1⟩ => absurd l1 (ordinary.1 message)⟩

/-- L1 messages are recognised in the lists that have none, and no other transaction under their
type number. -/
theorem l1Messages_recognised_iff (crypto : Crypto) (txs : List TxData) :
    (∃ txsData, (txsToTxsData crypto txs : GoCall ε (List TransactionData)) = returns txsData ∧
      List.Forall₂ Recognised txs txsData) ↔ ∀ inner ∈ txs, Ordinary inner := by
  induction txs with
  | nil => exact ⟨fun _ => nofun, fun _ => ⟨[], rfl, .nil⟩⟩
  | cons inner txs ih =>
    rw [forall_mem_cons, ← ih, ← recognised_iff crypto]
    constructor
    · rintro ⟨_, made, _ | ⟨here, rest⟩⟩
      obtain ⟨msg, asked, made⟩ := bind_eq_returns.mp made
      obtain ⟨txsData, others, made⟩ := bind_eq_returns.mp made
      cases made
      exact ⟨⟨msg, asked, here⟩, _, others, rest⟩
    · rintro ⟨⟨msg, asked, here⟩, txsData, others, rest⟩
      refine ⟨txDataOf crypto inner msg :: txsData, ?_, .cons here rest⟩
      rw [txsToTxsData, asked, bind_returns, others]
      rfl

def sampleQueued : L1MessageTx := ⟨5, 21000, some 7, 0, [], 8⟩

/-- An L1 message comes out under the type of Ethereum with nonce 0; a legacy transaction under
the type number of L1 messages ends the run. -/
theorem sampleQueued_unrecognised :
    (∃ txData, (txsToTxsData sampleCrypto [.l1Message sampleQueued] : GoCall ℕ _) = returns [txData] ∧
      txData.type = ethTx ∧ txData.nonce ≠ sampleQueued.queueIndex) ∧
    (txsToTxsData sampleCrypto [.legacy (Types.sampleTransfer l1MessageTxType)] : GoCall ℕ _) = panics :=
  ⟨⟨txDataOf sampleCrypto (.l1Message sampleQueued) none, rfl, rfl, by decide⟩, rfl⟩

end Recognition
end Anduschain.Rollup
