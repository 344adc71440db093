import Anduschain.TxSigning

/-! Transactions and blocks on the wire: `DecodeRLP` of core/types over a stream, and what of
an encoding it reads back. -/
namespace Anduschain.Types
open ByteOrder RlpItem RlpStream List

def decodeLegacyTx : Reader LegacyTx := decodeStruct "types.LegacyTx" do
  let txType ← field "types.LegacyTx" "Type" decodeUint
  let accountNonce ← field "types.LegacyTx" "AccountNonce" decodeUint
  let price ← field "types.LegacyTx" "Price" decodeBigInt
  let gasLimit ← field "types.LegacyTx" "GasLimit" decodeUint
  let recipient ← field "types.LegacyTx" "Recipient" decodeNilAddress
  let amount ← field "types.LegacyTx" "Amount" decodeBigInt
  let payload ← field "types.LegacyTx" "Payload" decodeByteSlice
  let v ← field "types.LegacyTx" "V" decodeBigInt
  let r ← field "types.LegacyTx" "R" decodeBigInt
  let s ← field "types.LegacyTx" "S" decodeBigInt
  return ⟨txType, accountNonce, price, gasLimit, recipient, amount, payload, v, r, s⟩

def decodeTxEthdata : Reader TxEthdata := decodeStruct "types.txEthdata" do
  let accountNonce ← field "types.txEthdata" "AccountNonce" decodeUint
  let price ← field "types.txEthdata" "Price" decodeBigInt
  let gasLimit ← field "types.txEthdata" "GasLimit" decodeUint
  let recipient ← field "types.txEthdata" "Recipient" decodeNilAddress
  let amount ← field "types.txEthdata" "Amount" decodeBigInt
  let payload ← field "types.txEthdata" "Payload" decodeByteSlice
  let v ← field "types.txEthdata" "V" decodeBigInt
  let r ← field "types.txEthdata" "R" decodeBigInt
  let s ← field "types.txEthdata" "S" decodeBigInt
  return ⟨accountNonce, price, gasLimit, recipient, amount, payload, v, r, s⟩

/-- `DecodeRLP`: the second attempt starts where the first stopped, and the error of the first is
returned in any case. -/
def decodeRLP : Reader TxData := fun s =>
  match decodeInto "types.LegacyTx" decodeLegacyTx (kind s).2 with
  | (.ok inner, s) => (.ok (.legacy inner), s)
  | (.error err, s) => (.error err, (decodeInto "types.txEthdata" decodeTxEthdata s).2)

def decodeHeader : Reader Header := decodeStruct "types.Header" do
  let parentHash ← field "types.Header" "ParentHash" decodeHash
  let coinbase ← field "types.Header" "Coinbase" decodeAddress
  let root ← field "types.Header" "Root" decodeHash
  let txHash ← field "types.Header" "TxHash" decodeHash
  let voteHash ← field "types.Header" "VoteHash" decodeHash
  let receiptHash ← field "types.Header" "ReceiptHash" decodeHash
  let bloom ← field "types.Header" "Bloom" (decodeByteArray "types.Bloom" 256)
  let difficulty ← field "types.Header" "Difficulty" decodeBigInt
  let number ← field "types.Header" "Number" decodeBigInt
  let gasLimit ← field "types.Header" "GasLimit" decodeUint
  let gasUsed ← field "types.Header" "GasUsed" decodeUint
  let time ← field "types.Header" "Time" decodeBigInt
  let extra ← field "types.Header" "Extra" decodeByteSlice
  let nonce ← field "types.Header" "Nonce" (decodeByteArray "types.BlockNonce" 8)
  let otprn ← field "types.Header" "Otprn" decodeByteSlice
  let fairnodeSign ← field "types.Header" "FairnodeSign" decodeByteSlice
  return ⟨parentHash, coinbase, root, txHash, voteHash, receiptHash, BitVec.ofNat 2048 bloom,
    difficulty, number, gasLimit, gasUsed, time, extra, UInt64.ofNat nonce, otprn, fairnodeSign⟩

def decodeVoter : Reader Voter := decodeStruct "types.Voter" do
  let header ← field "types.Voter" "Header" decodeByteSlice
  let voter ← field "types.Voter" "Voter" decodeAddress
  let voteSign ← field "types.Voter" "VoteSign" decodeByteSlice
  return ⟨header, voter, voteSign⟩

structure ExtBlock where
  header : Header
  txs : List TxData
  voters : List Voter

namespace ExtBlock

variable (block : ExtBlock)

def goValue : GoValue :=
  .list [block.header.goValue, .list (block.txs.map TxData.goValue),
    .list (block.voters.map Voter.goValue)]

def toItem : Item :=
  .list [block.header.toItem, .list (block.txs.map TxData.toItem),
    .list (block.voters.map Voter.toItem)]

def encodeRLP : Except EncodeError Bytes := encodeToBytes block.goValue

theorem encodeRLP_eq : block.encodeRLP = .ok (encode block.toItem) := by
  have items : Anduschain.toItem block.goValue = .ok block.toItem := by
    simp only [goValue, toItem, Anduschain.toItem, toItems, Header.toItem_goValue,
      toItems_map TxData.toItem_goValue, toItems_map Voter.toItem_goValue, Except.map]
  rw [encodeRLP, encodeToBytes_eq, items]
  rfl

end ExtBlock

def decodeExtblock : Reader ExtBlock := decodeStruct "types.extblock" do
  let header ← field "types.extblock" "Header" decodeHeader
  let txs ← field "types.extblock" "Txs" (decodeListSlice "types.Transactions" decodeRLP)
  let voters ← field "types.extblock" "Voters" (decodeListSlice "types.Voters" decodeVoter)
  return ⟨header, txs, voters⟩

def decodeBlock : Reader ExtBlock := fun s => decodeInto "types.extblock" decodeExtblock (kind s).2

theorem reads_decodeLegacyTx (tx : LegacyTx) : Reads decodeLegacyTx tx.toItem tx :=
  reads_struct <|
    drains_field (reads_decodeUint tx.txType) <|
    drains_field (reads_decodeUint tx.accountNonce) <|
    drains_field (reads_decodeBigInt tx.price) <|
    drains_field (reads_decodeUint tx.gasLimit) <|
    drains_field (reads_decodeNilAddress tx.recipient) <|
    drains_field (reads_decodeBigInt tx.amount) <|
    drains_field (reads_decodeByteSlice tx.payload) <|
    drains_field (reads_decodeBigInt tx.v) <|
    drains_field (reads_decodeBigInt tx.r) <|
    drains_field (reads_decodeBigInt tx.s) <|
    drains_pure tx

theorem reads_decodeTxEthdata (tx : TxEthdata) : Reads decodeTxEthdata (TxData.eth tx).toItem tx :=
  reads_struct <|
    drains_field (reads_decodeUint tx.accountNonce) <|
    drains_field (reads_decodeBigInt tx.price) <|
    drains_field (reads_decodeUint tx.gasLimit) <|
    drains_field (reads_decodeNilAddress tx.recipient) <|
    drains_field (reads_decodeBigInt tx.amount) <|
    drains_field (reads_decodeByteSlice tx.payload) <|
    drains_field (reads_decodeBigInt tx.v) <|
    drains_field (reads_decodeBigInt tx.r) <|
    drains_field (reads_decodeBigInt tx.s) <|
    drains_pure tx

theorem rejects_decodeLegacyTx {xs : List Item} (few : xs.length ≤ 9) :
    Rejects decodeLegacyTx (.list xs) := by
  apply rejects_struct
  refine (?_ : Wants 9 _) xs few
  exact wants_field settles_decodeUint ends_decodeUint fun _ =>
    wants_field settles_decodeUint ends_decodeUint fun _ =>
    wants_field settles_decodeBigInt ends_decodeBigInt fun _ =>
    wants_field settles_decodeUint ends_decodeUint fun _ =>
    wants_field settles_decodeNilAddress ends_decodeNilAddress fun _ =>
    wants_field settles_decodeBigInt ends_decodeBigInt fun _ =>
    wants_field settles_decodeByteSlice ends_decodeByteSlice fun _ =>
    wants_field settles_decodeBigInt ends_decodeBigInt fun _ =>
    wants_field settles_decodeBigInt ends_decodeBigInt fun _ =>
    wants_last ends_decodeBigInt

theorem reads_decodeHeader (h : Header) : Reads decodeHeader h.toItem h := by
  have bloom := reads_bits "types.Bloom" (w := 256) (by decide) h.bloom
  have nonce := reads_fixed "types.BlockNonce" (w := 8) (by decide) h.nonce.toNat_lt
  have built : Header.mk h.parentHash h.coinbase h.root h.txHash h.voteHash h.receiptHash
      (BitVec.ofNat 2048 h.bloom.toNat) h.difficulty h.number h.gasLimit h.gasUsed h.time h.extra
      (UInt64.ofNat h.nonce.toNat) h.otprn h.fairnodeSign = h := by
    rw [BitVec.ofNat_toNat, BitVec.setWidth_eq, UInt64.ofNat_toNat]
  have drained := drains_pure h
  rw [← built] at drained
  conv at drained => rhs; rw [built]
  exact reads_struct <|
    drains_field (reads_decodeHash h.parentHash) <|
    drains_field (reads_decodeAddress h.coinbase) <|
    drains_field (reads_decodeHash h.root) <|
    drains_field (reads_decodeHash h.txHash) <|
    drains_field (reads_decodeHash h.voteHash) <|
    drains_field (reads_decodeHash h.receiptHash) <|
    drains_field bloom <|
    drains_field (reads_decodeBigInt h.difficulty) <|
    drains_field (reads_decodeBigInt h.number) <|
    drains_field (reads_decodeUint h.gasLimit) <|
    drains_field (reads_decodeUint h.gasUsed) <|
    drains_field (reads_decodeBigInt h.time) <|
    drains_field (reads_decodeByteSlice h.extra) <|
    drains_field nonce <|
    drains_field (reads_decodeByteSlice h.otprn) <|
    drains_field (reads_decodeByteSlice h.fairnodeSign) drained

theorem reads_decodeVoter (v : Voter) : Reads decodeVoter v.toItem v :=
  reads_struct <|
    drains_field (reads_decodeByteSlice v.header) <|
    drains_field (reads_decodeAddress v.voter) <|
    drains_field (reads_decodeByteSlice v.voteSign) <|
    drains_pure v

theorem ends_decodeVoter : Ends decodeVoter := ends_struct

theorem reads_decodeRLP (tx : LegacyTx) : Reads decodeRLP (TxData.legacy tx).toItem (.legacy tx) := by
  intro s ready
  have peeked : decodeLegacyTx (kind s).2 = decodeLegacyTx s := decodeStruct_peeked ready
  have read := reads_decodeLegacyTx tx s ready
  rw [← peeked] at read
  have whole : decodeInto "types.LegacyTx" decodeLegacyTx (kind s).2 = _ := Reader.mapError_ok read
  simp only [decodeRLP, whole]
  rfl

theorem rejects_decodeRLP {xs : List Item} (few : xs.length ≤ 9) : Rejects decodeRLP (.list xs) := by
  intro s ready
  have peeked : decodeLegacyTx (kind s).2 = decodeLegacyTx s := decodeStruct_peeked ready
  have fails := rejects_decodeLegacyTx few s ready
  rw [Fails, ← peeked] at fails
  obtain ⟨e, s', failed, proper⟩ : Fails (decodeInto "types.LegacyTx" decodeLegacyTx) (kind s).2 :=
    fails_decodeInto fails
  refine ⟨e, (decodeInto "types.txEthdata" decodeTxEthdata s').2, ?_, proper⟩
  simp only [decodeRLP, failed]

theorem ends_decodeRLP : Ends decodeRLP := by
  intro s rearmed ended
  have first : decodeLegacyTx s = _ := ends_struct s rearmed ended
  have second : decodeTxEthdata s = _ := ends_struct s rearmed ended
  have legacy : decodeInto "types.LegacyTx" decodeLegacyTx s = _ := Reader.mapError_error first
  have eth : decodeInto "types.txEthdata" decodeTxEthdata s = _ := Reader.mapError_error second
  simp only [decodeRLP, kind_eol rearmed ended, legacy, eth]
  rfl

namespace TxData

def isLegacy : TxData → Bool
  | .legacy _ => true
  | _ => false

theorem reads_legacy {inner : TxData} (legacy : inner.isLegacy) :
    Reads decodeRLP inner.toItem inner := by
  cases inner with
  | legacy tx => exact reads_decodeRLP tx
  | eth tx => cases legacy
  | l1Message tx => cases legacy

theorem rejects_other {inner : TxData} (other : inner.isLegacy = false) :
    Rejects decodeRLP inner.toItem := by
  cases inner with
  | legacy tx => cases other
  | eth tx => exact rejects_decodeRLP (Nat.le_refl 9)
  | l1Message tx =>
    apply rejects_decodeRLP
    simp only [length_cons, length_nil]
    omega

end TxData

theorem ready_new {b : Bytes} (fits : b.length < 2 ^ 64) : (RlpStream.Stream.new b).Ready b where
  rearmed := rfl
  next := prefix_rfl
  inList := nofun
  inInput r left := by
    cases left
    exact Nat.le_refl _
  sized := fits

def TxEthdata.withType (tx : TxEthdata) (txType : UInt64) : LegacyTx :=
  ⟨txType, tx.accountNonce, tx.price, tx.gasLimit, tx.recipient, tx.amount, tx.payload, tx.v, tx.r,
    tx.s⟩

/-- What does not decode as a legacy transaction becomes one of the type of Ethereum. -/
def unmarshalBinary (b : Bytes) : Except StreamError TxData :=
  match decodeBytes (decodeInto "types.LegacyTx" decodeLegacyTx) b with
  | .ok data => .ok (.legacy data)
  | .error _ =>
    match decodeBytes (decodeInto "types.txEthdata" decodeTxEthdata) b with
    | .error err => .error err
    | .ok data => .ok (.legacy (data.withType ethTx))

def TxData.viaBinary : TxData → TxData
  | .eth tx => .legacy (tx.withType ethTx)
  | inner => inner

theorem decodeBytes_ok {α : Type} {decoder : Reader α} {x : Item} {a : α}
    (reads : Reads decoder x a) (fits : (encode x).length < 2 ^ 64) :
    decodeBytes decoder (encode x) = .ok a := by
  rw [decodeBytes, reads _ (ready_new fits)]
  simp [RlpStream.Stream.advance, RlpStream.Stream.new]

theorem decodeBytes_error {α : Type} {decoder : Reader α} {x : Item} (rejects : Rejects decoder x)
    (fits : (encode x).length < 2 ^ 64) : ∃ e, decodeBytes decoder (encode x) = .error e := by
  obtain ⟨e, s', failed, -⟩ := rejects _ (ready_new fits)
  exact ⟨e, by rw [decodeBytes, failed]⟩

theorem unmarshalBinary_encode {inner : TxData} (other : ∀ message, inner ≠ .l1Message message)
    (fits : (encode inner.toItem).length < 2 ^ 64) :
    unmarshalBinary (encode inner.toItem) = .ok inner.viaBinary := by
  cases inner with
  | legacy legacy =>
    have read := decodeBytes_ok (reads_mapError (f := addTarget "types.LegacyTx")
      (reads_decodeLegacyTx legacy)) fits
    rw [unmarshalBinary]
    simp only [decodeInto, TxData.toItem, read, TxData.viaBinary]
  | eth eth =>
    have few : Rejects decodeLegacyTx (TxData.eth eth).toItem :=
      rejects_decodeLegacyTx (Nat.le_refl 9)
    have rejects : Rejects (decodeInto "types.LegacyTx" decodeLegacyTx) (TxData.eth eth).toItem :=
      fun s ready => fails_decodeInto (few s ready)
    obtain ⟨e, refused⟩ := decodeBytes_error rejects fits
    have read := decodeBytes_ok (reads_mapError (f := addTarget "types.txEthdata")
      (reads_decodeTxEthdata eth)) fits
    rw [unmarshalBinary, refused]
    simp only [decodeInto, read, TxData.viaBinary]
  | l1Message message => exact absurd rfl (other message)

section RoundTrip
variable (crypto : Crypto) (heap : Heap) (tx : Transaction)

def ReadsBack : Prop :=
  ∃ b, (tx.inner heap).encodeRLP = .ok b ∧ ∀ s : RlpStream.Stream, s.Ready b →
    ∃ inner, decodeRLP s = (.ok inner, s.advance b.length) ∧ inner = tx.inner heap ∧
      (heap.alloc inner).1.hash crypto (heap.alloc inner).2 = tx.hash crypto heap

def HashCurrent : Prop :=
  ∀ cached ∈ tx.cachedHash, cached = (tx.inner heap).hash crypto

variable {crypto}

theorem hash_current_iff {heap : Heap} {tx : Transaction} :
    (tx.inner heap).hash crypto = tx.hash crypto heap ↔ HashCurrent crypto heap tx := by
  unfold HashCurrent Transaction.hash
  cases tx.cachedHash with
  | none => simp
  | some cached => simp [eq_comm]

theorem alloc_hash (inner : TxData) :
    (heap.alloc inner).1.hash crypto (heap.alloc inner).2 = inner.hash crypto := by
  rw [Transaction.hash, Transaction.inner, heap.alloc_data]
  rfl

theorem readsBack_iff
    (fits : ∀ b, (tx.inner heap).encodeRLP = .ok b → b.length < 2 ^ 64) :
    ReadsBack crypto heap tx ↔ (tx.inner heap).isLegacy ∧ HashCurrent crypto heap tx := by
  have written := (tx.inner heap).encodeRLP_eq
  have sized := fits _ written
  constructor
  · rintro ⟨b, encoded, reads⟩
    obtain rfl : encode (tx.inner heap).toItem = b := Except.ok.inj (written.symm.trans encoded)
    obtain ⟨inner, read, rfl, same⟩ := reads _ (ready_new sized)
    refine ⟨?_, hash_current_iff.mp ((alloc_hash heap _).symm.trans same)⟩
    by_contra other
    obtain ⟨e, s', failed, -⟩ :=
      TxData.rejects_other (Bool.eq_false_iff.mpr other) _ (ready_new sized)
    exact absurd (read.symm.trans failed) nofun
  · rintro ⟨legacy, current⟩
    refine ⟨_, written, fun s ready => ⟨_, TxData.reads_legacy legacy s ready, rfl, ?_⟩⟩
    rw [alloc_hash]
    exact hash_current_iff.mpr current

def BlockReadsBack (block : ExtBlock) : Prop :=
  ∃ b, block.encodeRLP = .ok b ∧ ∀ s : RlpStream.Stream, s.Ready b →
    decodeBlock s = (.ok block, s.advance b.length)

theorem decodeBlock_eq {s : RlpStream.Stream} {block : ExtBlock} (ready : s.Ready (encode block.toItem)) :
    decodeBlock s = decodeInto "types.extblock" decodeExtblock s := by
  have peeked : decodeExtblock (kind s).2 = decodeExtblock s := decodeStruct_peeked ready
  simp only [decodeBlock, decodeInto, Reader.mapError, peeked]

theorem reads_voters (voters : List Voter) :
    Reads (decodeListSlice "types.Voters" decodeVoter) (.list (voters.map Voter.toItem)) voters := by
  refine reads_listSlice ?_ ends_decodeVoter
  rw [List.forall₂_map_left_iff, List.forall₂_same]
  exact fun v _ => reads_decodeVoter v

theorem reads_txs {txs : List TxData} (legacy : ∀ inner ∈ txs, inner.isLegacy) :
    List.Forall₂ (Reads decodeRLP) (txs.map TxData.toItem) txs := by
  rw [List.forall₂_map_left_iff, List.forall₂_same]
  exact fun inner member => TxData.reads_legacy (legacy inner member)

theorem rejects_txs {txs : List TxData} (other : ∃ inner ∈ txs, inner.isLegacy = false) :
    Rejects (decodeListSlice "types.Transactions" decodeRLP) (.list (txs.map TxData.toItem)) := by
  obtain ⟨inner, found⟩ : ∃ inner, txs.find? (!·.isLegacy) = some inner := by
    rw [← Option.isSome_iff_exists, find?_isSome]
    simpa using other
  obtain ⟨kind, before, after, rfl, legacy⟩ := find?_eq_some_iff_append.mp found
  rw [map_append, map_cons]
  refine rejects_listSlice (reads_txs fun inner member => ?_) (TxData.rejects_other ?_)
  · simpa using legacy inner member
  · simpa using kind

theorem blockReadsBack_iff (block : ExtBlock)
    (fits : ∀ b, block.encodeRLP = .ok b → b.length < 2 ^ 64) :
    BlockReadsBack block ↔ ∀ inner ∈ block.txs, inner.isLegacy := by
  have written := block.encodeRLP_eq
  have sized := fits _ written
  constructor
  · rintro ⟨b, encoded, reads⟩
    obtain rfl : encode block.toItem = b := Except.ok.inj (written.symm.trans encoded)
    by_contra other
    have rejects : Rejects decodeExtblock block.toItem := rejects_struct <|
      starves_bind (reads_field (reads_decodeHeader block.header)) <|
      starves_rejects (rejects_txs (by simpa using other))
    have read := reads _ (ready_new sized)
    rw [decodeBlock_eq (ready_new sized)] at read
    obtain ⟨e, s', failed, -⟩ : Fails (decodeInto "types.extblock" decodeExtblock) _ :=
      fails_decodeInto (rejects _ (ready_new sized))
    exact absurd (read.symm.trans failed) nofun
  · intro legacy
    have reads : Reads decodeExtblock block.toItem block := reads_struct <|
      drains_field (reads_decodeHeader block.header) <|
      drains_field (reads_listSlice (reads_txs legacy) ends_decodeRLP) <|
      drains_field (reads_voters block.voters) <|
      drains_pure block
    refine ⟨_, written, fun s ready => ?_⟩
    rw [decodeBlock_eq ready]
    exact Reader.mapError_ok (reads s ready)

/-- Transactions, and the transactions of a block, come back from the wire if they are legacy
ones. -/
theorem wire_reads_back_iff (crypto : Crypto) (heap : Heap) (tx : Transaction) (block : ExtBlock)
    (fits : ∀ b, (tx.inner heap).encodeRLP = .ok b → b.length < 2 ^ 64)
    (blockFits : ∀ b, block.encodeRLP = .ok b → b.length < 2 ^ 64) :
    (ReadsBack crypto heap tx ↔ (tx.inner heap).isLegacy ∧ HashCurrent crypto heap tx) ∧
      (BlockReadsBack block ↔ ∀ inner ∈ block.txs, inner.isLegacy) :=
  ⟨readsBack_iff heap tx fits, blockReadsBack_iff block blockFits⟩

def sampleMixed (txs : List TxData) : ExtBlock := ⟨sampleHeader, txs, []⟩

theorem sampleMixed_fits {txs : List TxData}
    (small : (encode (sampleMixed txs).toItem).length < 2 ^ 64) (b : Bytes)
    (written : (sampleMixed txs).encodeRLP = .ok b) : b.length < 2 ^ 64 := by
  rw [ExtBlock.encodeRLP_eq] at written
  exact Except.ok.inj written ▸ small

theorem sampleRef_fits {inner : TxData} (small : (encode inner.toItem).length < 2 ^ 64) (b : Bytes)
    (written : (sampleRef.inner (sampleHeap inner)).encodeRLP = .ok b) : b.length < 2 ^ 64 := by
  rw [TxData.encodeRLP_eq] at written
  exact Except.ok.inj written ▸ small

theorem sampleLegacy_reads_back :
    ReadsBack sampleCrypto (sampleHeap (.legacy (sampleTransfer joinTx))) sampleRef ∧
      BlockReadsBack (sampleMixed [.legacy (sampleTransfer joinTx)]) := by
  obtain ⟨single, whole⟩ := wire_reads_back_iff sampleCrypto
    (sampleHeap (.legacy (sampleTransfer joinTx))) sampleRef
    (sampleMixed [.legacy (sampleTransfer joinTx)]) (sampleRef_fits (by decide +kernel))
    (sampleMixed_fits (by decide +kernel))
  exact ⟨single.mpr ⟨rfl, nofun⟩, whole.mpr (by decide)⟩

/-- The decoder takes neither the transaction of Ethereum nor a block with one. -/
theorem sampleEthdata_lost :
    ¬ ReadsBack sampleCrypto (sampleHeap (.eth sampleEthdata)) sampleRef ∧
      ¬ BlockReadsBack (sampleMixed [.legacy (sampleTransfer joinTx), .eth sampleEthdata]) := by
  constructor
  · rw [readsBack_iff _ _ (sampleRef_fits (by decide +kernel))]
    exact fun held => absurd held.1 (by decide)
  · rw [blockReadsBack_iff _ (sampleMixed_fits (by decide +kernel))]
    decide

end RoundTrip

end Anduschain.Types
