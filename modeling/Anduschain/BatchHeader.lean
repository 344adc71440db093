import Anduschain.RollupBlock
import Anduschain.WordBitmap

/-! The header of a batch of chunks (package rollup_sync_service): the running queue index and
the bitmap of the L1 messages that the batch skips. -/
namespace Anduschain.Rollup
open ByteOrder Anduschain.Types GoCall WordBitmap List

structure BatchHeader where
  version : UInt8
  batchIndex : UInt64
  l1MessagePopped : UInt64
  totalL1MessagePopped : UInt64
  dataHash : Hash
  parentBatchHash : Hash
  skippedL1MessageBitmap : Bytes

structure Scan where
  nextIndex : UInt64
  skippedBitmap : List ℕ

section Scan
variable (crypto : Crypto) (batchIndex baseIndex : UInt64)

def markSkipped (bitmap : List ℕ) (skippedIndex : UInt64) : List ℕ :=
  let quo := ((skippedIndex - baseIndex) / 256).toNat
  let rem := ((skippedIndex - baseIndex) % 256).toNat
  setBit quo rem (grow quo bitmap)

def scanTx (chunkID blockID : ℕ) (header : Header) (s : Scan) (tx : TransactionData) :
    GoCall RollupError Scan :=
  if tx.type ≠ l1MessageTxType then returns s
  else
    let currentIndex := tx.nonce
    if currentIndex < s.nextIndex then
      fails (.unexpectedPayload s.nextIndex currentIndex batchIndex chunkID blockID
        (header.hash crypto) tx.txHash)
    else
      let skipped := (List.range (currentIndex - s.nextIndex).toNat).map (s.nextIndex + UInt64.ofNat ·)
      let bitmap := skipped.foldl (markSkipped baseIndex) s.skippedBitmap
      returns ⟨currentIndex + 1, grow ((currentIndex - baseIndex) / 256).toNat bitmap⟩

def scanTxs (chunkID blockID : ℕ) (header : Header) :
    List TransactionData → Scan → GoCall RollupError Scan
  | [], s => returns s
  | tx :: txs, s => do
    let s ← scanTx crypto batchIndex baseIndex chunkID blockID header s tx
    scanTxs chunkID blockID header txs s

def scanBlocks (chunkID : ℕ) : ℕ → List WrappedBlock → Scan → GoCall RollupError Scan
  | _, [], s => returns s
  | blockID, block :: blocks, s => do
    let s ← scanTxs crypto batchIndex baseIndex chunkID blockID block.header block.transactions s
    scanBlocks chunkID (blockID + 1) blocks s

def scanChunks : ℕ → List (List WrappedBlock) → Bytes → Scan → GoCall RollupError (Bytes × Scan)
  | _, [], dataBytes, s => returns (dataBytes, s)
  | chunkID, chunk :: chunks, dataBytes, s => do
    let chunkHash ← Chunk.hash crypto chunk s.nextIndex
    let s ← scanBlocks crypto batchIndex baseIndex chunkID 0 chunk s
    scanChunks (chunkID + 1) chunks (dataBytes ++ hashBytes chunkHash) s

end Scan

def newBatchHeader (crypto : Crypto) (version : UInt8) (batchIndex totalL1MessagePoppedBefore : UInt64)
    (parentBatchHash : Hash) (chunks : List (List WrappedBlock)) : GoCall RollupError BatchHeader := do
  let (dataBytes, s) ← scanChunks crypto batchIndex totalL1MessagePoppedBefore 0 chunks []
    ⟨totalL1MessagePoppedBefore, []⟩
  return {
    version := version
    batchIndex := batchIndex
    l1MessagePopped := s.nextIndex - totalL1MessagePoppedBefore
    totalL1MessagePopped := s.nextIndex
    dataHash := crypto.keccak dataBytes
    parentBatchHash := parentBatchHash
    skippedL1MessageBitmap := s.skippedBitmap.flatMap wordBytes }

def totalPopped (before : UInt64) (chunks : List (List WrappedBlock)) : UInt64 :=
  chunks.foldl (fun total chunk => total + Chunk.numL1Messages total chunk) before

def queueIndices (txs : List TransactionData) : List UInt64 :=
  (txs.filter (·.type = l1MessageTxType)).map TransactionData.nonce

/-- The bitmap marks the first `popped` indices from `base` that are not among the messages. -/
structure Covers (base : ℕ) (messages : List UInt64) (popped : ℕ) (bitmap : List ℕ) : Prop where
  length : bitmap.length = (popped + 255) / 256
  bits : ∀ k, bitAt bitmap k = true ↔ k < popped ∧ ∀ m ∈ messages, m.toNat ≠ base + k
  words : ∀ word ∈ bitmap, word < 2 ^ 256
  below : ∀ m ∈ messages, m.toNat < base + popped

section Covers
variable {base popped : ℕ} {messages : List UInt64} {bitmap : List ℕ}

theorem Covers.start (base : ℕ) : Covers base [] 0 [] :=
  ⟨rfl, fun k => by simp [bitAt], nofun, nofun⟩

theorem Covers.include (covers : Covers base messages popped bitmap) {m : UInt64}
    (here : m.toNat = base + popped) :
    Covers base (messages ++ [m]) (popped + 1) (grow (popped / 256) bitmap) where
  length := by
    rw [length_grow, covers.length]
    omega
  bits k := by
    simp only [bitAt_grow, covers.bits, mem_append, mem_singleton, or_imp, forall_and,
      forall_eq, here]
    constructor
    · rintro ⟨below, apart⟩
      exact ⟨by omega, apart, by omega⟩
    · rintro ⟨below, apart, other⟩
      exact ⟨by omega, apart⟩
  words := words_grow covers.words
  below := by
    intro x member
    rcases mem_append.mp member with old | new
    · exact Nat.lt_succ_of_lt (covers.below x old)
    · rw [mem_singleton.mp new, here]
      omega

theorem Covers.skip (covers : Covers base messages popped bitmap) :
    Covers base messages (popped + 1)
      (setBit (popped / 256) (popped % 256) (grow (popped / 256) bitmap)) := by
  have inside : popped / 256 < (grow (popped / 256) bitmap).length := by
    rw [length_grow]
    omega
  have bit : popped % 256 < 256 := Nat.mod_lt _ (by decide)
  refine ⟨?_, fun k => ?_, words_setBit bit (words_grow covers.words), fun m member =>
    Nat.lt_succ_of_lt (covers.below m member)⟩
  · rw [setBit, length_modify, length_grow, covers.length]
    omega
  · rw [bitAt_setBit inside bit, bitAt_grow, Bool.or_eq_true, covers.bits, decide_eq_true_iff,
      Nat.div_add_mod]
    constructor
    · rintro (⟨below, apart⟩ | rfl)
      · exact ⟨by omega, apart⟩
      · exact ⟨by omega, fun m member => Nat.ne_of_lt (covers.below m member)⟩
    · rintro ⟨below, apart⟩
      rcases Nat.lt_succ_iff_lt_or_eq.mp below with old | new
      · exact .inl ⟨old, apart⟩
      · exact .inr new

end Covers

def Scanned (base : UInt64) (messages : List UInt64) (s : Scan) : Prop :=
  ∃ popped, s.nextIndex.toNat = base.toNat + popped ∧ Covers base.toNat messages popped s.skippedBitmap

section Steps
variable {crypto : Crypto} {batchIndex base : UInt64} {chunkID blockID : ℕ} {header : Header}
  {messages : List UInt64} {s s' : Scan}

theorem toNat_sub_base {index : UInt64} {offset : ℕ} (here : index.toNat = base.toNat + offset) :
    (index - base).toNat = offset := by
  rw [UInt64.toNat_sub_of_le _ _ (UInt64.le_iff_toNat_le.mpr (by omega)), here, Nat.add_sub_cancel_left]

theorem markSkipped_eq {index : UInt64} {popped : ℕ} (here : index.toNat = base.toNat + popped)
    (bitmap : List ℕ) :
    markSkipped base bitmap index =
      setBit (popped / 256) (popped % 256) (grow (popped / 256) bitmap) := by
  simp only [markSkipped, UInt64.toNat_div, UInt64.toNat_mod, toNat_sub_base here]
  rfl

theorem skip_all {popped : ℕ} {bitmap : List ℕ} {next : UInt64}
    (covers : Covers base.toNat messages popped bitmap)
    (here : next.toNat = base.toNat + popped) (count : ℕ) (fits : next.toNat + count < 2 ^ 64) :
    Covers base.toNat messages (popped + count)
      (((List.range count).map (next + UInt64.ofNat ·)).foldl (markSkipped base) bitmap) := by
  induction count with
  | zero => exact covers
  | succ count ih =>
    have index : (next + UInt64.ofNat count).toNat = base.toNat + (popped + count) := by
      rw [UInt64.toNat_add, UInt64.toNat_ofNat', Nat.mod_eq_of_lt (a := count) (by omega),
        Nat.mod_eq_of_lt (by omega)]
      omega
    rw [range_succ, map_append, map_singleton, foldl_append, foldl_cons,
      foldl_nil,
      markSkipped_eq index]
    exact (ih (by omega)).skip

theorem scanTx_ok {tx : TransactionData} (scanned : Scanned base messages s)
    (small : ∀ m ∈ queueIndices [tx], m.toNat + 1 < 2 ^ 64)
    (ran : scanTx crypto batchIndex base chunkID blockID header s tx = returns s') :
    Scanned base (messages ++ queueIndices [tx]) s' ∧
      s'.nextIndex = (queueIndices [tx]).getLast?.elim s.nextIndex (· + 1) := by
  unfold scanTx at ran
  dsimp only at ran
  split_ifs at ran with other early
  · cases ran
    have none : queueIndices [tx] = [] := by
      simp [queueIndices, other]
    rw [none, append_nil]
    exact ⟨scanned, rfl⟩
  · cases ran
    have one : queueIndices [tx] = [tx.nonce] := by
      simp [queueIndices, not_not.mp other]
    rw [one] at small ⊢
    refine ⟨?_, rfl⟩
    obtain ⟨popped, next, covers⟩ := scanned
    have late : s.nextIndex.toNat ≤ tx.nonce.toNat := UInt64.le_iff_toNat_le.mp (UInt64.not_lt.mp early)
    have fits := small tx.nonce mem_cons_self
    have count : (tx.nonce - s.nextIndex).toNat = tx.nonce.toNat - s.nextIndex.toNat :=
      UInt64.toNat_sub_of_le _ _ (UInt64.le_iff_toNat_le.mpr late)
    have skipped := skip_all covers next (tx.nonce - s.nextIndex).toNat (by omega)
    have here : tx.nonce.toNat = base.toNat + (popped + (tx.nonce - s.nextIndex).toNat) := by omega
    have quo : ((tx.nonce - base) / 256).toNat = (popped + (tx.nonce - s.nextIndex).toNat) / 256 := by
      rw [UInt64.toNat_div, toNat_sub_base here]
      rfl
    refine ⟨popped + (tx.nonce - s.nextIndex).toNat + 1, ?_, quo ▸ skipped.include here⟩
    rw [UInt64.toNat_add, UInt64.toNat_one, Nat.mod_eq_of_lt fits, here, Nat.add_assoc]

theorem queueIndices_cons (tx : TransactionData) (txs : List TransactionData) :
    queueIndices (tx :: txs) = queueIndices [tx] ++ queueIndices txs := by
  simp only [queueIndices, ← map_append, ← filter_append, singleton_append]

theorem scanTxs_ok {txs : List TransactionData} (scanned : Scanned base messages s)
    (small : ∀ m ∈ queueIndices txs, m.toNat + 1 < 2 ^ 64)
    (ran : scanTxs crypto batchIndex base chunkID blockID header txs s = returns s') :
    Scanned base (messages ++ queueIndices txs) s' ∧
      s'.nextIndex = (queueIndices txs).getLast?.elim s.nextIndex (· + 1) := by
  induction txs generalizing s messages with
  | nil =>
    cases ran
    exact ⟨(append_nil messages).symm ▸ scanned, rfl⟩
  | cons tx txs ih =>
    obtain ⟨mid, first, rest⟩ := bind_eq_returns.mp ran
    rw [queueIndices_cons, forall_mem_append] at small
    obtain ⟨scanned, next⟩ := scanTx_ok scanned small.1 first
    obtain ⟨scanned, last⟩ := ih scanned small.2 rest
    rw [queueIndices_cons, ← append_assoc]
    refine ⟨scanned, ?_⟩
    rw [last, next, getLast?_append]
    cases (queueIndices txs).getLast? <;> rfl

theorem numL1Messages_eq (block : WrappedBlock) (before : UInt64) :
    before + block.numL1Messages before =
      (queueIndices block.transactions).getLast?.elim before (· + 1) := by
  unfold WrappedBlock.numL1Messages queueIndices
  rw [getLast?_map]
  cases (block.transactions.filter (·.type = l1MessageTxType)).getLast? with
  | none => exact UInt64.add_zero before
  | some last =>
    simp only [Option.map_some, Option.elim_some]
    rw [← UInt64.add_assoc, UInt64.add_comm before, UInt64.sub_add_cancel]

theorem scanBlocks_ok {blocks : List WrappedBlock} (scanned : Scanned base messages s)
    (small : ∀ m ∈ blocks.flatMap (queueIndices ·.transactions), m.toNat + 1 < 2 ^ 64)
    (ran : scanBlocks crypto batchIndex base chunkID blockID blocks s = returns s') :
    Scanned base (messages ++ blocks.flatMap (queueIndices ·.transactions)) s' ∧
      s'.nextIndex = s.nextIndex + Chunk.numL1Messages s.nextIndex blocks := by
  induction blocks generalizing s messages blockID with
  | nil =>
    cases ran
    exact ⟨(append_nil messages).symm ▸ scanned, (UInt64.add_zero _).symm⟩
  | cons block blocks ih =>
    obtain ⟨mid, first, rest⟩ := bind_eq_returns.mp ran
    rw [flatMap_cons, forall_mem_append] at small
    obtain ⟨scanned, next⟩ := scanTxs_ok scanned small.1 first
    obtain ⟨scanned, last⟩ := ih scanned small.2 rest
    rw [flatMap_cons, ← append_assoc]
    refine ⟨scanned, ?_⟩
    rw [last, next, ← numL1Messages_eq, UInt64.add_assoc]
    rfl

theorem scanChunks_ok {chunks : List (List WrappedBlock)} {dataBytes dataBytes' : Bytes}
    (scanned : Scanned base messages s)
    (small : ∀ m ∈ chunks.flatten.flatMap (queueIndices ·.transactions), m.toNat + 1 < 2 ^ 64)
    (ran : scanChunks crypto batchIndex base chunkID chunks dataBytes s = returns (dataBytes', s')) :
    Scanned base (messages ++ chunks.flatten.flatMap (queueIndices ·.transactions)) s' ∧
      s'.nextIndex = totalPopped s.nextIndex chunks := by
  induction chunks generalizing s messages chunkID dataBytes with
  | nil =>
    cases ran
    exact ⟨(append_nil messages).symm ▸ scanned, rfl⟩
  | cons chunk chunks ih =>
    obtain ⟨hash, -, ran⟩ := bind_eq_returns.mp ran
    obtain ⟨mid, first, rest⟩ := bind_eq_returns.mp ran
    rw [flatten_cons, flatMap_append, forall_mem_append] at small
    obtain ⟨scanned, next⟩ := scanBlocks_ok scanned small.1 first
    obtain ⟨scanned, last⟩ := ih scanned small.2 rest
    rw [flatten_cons, flatMap_append, ← append_assoc]
    refine ⟨scanned, ?_⟩
    rw [last, next]
    rfl

end Steps

/-- The counts of a batch header are those of its chunks, and its bitmap marks the queue indices
that were popped without a message. -/
theorem newBatchHeader_bitmap (crypto : Crypto) (version : UInt8) (batchIndex before : UInt64)
    (parentBatchHash : Hash) (chunks : List (List WrappedBlock)) (header : BatchHeader)
    (small : ∀ chunk ∈ chunks, ∀ block ∈ chunk, ∀ tx ∈ block.transactions, tx.type = l1MessageTxType →
      tx.nonce.toNat < 2 ^ 64 - 1)
    (built : newBatchHeader crypto version batchIndex before parentBatchHash chunks = returns header) :
    header.totalL1MessagePopped = totalPopped before chunks ∧
      before.toNat + header.l1MessagePopped.toNat = header.totalL1MessagePopped.toNat ∧
      header.skippedL1MessageBitmap.length = 32 * ((header.l1MessagePopped.toNat + 255) / 256) ∧
      ∀ k, readBit header.skippedL1MessageBitmap k = true ↔ k < header.l1MessagePopped.toNat ∧
        ¬ ∃ chunk ∈ chunks, ∃ block ∈ chunk, ∃ tx ∈ block.transactions,
          tx.type = l1MessageTxType ∧ tx.nonce.toNat = before.toNat + k := by
  have member (m : UInt64) : m ∈ chunks.flatten.flatMap (queueIndices ·.transactions) ↔
      ∃ chunk ∈ chunks, ∃ block ∈ chunk, ∃ tx ∈ block.transactions, tx.type = l1MessageTxType ∧
        tx.nonce = m := by
    simp only [queueIndices, mem_flatMap, mem_flatten, mem_map, mem_filter, decide_eq_true_iff]
    grind
  obtain ⟨⟨dataBytes, s⟩, scan, built⟩ := bind_eq_returns.mp built
  cases built
  have start : Scanned before [] ⟨before, []⟩ := ⟨0, rfl, Covers.start _⟩
  have bounded (m : UInt64) (listed : m ∈ chunks.flatten.flatMap (queueIndices ·.transactions)) :
      m.toNat + 1 < 2 ^ 64 := by
    obtain ⟨chunk, mc, block, mb, tx, mt, l1, rfl⟩ := (member m).mp listed
    have := small chunk mc block mb tx mt l1
    omega
  obtain ⟨⟨popped, next, covers⟩, total⟩ := scanChunks_ok start bounded scan
  rw [toNat_sub_base next]
  refine ⟨total, next.symm, ?_, fun k => ?_⟩
  · rw [length_bytes covers.words, covers.length]
  · rw [readBit_bytes covers.words, covers.bits, nil_append]
    refine and_congr_right fun _ => ?_
    simp only [member]
    grind

def sampleRecord (type nonce : UInt64) : TransactionData where
  type := type
  nonce := nonce
  txHash := []
  gas := 21000
  gasPrice := 0
  recipient := some 7
  chainId := 0
  value := 0
  data := HexText.zeroX []
  isCreate := false
  v := 0
  r := 0
  s := 0

def sampleBatchBlock : WrappedBlock where
  header := sampleHeader
  transactions := [sampleRecord l1MessageTxType 6]

/-- A batch after five popped messages that skips the message 5 and has the message 6. -/
theorem sampleBatch_bitmap : ∃ header,
    newBatchHeader sampleCrypto 0 1 5 0 [[sampleBatchBlock]] = returns header ∧
      header.totalL1MessagePopped = 7 ∧ readBit header.skippedL1MessageBitmap 0 = true := by
  obtain ⟨header, built⟩ : ∃ header,
      newBatchHeader sampleCrypto 0 1 5 0 [[sampleBatchBlock]] = returns header :=
    ⟨_, rfl⟩
  obtain ⟨total, sum, -, bits⟩ := newBatchHeader_bitmap _ _ _ _ _ _ header
    (by simp [sampleBatchBlock, sampleRecord]) built
  have seven : header.totalL1MessagePopped = 7 := total.trans (by decide)
  have two : 5 + header.l1MessagePopped.toNat = 7 := by
    rw [seven] at sum
    exact sum
  refine ⟨header, built, seven, (bits 0).mpr ⟨by omega, ?_⟩⟩
  simp [sampleBatchBlock, sampleRecord]

end Anduschain.Rollup
