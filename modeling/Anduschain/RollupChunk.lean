import Anduschain.RollupBlock

/-! Chunks of rollup blocks: when the transactions in a chunk are the original ones, and what
block ranges are read back from chunks. -/
namespace Anduschain.Rollup
open ByteOrder RlpItem HexText Anduschain.Types GoCall List

section Payload
variable {crypto : Crypto} {inner : TxData} {txs : List TxData}

def rebuilt (inner : TxData) : LegacyTx where
  txType := generalTx
  accountNonce := inner.unsigned.nonce
  price := inner.unsigned.gasPrice
  gasLimit := inner.unsigned.gas
  recipient := inner.unsigned.recipient
  amount := inner.unsigned.value
  payload := inner.unsigned.data
  v := inner.rawSignatureValues.1
  r := inner.rawSignatureValues.2.1
  s := inner.rawSignatureValues.2.2

theorem decodeHex_encodeBytes (b : Bytes) : decodeHex (encodeBytes b) = some b :=
  decodeString_encodePairs b

theorem convert_txDataOf : convertTxDataToRLPEncoding (txDataOf crypto inner none) =
    returns (encode (TxData.legacy (rebuilt inner)).toItem) := by
  unfold convertTxDataToRLPEncoding
  simp only [txDataOf, decodeHex_encodeBytes, bind_returns, TxData.copy, TxData.encodeRLP_eq]
  rfl

theorem encodeTxs_ordinary (ordinary : ∀ inner ∈ txs, Ordinary inner) :
    encodeTxs (txs.map (txDataOf crypto · none)) =
      returns (txs.flatMap fun inner => framed (encode (TxData.legacy (rebuilt inner)).toItem)) := by
  induction txs with
  | nil => rfl
  | cons inner txs ih =>
    obtain ⟨first, rest⟩ := forall_mem_cons.mp ordinary
    have other : ¬ (txDataOf crypto inner none).type = l1MessageTxType := first.txType_ne
    rw [map_cons, encodeTxs, if_neg other, convert_txDataOf, bind_returns, ih rest, bind_returns,
      flatMap_cons]
    rfl

theorem txsToTxsData_iff {ε : Type} {txsData : List TransactionData}
    (plain : ∀ inner ∈ txs, ∀ message, inner ≠ .l1Message message) :
    (txsToTxsData crypto txs : GoCall ε _) = returns txsData ↔
      (∀ inner ∈ txs, Ordinary inner) ∧ txsData = txs.map (txDataOf crypto · none) := by
  induction txs generalizing txsData with
  | nil => simp [txsToTxsData, eq_comm]
  | cons inner txs ih =>
    obtain ⟨here, rest⟩ := forall_mem_cons.mp plain
    rw [forall_mem_cons]
    constructor
    · intro made
      obtain ⟨msg, asked, made⟩ := bind_eq_returns.mp made
      obtain ⟨others, tail, made⟩ := bind_eq_returns.mp made
      cases made
      obtain ⟨ordinary, rfl⟩ := (ih rest).mp tail
      have first : Ordinary inner := by
        refine ⟨here, fun tx same typed => ?_⟩
        subst same
        have l1 : isL1MessageTx (.legacy tx) = true := decide_eq_true typed
        unfold asL1MessageTx at asked
        rw [l1] at asked
        cases asked
      obtain rfl : none = msg := GoCall.returns.inj ((asL1MessageTx_ordinary first).symm.trans asked)
      exact ⟨⟨first, ordinary⟩, rfl⟩
    · rintro ⟨⟨first, ordinary⟩, rfl⟩
      rw [txsToTxsData, asL1MessageTx_ordinary first, bind_returns, (ih rest).mpr ⟨ordinary, rfl⟩]
      rfl

end Payload

def wrapBlocks (crypto : Crypto) : List (Header × List TxData) → GoCall RollupError (List WrappedBlock)
  | [] => returns []
  | (header, txs) :: bodies => do
    let txsData ← txsToTxsData crypto txs
    return { header, transactions := txsData } :: (← wrapBlocks crypto bodies)

/-- After the contexts come the transactions in binary form, each after its length, and decoding
them gives the hashes of the original ones. -/
def PayloadFaithful (crypto : Crypto) (before : UInt64) (bodies : List (Header × List TxData)) : Prop :=
  ∃ blocks bytes frames, wrapBlocks crypto bodies = returns blocks ∧
    Chunk.encode blocks before = returns bytes ∧
    bytes.drop (1 + 60 * blocks.length) = frames.flatMap framed ∧
    List.Forall₂ (fun inner frame => inner.encodeRLP = .ok frame ∧
      ∃ decoded, unmarshalBinary frame = .ok decoded ∧ decoded.hash crypto = inner.hash crypto)
      (bodies.flatMap Prod.snd) frames

/-- What `Chunk.Encode` accepts: a count of blocks for one byte, block numbers for eight and
transactions for two. -/
structure Encodable (bodies : List (Header × List TxData)) : Prop where
  nonempty : bodies ≠ []
  few : bodies.length ≤ 255
  number : ∀ body ∈ bodies, body.1.number < 2 ^ 64
  txs : ∀ body ∈ bodies, body.2.length ≤ 0xffff

section Faithful
variable {crypto : Crypto} {before : UInt64} {bodies : List (Header × List TxData)}

def wrapped (crypto : Crypto) (body : Header × List TxData) : WrappedBlock where
  header := body.1
  transactions := body.2.map (txDataOf crypto · none)

theorem wrapBlocks_iff {blocks : List WrappedBlock}
    (plain : ∀ inner ∈ bodies.flatMap Prod.snd, ∀ message, inner ≠ .l1Message message) :
    wrapBlocks crypto bodies = returns blocks ↔
      (∀ inner ∈ bodies.flatMap Prod.snd, Ordinary inner) ∧ blocks = bodies.map (wrapped crypto) := by
  induction bodies generalizing blocks with
  | nil => simp [wrapBlocks, eq_comm]
  | cons body bodies ih =>
    obtain ⟨header, txs⟩ := body
    simp only [flatMap_cons, forall_mem_append] at plain ⊢
    rw [wrapBlocks, bind_eq_returns]
    constructor
    · rintro ⟨txsData, here, made⟩
      obtain ⟨others, tail, made⟩ := bind_eq_returns.mp made
      cases made
      obtain ⟨first, rfl⟩ := (txsToTxsData_iff plain.1).mp here
      obtain ⟨rest, rfl⟩ := (ih plain.2).mp tail
      exact ⟨⟨first, rest⟩, rfl⟩
    · rintro ⟨⟨first, rest⟩, rfl⟩
      refine ⟨_, (txsToTxsData_iff plain.1).mpr ⟨first, rfl⟩, ?_⟩
      rw [(ih plain.2).mpr ⟨rest, rfl⟩]
      rfl

theorem wrapped_counts {header : Header} {txs : List TxData}
    (ordinary : ∀ inner ∈ txs, Ordinary inner) :
    (wrapped crypto (header, txs)).numL1Messages before = 0 ∧
      (wrapped crypto (header, txs)).numL2Transactions = UInt64.ofNat txs.length := by
  have others (txData : TransactionData) (member : txData ∈ txs.map (txDataOf crypto · none)) :
      txData.type ≠ l1MessageTxType := by
    obtain ⟨inner, listed, rfl⟩ := mem_map.mp member
    exact (ordinary inner listed).txType_ne
  constructor
  · have empty : (wrapped crypto (header, txs)).transactions.filter (·.type = l1MessageTxType) = [] :=
      filter_eq_nil_iff.mpr fun txData member => by simpa using others txData member
    rw [WrappedBlock.numL1Messages, empty, getLast?_nil]
  · have whole : (wrapped crypto (header, txs)).transactions.filter (·.type ≠ l1MessageTxType) =
        (wrapped crypto (header, txs)).transactions :=
      filter_eq_self.mpr fun txData member => by simpa using others txData member
    rw [WrappedBlock.numL2Transactions, whole, wrapped, length_map]

theorem encodeBlocks_wrapped (number : ∀ body ∈ bodies, body.1.number < 2 ^ 64)
    (few : ∀ body ∈ bodies, body.2.length ≤ 0xffff)
    (ordinary : ∀ inner ∈ bodies.flatMap Prod.snd, Ordinary inner) :
    ∃ contexts, Chunk.encodeBlocks before (bodies.map (wrapped crypto)) =
      returns (contexts, (bodies.flatMap Prod.snd).flatMap fun inner =>
        framed (encode (TxData.legacy (rebuilt inner)).toItem)) := by
  induction bodies with
  | nil => exact ⟨[], rfl⟩
  | cons body bodies ih =>
    obtain ⟨header, txs⟩ := body
    rw [flatMap_cons, forall_mem_append] at ordinary
    obtain ⟨first, rest⟩ := ordinary
    obtain ⟨l1, l2⟩ : (wrapped crypto (header, txs)).numL1Messages before = 0 ∧ _ :=
      wrapped_counts first
    have short : txs.length ≤ 0xffff := few _ mem_cons_self
    have small : ¬ 0xffff < (0 : UInt64) + UInt64.ofNat txs.length := by
      rw [UInt64.zero_add, UInt64.not_lt, UInt64.le_iff_toNat_le, UInt64.toNat_ofNat',
        Nat.mod_eq_of_lt (by omega)]
      exact short
    obtain ⟨context, wrote⟩ : ∃ context,
        (wrapped crypto (header, txs)).encode before = returns context :=
      WrappedBlock.encode_total (number _ mem_cons_self) (by rw [l1]; decide)
        (by rw [l1, l2]; exact small)
    obtain ⟨contexts, others⟩ := ih (fun body member => number body (mem_cons_of_mem _ member))
      (fun body member => few body (mem_cons_of_mem _ member)) rest
    refine ⟨context ++ contexts, ?_⟩
    rw [map_cons, Chunk.encodeBlocks, mapFail_eq_returns.mpr wrote, bind_returns,
      if_neg (not_not.mpr (WrappedBlock.encode_ok wrote).2.1), wrapped, encodeTxs_ordinary first,
      bind_returns]
    rw [wrapped] at l1
    rw [l1, UInt64.add_zero, others, flatMap_cons, flatMap_append]
    rfl

theorem framed_flatMap_inj {xs ys : List Bytes} (count : xs.length = ys.length)
    (small : ∀ b ∈ xs ++ ys, b.length < 2 ^ 32) (same : xs.flatMap framed = ys.flatMap framed) :
    xs = ys := by
  induction xs generalizing ys with
  | nil => exact (length_eq_zero_iff.mp count.symm).symm
  | cons x xs ih =>
    obtain _ | ⟨y, ys⟩ := ys
    · nomatch count
    · have width (b : Bytes) (member : b ∈ x :: xs ++ y :: ys) :
          beNat (beFixed 4 b.length) = b.length :=
        beNat_beFixed_of_lt (small b member)
      rw [flatMap_cons, flatMap_cons, framed, framed, append_assoc, append_assoc] at same
      obtain ⟨lengths, same⟩ := append_inj same (by simp)
      have equal : x.length = y.length := by
        rw [← width x (by simp), ← width y (by simp), lengths]
      obtain ⟨rfl, rest⟩ := append_inj same equal
      have others (b : Bytes) (member : b ∈ xs ++ ys) : b.length < 2 ^ 32 := by
        refine small b ?_
        simp only [mem_append, mem_cons] at member ⊢
        tauto
      rw [ih (Nat.succ.inj count) others rest]

theorem rebuilt_iff {inner : TxData} (plain : ∀ message, inner ≠ .l1Message message)
    (fits : (encode (TxData.legacy (rebuilt inner)).toItem).length < 2 ^ 64) :
    encode (TxData.legacy (rebuilt inner)).toItem = encode inner.toItem ↔
      ∃ tx, inner = .legacy tx ∧ tx.txType = generalTx := by
  constructor
  · intro same
    have items := encode_inj fits same
    cases inner with
    | legacy tx =>
      refine ⟨tx, rfl, ?_⟩
      simp only [TxData.toItem, Transaction.toItem, rebuilt, Item.list.injEq, List.cons.injEq,
        Item.str.injEq] at items
      exact (UInt64.toNat_inj.mp (beBytes_inj items.1)).symm
    | eth tx =>
      have counts := congrArg List.length (Item.list.inj items)
      exact absurd counts (by simp)
    | l1Message message => exact absurd rfl (plain message)
  · rintro ⟨tx, rfl, general⟩
    have same : rebuilt (.legacy tx) = tx := by
      rw [rebuilt, ← general]
      rfl
    rw [same]

theorem encode_wrapped (encodable : Encodable bodies)
    (ordinary : ∀ inner ∈ bodies.flatMap Prod.snd, Ordinary inner) :
    ∃ bytes, Chunk.encode (bodies.map (wrapped crypto)) before = returns bytes ∧
      bytes.drop (1 + 60 * (bodies.map (wrapped crypto)).length) =
        ((bodies.flatMap Prod.snd).map fun inner =>
          encode (TxData.legacy (rebuilt inner)).toItem).flatMap framed := by
  obtain ⟨contexts, wrote⟩ : ∃ contexts, Chunk.encodeBlocks before (bodies.map (wrapped crypto)) = _ :=
    encodeBlocks_wrapped encodable.number encodable.txs ordinary
  have few : ¬ 255 < (bodies.map (wrapped crypto)).length := by
    simpa using encodable.few
  have some : ¬ (bodies.map (wrapped crypto)).length = 0 := by
    simpa using encodable.nonempty
  refine ⟨_, by rw [Chunk.encode, if_neg few, if_neg some, wrote]; rfl, ?_⟩
  have length : contexts.length = 60 * (bodies.map (wrapped crypto)).length :=
    Chunk.encodeBlocks_length wrote
  rw [cons_append, Nat.add_comm, drop_succ_cons, ← length, drop_left, flatMap_map]

/-- A chunk carries the transactions of its blocks unchanged if all of them are general ones. -/
theorem chunk_payload_faithful_iff (crypto : Crypto) (before : UInt64)
    (bodies : List (Header × List TxData)) (encodable : Encodable bodies)
    (plain : ∀ inner ∈ bodies.flatMap Prod.snd, ∀ message, inner ≠ .l1Message message)
    (sized : ∀ inner ∈ bodies.flatMap Prod.snd, (encode inner.toItem).length < 2 ^ 32 ∧
      (encode (TxData.legacy (rebuilt inner)).toItem).length < 2 ^ 32) :
    PayloadFaithful crypto before bodies ↔
      ∀ inner ∈ bodies.flatMap Prod.snd, ∃ tx, inner = .legacy tx ∧ tx.txType = generalTx := by
  have wide (inner : TxData) (member : inner ∈ bodies.flatMap Prod.snd) :
      encode (TxData.legacy (rebuilt inner)).toItem = encode inner.toItem ↔
        ∃ tx, inner = .legacy tx ∧ tx.txType = generalTx :=
    rebuilt_iff (plain inner member) (Nat.lt_trans (sized inner member).2 (by decide))
  constructor
  · rintro ⟨blocks, bytes, frames, wrappedAll, encoded, carried, each⟩
    obtain ⟨ordinary, rfl⟩ := (wrapBlocks_iff plain).mp wrappedAll
    obtain ⟨bytes', encoded', found⟩ := encode_wrapped encodable ordinary
    obtain rfl : bytes' = bytes := GoCall.returns.inj (encoded'.symm.trans encoded)
    have binary : (bodies.flatMap Prod.snd).map (fun inner => encode inner.toItem) = frames := by
      rw [← List.forall₂_eq_eq_eq, List.forall₂_map_left_iff]
      refine each.imp fun inner frame held => ?_
      exact Except.ok.inj ((TxData.encodeRLP_eq inner).symm.trans held.1)
    rw [found, ← binary] at carried
    refine fun inner member => (wide inner member).mp ?_
    refine map_inj_left.mp (framed_flatMap_inj (by simp) ?_ carried) inner member
    intro b member
    rw [mem_append, mem_map, mem_map] at member
    rcases member with ⟨inner, member, rfl⟩ | ⟨inner, member, rfl⟩
    · exact (sized inner member).2
    · exact (sized inner member).1
  · intro general
    have ordinary (inner : TxData) (member : inner ∈ bodies.flatMap Prod.snd) : Ordinary inner := by
      refine ⟨plain inner member, fun tx same typed => ?_⟩
      obtain ⟨tx', same', typed'⟩ := general inner member
      obtain rfl : tx = tx' := TxData.legacy.inj (same.symm.trans same')
      exact absurd (typed.symm.trans typed') (by decide)
    obtain ⟨bytes, encoded, found⟩ :
        ∃ bytes, Chunk.encode (bodies.map (wrapped crypto)) before = returns bytes ∧ _ :=
      encode_wrapped encodable ordinary
    refine ⟨_, bytes, _, (wrapBlocks_iff plain).mpr ⟨ordinary, rfl⟩, encoded, found, ?_⟩
    rw [List.forall₂_map_right_iff, List.forall₂_same]
    intro inner member
    rw [(wide inner member).mpr (general inner member)]
    obtain ⟨tx, rfl, -⟩ := general inner member
    exact ⟨TxData.encodeRLP_eq _, _, unmarshalBinary_encode (plain _ member)
      (Nat.lt_trans (sized _ member).1 (by decide)), rfl⟩

def sampleBody (tx : TxData) : List (Header × List TxData) := [(sampleHeader, [tx])]

theorem sampleBody_encodable (tx : TxData) : Encodable (sampleBody tx) :=
  ⟨cons_ne_nil _ _, by simp [sampleBody], by simp [sampleBody, sampleHeader], by simp [sampleBody]⟩

theorem sampleGeneral_carried :
    PayloadFaithful sampleCrypto 0 (sampleBody (.legacy (Types.sampleTransfer generalTx))) := by
  refine (chunk_payload_faithful_iff sampleCrypto 0 _ (sampleBody_encodable _) ?_ ?_).mpr ?_ <;>
    simp only [sampleBody, flatMap_cons, flatMap_nil, append_nil, forall_mem_singleton]
  · exact nofun
  · decide +kernel
  · exact ⟨_, rfl, rfl⟩

/-- A join transaction loses its type. -/
theorem sampleJoin_not_carried : ∃ blocks bytes,
    wrapBlocks sampleCrypto (sampleBody (.legacy (Types.sampleTransfer joinTx))) = returns blocks ∧
    Chunk.encode blocks 0 = returns bytes ∧
    bytes.drop 61 = framed (encode (TxData.legacy (Types.sampleTransfer generalTx)).toItem) ∧
    bytes.drop 61 ≠ framed (encode (TxData.legacy (Types.sampleTransfer joinTx)).toItem) := by
  have ordinary (inner : TxData)
      (member : inner ∈ (sampleBody (.legacy (Types.sampleTransfer joinTx))).flatMap Prod.snd) :
      Ordinary inner := by
    rw [sampleBody, flatMap_singleton, mem_singleton] at member
    subst member
    exact ⟨nofun, fun tx same => by cases same; decide⟩
  obtain ⟨bytes, encoded, found⟩ :
      ∃ bytes, Chunk.encode _ 0 = returns bytes ∧ _ := encode_wrapped (sampleBody_encodable _) ordinary
  have plain (inner : TxData) (member : inner ∈ _) := (ordinary inner member).1
  refine ⟨_, bytes, (wrapBlocks_iff plain).mpr ⟨ordinary, rfl⟩, encoded, found, fun same => ?_⟩
  exact absurd (found.symm.trans same) (by decide +kernel)

end Faithful

structure BlockContext where
  blockNumber : UInt64
  timestamp : UInt64
  gasLimit : UInt64
  numTransactions : UInt16
  numL1Messages : UInt16
  deriving DecidableEq

def decodeBlockContext (encoded : Bytes) : GoCall RollupError BlockContext :=
  if encoded.length ≠ 60 then fails .contextSize
  else returns {
    blockNumber := UInt64.ofNat (beNat (encoded.take 8))
    timestamp := UInt64.ofNat (beNat ((encoded.drop 8).take 8))
    gasLimit := UInt64.ofNat (beNat ((encoded.drop 48).take 8))
    numTransactions := UInt16.ofNat (beNat ((encoded.drop 56).take 2))
    numL1Messages := UInt16.ofNat (beNat ((encoded.drop 58).take 2)) }

structure ChunkBlockRange where
  startBlockNumber : UInt64
  endBlockNumber : UInt64
  deriving DecidableEq

/-- The contexts one after the other; a slice beyond the end panics. -/
def decodeContexts : ℕ → Bytes → GoCall RollupError (List BlockContext)
  | 0, _ => returns []
  | numBlocks + 1, rest =>
    if rest.length < 60 then panics
    else do
      let context ← decodeBlockContext (rest.take 60)
      return context :: (← decodeContexts numBlocks (rest.drop 60))

/-- The body of the loop over the chunks, which reads the first context without asking for one. -/
def decodeChunkBlockRange (chunk : Bytes) : GoCall RollupError ChunkBlockRange :=
  match chunk with
  | [] => fails .emptyChunk
  | numBlocks :: rest =>
    if rest.length < 60 * numBlocks.toNat then fails .chunkSize
    else do
      let blockContexts ← decodeContexts numBlocks.toNat rest
      let first ← orPanic blockContexts.head?
      let last ← orPanic blockContexts.getLast?
      return ⟨first.blockNumber, last.blockNumber⟩

def decodeChunkBlockRanges : List Bytes → GoCall RollupError (List ChunkBlockRange)
  | [] => returns []
  | chunk :: chunks => do
    let range ← decodeChunkBlockRange chunk
    return range :: (← decodeChunkBlockRanges chunks)

section Ranges
variable {chunk : Bytes}

def short : Bytes → Bool
  | [] => true
  | numBlocks :: rest => rest.length < 60 * numBlocks.toNat

theorem decodeBlockContext_total {encoded : Bytes} (length : encoded.length = 60) :
    ∃ context, decodeBlockContext encoded = returns context ∧
      context.blockNumber = UInt64.ofNat (beNat (encoded.take 8)) :=
  ⟨_, if_neg (not_not.mpr length), rfl⟩

theorem decodeContexts_total {numBlocks : ℕ} {rest : Bytes} (long : 60 * numBlocks ≤ rest.length) :
    ∃ contexts, decodeContexts numBlocks rest = returns contexts ∧ contexts.length = numBlocks := by
  induction numBlocks generalizing rest with
  | zero => exact ⟨[], rfl, rfl⟩
  | succ numBlocks ih =>
    obtain ⟨contexts, read, length⟩ := @ih (rest.drop 60) (by rw [length_drop]; omega)
    have window : (rest.take 60).length = 60 := by
      rw [length_take]
      omega
    obtain ⟨context, first, -⟩ := decodeBlockContext_total window
    refine ⟨context :: contexts, ?_, congrArg Nat.succ length⟩
    rw [decodeContexts, if_neg (by omega), first, bind_returns, read]
    rfl

theorem decodeChunkBlockRange_cases (chunk : Bytes) :
    if short chunk then ∃ e, decodeChunkBlockRange chunk = fails e
    else if chunk.head? = some 0 then decodeChunkBlockRange chunk = panics
    else ∃ range, decodeChunkBlockRange chunk = returns range := by
  cases chunk with
  | nil => exact ⟨_, rfl⟩
  | cons numBlocks rest =>
    unfold short decodeChunkBlockRange
    by_cases small : rest.length < 60 * numBlocks.toNat
    · simp only [small, decide_true, if_true]
      exact ⟨_, rfl⟩
    · obtain ⟨contexts, read, length⟩ := decodeContexts_total (Nat.not_lt.mp small)
      simp only [small, decide_false, Bool.false_eq_true, if_false, read, bind_returns, head?_cons,
        Option.some.injEq]
      cases contexts with
      | nil =>
        rw [if_pos (UInt8.toNat_inj.mp length.symm)]
        rfl
      | cons first others =>
        have positive : ¬ numBlocks = 0 := by
          rintro rfl
          nomatch length
        rw [if_neg positive, head?_cons, getLast?_cons]
        exact ⟨_, rfl⟩

theorem decodeContexts_encodeBlocks {blocks : List WrappedBlock} {before : UInt64}
    {parts : Bytes × Bytes}
    {tail : Bytes} (encoded : Chunk.encodeBlocks before blocks = returns parts) :
    ∃ contexts, decodeContexts blocks.length (parts.1 ++ tail) = returns contexts ∧
      List.Forall₂ (fun block context => context.blockNumber.toNat = block.header.number)
        blocks contexts := by
  induction blocks generalizing before parts with
  | nil => exact ⟨[], rfl, .nil⟩
  | cons block blocks ih =>
    obtain ⟨context, wrote, encoded⟩ := bind_eq_returns.mp encoded
    split_ifs at encoded
    obtain ⟨txs, -, encoded⟩ := bind_eq_returns.mp encoded
    obtain ⟨⟨others, payload⟩, rest, encoded⟩ := bind_eq_returns.mp encoded
    cases encoded
    obtain ⟨small, length, number⟩ := WrappedBlock.encode_ok (mapFail_eq_returns.mp wrote)
    obtain ⟨contexts, read, each⟩ := ih rest
    have long : ¬ (context ++ others ++ tail).length < 60 := by
      simp only [length_append, length]
      omega
    obtain ⟨here, first, numbered⟩ := decodeBlockContext_total length
    refine ⟨here :: contexts, ?_, .cons ?_ each⟩
    · rw [length_cons, decodeContexts, if_neg long, append_assoc, take_left' length,
        drop_left' length, first, bind_returns, read]
      rfl
    · rw [numbered, number, UInt64.toNat_ofNat', Nat.mod_eq_of_lt small]

def Spans (blocks : List WrappedBlock) (range : ChunkBlockRange) : Prop :=
  ∃ first last, blocks.head? = some first ∧ blocks.getLast? = some last ∧
    range.startBlockNumber.toNat = first.header.number ∧ range.endBlockNumber.toNat = last.header.number

theorem head_of_forall₂ {α β : Type*} {R : α → β → Prop} {xs : List α} {ys : List β} {x : α}
    (head : xs.head? = some x) (each : List.Forall₂ R xs ys) : ∃ y, ys.head? = some y ∧ R x y := by
  cases each with
  | nil => nomatch head
  | cons here _ => exact ⟨_, rfl, Option.some.inj head ▸ here⟩

theorem decodeChunkBlockRange_encode {blocks : List WrappedBlock} {before : UInt64}
    (encoded : Chunk.encode blocks before = returns chunk) :
    ∃ range, decodeChunkBlockRange chunk = returns range ∧ Spans blocks range := by
  unfold Chunk.encode at encoded
  split_ifs at encoded with many some
  obtain ⟨⟨contexts, payload⟩, wrote, encoded⟩ := bind_eq_returns.mp encoded
  cases encoded
  have count : (UInt8.ofNat blocks.length).toNat = blocks.length := by
    rw [UInt8.toNat_ofNat', Nat.mod_eq_of_lt (by omega)]
  have long : ¬ (contexts ++ payload).length < 60 * (UInt8.ofNat blocks.length).toNat := by
    have width : contexts.length = 60 * blocks.length := Chunk.encodeBlocks_length wrote
    rw [count, length_append]
    omega
  obtain ⟨read, decoded, each⟩ : ∃ contexts',
      decodeContexts blocks.length (contexts ++ payload) = _ ∧ _ :=
    decodeContexts_encodeBlocks wrote
  have nonempty : blocks ≠ [] := mt length_eq_zero_iff.mpr some
  obtain ⟨first, started, number⟩ := head_of_forall₂ (head?_eq_some_head nonempty) each
  obtain ⟨last, ended, number'⟩ := head_of_forall₂
    (head?_eq_some_head (mt reverse_eq_nil_iff.mp nonempty)) (rel_reverse each)
  rw [head?_reverse] at ended
  refine ⟨⟨first.blockNumber, last.blockNumber⟩, ?_, blocks.head nonempty, blocks.getLast nonempty,
    head?_eq_some_head nonempty, getLast?_eq_some_getLast nonempty, number, ?_⟩
  · rw [cons_append, decodeChunkBlockRange, if_neg long, count, decoded, bind_returns, started,
      ended]
    rfl
  · rw [number', head_reverse]

theorem decodeChunkBlockRanges_returned {chunks : List Bytes} :
    (decodeChunkBlockRanges chunks).Returned ↔
      ∀ chunk ∈ chunks.takeWhile (!short ·), chunk.head? ≠ some 0 := by
  induction chunks with
  | nil => exact ⟨fun _ => nofun, fun _ => trivial⟩
  | cons first chunks ih =>
    have here := decodeChunkBlockRange_cases first
    rw [decodeChunkBlockRanges, takeWhile_cons]
    split at here
    · rename_i small
      obtain ⟨e, refused⟩ := here
      rw [refused, small]
      exact ⟨fun _ => nofun, fun _ => trivial⟩
    · rename_i long
      rw [Bool.eq_false_of_not_eq_true long, Bool.not_false, if_pos rfl, forall_mem_cons]
      split at here
      · rename_i zero
        rw [here]
        exact ⟨False.elim, fun held => absurd zero held.1⟩
      · rename_i positive
        obtain ⟨range, read⟩ := here
        rw [read, bind_returns, ← ih, and_iff_right positive]
        cases decodeChunkBlockRanges chunks <;> exact Iff.rfl

/-- The ranges of encoded chunks come back; arbitrary chunks are read without a panic if none in
front of the first one that is too short announces no blocks. -/
theorem decodeChunkBlockRanges_iff (encoded : List (UInt64 × List WrappedBlock)) (chunks : List Bytes) :
    (List.Forall₂ (fun c chunk => Chunk.encode c.2 c.1 = returns chunk) encoded chunks →
      ∃ ranges, decodeChunkBlockRanges chunks = returns ranges ∧
        List.Forall₂ (fun c range => Spans c.2 range) encoded ranges) ∧
    ((decodeChunkBlockRanges chunks).Returned ↔
      ∀ chunk ∈ chunks.takeWhile (!short ·), chunk.head? ≠ some 0) := by
  refine ⟨fun each => ?_, decodeChunkBlockRanges_returned⟩
  induction each with
  | nil => exact ⟨[], rfl, .nil⟩
  | cons here _ ih =>
    obtain ⟨range, first, spans⟩ := decodeChunkBlockRange_encode here
    obtain ⟨ranges, others, rest⟩ := ih
    refine ⟨range :: ranges, ?_, .cons spans rest⟩
    rw [decodeChunkBlockRanges, first, bind_returns, others]
    rfl

theorem emptyCount_panics : decodeChunkBlockRanges [[0]] = panics := rfl

end Ranges
end Anduschain.Rollup
