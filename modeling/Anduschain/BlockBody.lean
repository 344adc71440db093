import Anduschain.BlockExecution

/-! Transactions, voters and bodies (core/types): their RLP forms and hashes, the roots
that `DeriveSha` computes, and the fields a join transaction keeps in its payload. The
trie that `DeriveSha` fills is a parameter. -/
namespace Anduschain
open ByteOrder RlpItem List

def generalTx : UInt64 := 0

def ethTx : UInt64 := 2

/-- A nil recipient is written as an empty string. -/
def goRecipient : Option Address → GoValue
  | some addr => goAddress addr
  | none => .bytes []

namespace Transaction

def goValue (tx : Transaction) : GoValue :=
  .list [.uint tx.txType, .uint tx.accountNonce, .bigInt tx.price, .uint tx.gasLimit,
    goRecipient tx.recipient, .bigInt tx.amount, .bytes tx.payload, .bigInt tx.v, .bigInt tx.r,
    .bigInt tx.s]

def hash (crypto : Crypto) (tx : Transaction) : Hash := rlpHash crypto tx.goValue

def size (tx : Transaction) : ℕ := (rlpFeed tx.goValue).length

def cost (tx : Transaction) : ℕ := tx.price * tx.gasLimit.toNat + tx.amount

end Transaction

def Voter.goValue (v : Voter) : GoValue :=
  .list [.bytes v.header, goAddress v.voter, .bytes v.voteSign]

structure Body where
  transactions : List Transaction
  voters : List Voter
  deriving DecidableEq

namespace Block

def goValue (block : Block) : GoValue :=
  .list [block.header.goValue, .list (block.transactions.map Transaction.goValue),
    .list (block.voters.map Voter.goValue)]

def encodeRLP (block : Block) : Bytes := rlpFeed block.goValue

def hash (crypto : Crypto) (block : Block) : Hash := block.header.hash crypto

def numberU64 (block : Block) : UInt64 := UInt64.ofNat block.header.number

/-- `NewBlockWithHeader(header).WithBody(body)`. -/
def withBody (header : Header) (body : Body) : Block where
  header
  transactions := body.transactions
  voters := body.voters

def body (block : Block) : Body := ⟨block.transactions, block.voters⟩

end Block

/-- `EmptyRootHash`, and `EmptyReceiptHash` and `EmptyVoteHash` with it. -/
def emptyRootHash : Hash := 0x56e81f171bcc55a6ff8345e692c0f86e5b48e01b996cadc001622fb5e363b421

/-- The root of a trie after these updates in turn. -/
abbrev TrieHasher := List (Bytes × Bytes) → Hash

def trieUpdates (values : List GoValue) : List (Bytes × Bytes) :=
  values.mapIdx fun i v => (rlpFeed (.uint (UInt64.ofNat i)), rlpFeed v)

variable (hasher : TrieHasher)

def deriveSha (values : List GoValue) : Hash := hasher (trieUpdates values)

def txRoot (txs : List Transaction) : Hash :=
  deriveSha hasher (txs.map Transaction.goValue)

def voteRoot (voters : List Voter) : Hash :=
  deriveSha hasher (voters.map Voter.goValue)

def Log.goValue (log : Log) : GoValue :=
  .list [goAddress log.address, .list (log.topics.map goHash), .bytes log.data]

def Receipt.goValue (receipt : Receipt) : GoValue :=
  .list [.bytes (receipt.postState.elim (if receipt.failed then [] else [1]) hashBytes),
    .uint receipt.cumulativeGasUsed, .array (beFixed 256 receipt.bloom.toNat),
    .list (receipt.logs.map Log.goValue)]

def receiptRoot (receipts : List Receipt) : Hash :=
  deriveSha hasher (receipts.map Receipt.goValue)

/-- The slice expression `b[low:high]`; `none` is its panic. -/
def goSlice (b : Bytes) (low high : ℤ) : Option Bytes :=
  if 0 ≤ low ∧ low ≤ high ∧ high ≤ b.length then some ((b.take high.toNat).drop low.toNat) else none

theorem goSlice_isSome {b : Bytes} {low high : ℤ} :
    (goSlice b low high).isSome ↔ 0 ≤ low ∧ low ≤ high ∧ high ≤ b.length := by
  unfold goSlice
  split <;> simp_all

def littleEndianUint64 (b : Bytes) : UInt64 := UInt64.ofNat (beNat b.reverse)

abbrev JoinField (α : Type) := Option (Except String α)

namespace Transaction

def joinField (tx : Transaction) (low high : ℤ → ℤ) : JoinField Bytes :=
  if tx.txType = joinTx then
    (goSlice tx.payload (low tx.payload.length) (high tx.payload.length)).map .ok
  else some (.error "not join transaction")

def joinNonce (tx : Transaction) : JoinField UInt64 :=
  (tx.joinField (· - 40) (· - 32)).map (·.map littleEndianUint64)

def otprn (tx : Transaction) : JoinField Bytes := tx.joinField (fun _ => 0) (· - 40)

def payloadHash (tx : Transaction) : JoinField Bytes := tx.joinField (· - 32) id

theorem joinField_isSome {tx : Transaction} {low high : ℤ → ℤ} (join : tx.txType = joinTx) :
    (tx.joinField low high).isSome ↔ 0 ≤ low tx.payload.length ∧
      low tx.payload.length ≤ high tx.payload.length ∧ high tx.payload.length ≤ tx.payload.length := by
  rw [joinField, if_pos join, Option.isSome_map, goSlice_isSome]

theorem joinNonce_isSome {tx : Transaction} (join : tx.txType = joinTx) :
    tx.joinNonce.isSome ↔ 40 ≤ tx.payload.length := by
  rw [joinNonce, Option.isSome_map, joinField_isSome join]
  omega

theorem payloadHash_isSome {tx : Transaction} (join : tx.txType = joinTx) :
    tx.payloadHash.isSome ↔ 32 ≤ tx.payload.length := by
  rw [payloadHash, joinField_isSome join]
  simp only [id_eq]
  omega

end Transaction

def joinDigest (crypto : Crypto) (joinNonce : UInt64) (otprn : Bytes) (coinbase : Address) : Hash :=
  rlpHash crypto (.list [.uint joinNonce, .bytes otprn, goAddress coinbase])

section Codec

def Transaction.toItem (tx : Transaction) : Item :=
  .list [.str (beBytes tx.txType.toNat), .str (beBytes tx.accountNonce.toNat), .str (beBytes tx.price),
    .str (beBytes tx.gasLimit.toNat), .str (tx.recipient.elim [] addressBytes),
    .str (beBytes tx.amount), .str tx.payload, .str (beBytes tx.v), .str (beBytes tx.r),
    .str (beBytes tx.s)]

def Voter.toItem (v : Voter) : Item :=
  .list [.str v.header, .str (addressBytes v.voter), .str v.voteSign]

def Block.toItem (block : Block) : Item :=
  .list [block.header.toItem, .list (block.transactions.map Transaction.toItem),
    .list (block.voters.map Voter.toItem)]

theorem toItem_goRecipient (recipient : Option Address) :
    toItem (goRecipient recipient) = .ok (.str (recipient.elim [] addressBytes)) := by
  cases recipient <;> rfl

theorem Transaction.toItem_goValue (tx : Transaction) :
    Anduschain.toItem tx.goValue = .ok tx.toItem := by
  have nonneg (n : Nat) : ¬ (n : Int) < 0 := by omega
  simp [goValue, toItem, Anduschain.toItem, toItems, Except.map, nonneg, toItem_goRecipient]

theorem Voter.toItem_goValue (v : Voter) : Anduschain.toItem v.goValue = .ok v.toItem := rfl

theorem toItems_map {α : Type} {value : α → GoValue} {item : α → Item}
    (each : ∀ a, Anduschain.toItem (value a) = .ok (item a)) (as : List α) :
    toItems (as.map value) = .ok (as.map item) := by
  induction as with
  | nil => rfl
  | cons a as ih =>
    rw [map_cons, toItems, each, ih]
    rfl

theorem Block.toItem_goValue (block : Block) : Anduschain.toItem block.goValue = .ok block.toItem := by
  simp only [goValue, toItem, Anduschain.toItem, toItems, Header.toItem_goValue,
    toItems_map Transaction.toItem_goValue, toItems_map Voter.toItem_goValue, Except.map]

theorem Block.encodeRLP_eq (block : Block) : block.encodeRLP = encode block.toItem :=
  rlpFeed_of_toItem block.toItem_goValue

theorem encode_list_congr {xs ys : List Item} (alike : xs.map encode = ys.map encode) :
    encode (.list xs) = encode (.list ys) := by
  have flat : encodeAll xs = encodeAll ys := by
    rw [encodeAll_eq_flatMap, encodeAll_eq_flatMap, flatMap_def, flatMap_def, alike]
  rw [encode, encode, flat]

theorem trieUpdates_feeds {values₁ values₂ : List GoValue}
    (same : trieUpdates values₁ = trieUpdates values₂) :
    values₁.map rlpFeed = values₂.map rlpFeed := by
  have snd (values : List GoValue) : (trieUpdates values).map Prod.snd = values.map rlpFeed := by
    apply ext_getElem <;> simp [trieUpdates]
  rw [← snd, ← snd, same]

theorem feeds_map {α : Type} {value : α → GoValue} {item : α → Item}
    (each : ∀ a, Anduschain.toItem (value a) = .ok (item a)) (as : List α) :
    (as.map value).map rlpFeed = (as.map item).map encode := by
  rw [map_map, map_map]
  apply map_congr_left
  intro a _
  exact rlpFeed_of_toItem (each a)

end Codec

def sampleHasher : TrieHasher := fun updates =>
  sampleCrypto.keccak (updates.flatMap fun update => update.1 ++ update.2)

end Anduschain
