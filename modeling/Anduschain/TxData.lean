import Anduschain.RlpStream
import Anduschain.BlockBody

/-! A transaction as core/types holds it: inner data behind the `TxData` interface, which is
reached through a reference and may be shared, and caches for the hash and the sender. The
flat transactions of the other modules are the inner data of type `LegacyTx`. -/
namespace Anduschain.Types
open ByteOrder RlpItem

abbrev LegacyTx := Anduschain.Transaction

structure TxEthdata where
  accountNonce : UInt64
  price : ℕ
  gasLimit : UInt64
  recipient : Option Address
  amount : ℕ
  payload : Bytes
  v : ℕ
  r : ℕ
  s : ℕ
  deriving DecidableEq

structure L1MessageTx where
  queueIndex : UInt64
  gas : UInt64
  recipient : Option Address
  value : ℕ
  data : Bytes
  sender : Address
  deriving DecidableEq

inductive TxData where
  | legacy (tx : LegacyTx)
  | eth (tx : TxEthdata)
  | l1Message (tx : L1MessageTx)
  deriving DecidableEq

def l1MessageTxType : UInt64 := 0x7E

/-- The chain id that `v` was made with; below 64 bits the subtraction wraps. -/
def deriveChainId (v : ℕ) : ℕ :=
  if v < 2 ^ 64 then
    if v = 27 ∨ v = 28 then 0 else ((UInt64.ofNat v - 35) / 2).toNat
  else (v - 35) / 2

def isProtectedV (v : ℕ) : Bool := if v < 2 ^ 8 then v != 27 && v != 28 else true

structure Unsigned where
  txType : UInt64
  nonce : UInt64
  gasPrice : ℕ
  gas : UInt64
  recipient : Option Address
  value : ℕ
  data : Bytes
  deriving DecidableEq

namespace TxData

def unsigned : TxData → Unsigned
  | .legacy tx =>
    ⟨tx.txType, tx.accountNonce, tx.price, tx.gasLimit, tx.recipient, tx.amount, tx.payload⟩
  | .eth tx =>
    ⟨ethTx, tx.accountNonce, tx.price, tx.gasLimit, tx.recipient, tx.amount, tx.payload⟩
  | .l1Message tx => ⟨l1MessageTxType, 0, 0, tx.gas, tx.recipient, tx.value, tx.data⟩

variable (inner : TxData)

def txType : UInt64 := inner.unsigned.txType

/-- The deep copy of a legacy transaction has the type of a general one. -/
def copy : TxData → TxData
  | .legacy tx => .legacy {
      txType := generalTx
      accountNonce := tx.accountNonce
      price := tx.price
      gasLimit := tx.gasLimit
      recipient := tx.recipient
      amount := tx.amount
      payload := tx.payload
      v := tx.v
      r := tx.r
      s := tx.s }
  | .eth tx => .eth tx
  | .l1Message tx => .l1Message tx

def rawSignatureValues : TxData → ℕ × ℕ × ℕ
  | .legacy tx => (tx.v, tx.r, tx.s)
  | .eth tx => (tx.v, tx.r, tx.s)
  | .l1Message _ => (0, 0, 0)

def chainID : TxData → ℕ
  | .legacy tx => deriveChainId tx.v
  | .eth tx => deriveChainId tx.v
  | .l1Message _ => 0

/-- What the call leaves in the receiver. The method of `txEthdata` has a value receiver and
sets the fields of a copy. -/
def setSignatureValues (v r s : ℕ) : TxData → TxData
  | .legacy tx => .legacy { tx with v := v, r := r, s := s }
  | .eth tx => .eth tx
  | .l1Message tx => .l1Message tx

def goValue : TxData → GoValue
  | .legacy tx => tx.goValue
  | .eth tx =>
    .list [.uint tx.accountNonce, .bigInt tx.price, .uint tx.gasLimit, goRecipient tx.recipient,
      .bigInt tx.amount, .bytes tx.payload, .bigInt tx.v, .bigInt tx.r, .bigInt tx.s]
  | .l1Message tx =>
    .list [.uint tx.queueIndex, .uint tx.gas, goRecipient tx.recipient, .bigInt tx.value,
      .bytes tx.data, goAddress tx.sender]

def toItem : TxData → Item
  | .legacy tx => tx.toItem
  | .eth tx =>
    .list [.str (beBytes tx.accountNonce.toNat), .str (beBytes tx.price),
      .str (beBytes tx.gasLimit.toNat), .str (tx.recipient.elim [] addressBytes),
      .str (beBytes tx.amount), .str tx.payload, .str (beBytes tx.v), .str (beBytes tx.r),
      .str (beBytes tx.s)]
  | .l1Message tx =>
    .list [.str (beBytes tx.queueIndex.toNat), .str (beBytes tx.gas.toNat),
      .str (tx.recipient.elim [] addressBytes), .str (beBytes tx.value), .str tx.data,
      .str (addressBytes tx.sender)]

theorem toItem_goValue : Anduschain.toItem inner.goValue = .ok inner.toItem := by
  have nonneg (n : ℕ) : ¬ (n : ℤ) < 0 := by omega
  cases inner with
  | legacy tx => exact tx.toItem_goValue
  | eth tx =>
    simp [goValue, toItem, Anduschain.toItem, toItems, Except.map, nonneg, toItem_goRecipient]
  | l1Message tx =>
    simp [goValue, toItem, Anduschain.toItem, toItems, Except.map, nonneg, toItem_goRecipient,
      goAddress]

/-- `EncodeRLP`, and `MarshalBinary` as well. -/
def encodeRLP : Except EncodeError Bytes := encodeToBytes inner.goValue

theorem encodeRLP_eq : inner.encodeRLP = .ok (encode inner.toItem) := by
  rw [encodeRLP, encodeToBytes_eq, inner.toItem_goValue]
  rfl

def hash (crypto : Crypto) (inner : TxData) : Hash := rlpHash crypto inner.goValue

@[simp] theorem unsigned_setSignatureValues (v r s : ℕ) (inner : TxData) :
    (inner.setSignatureValues v r s).unsigned = inner.unsigned := by
  cases inner <;> rfl

theorem unsigned_copy :
    inner.copy.unsigned = inner.unsigned ↔ ∀ tx, inner = .legacy tx → tx.txType = generalTx := by
  cases inner with
  | legacy tx => simp [copy, unsigned, eq_comm]
  | eth tx => simp [copy]
  | l1Message tx => simp [copy]

end TxData

inductive Signer where
  | frontier
  | homestead
  | eip155 (chainId : ℕ)
  deriving DecidableEq

namespace Signer

/-- Only the EIP155 signer has a chain id; the others return nil. -/
def chainID : Signer → Option ℕ
  | .eip155 chainId => some chainId
  | _ => none

def equal (signer other : Signer) : Bool := signer = other

/-- The digest is over the unsigned fields, with the type unless it is that of Ethereum. -/
def hash (crypto : Crypto) (signer : Signer) (u : Unsigned) : Hash :=
  rlpHash crypto (.list (
    (if u.txType = ethTx then [] else [.uint u.txType]) ++
    [.uint u.nonce, .bigInt u.gasPrice, .uint u.gas, goRecipient u.recipient, .bigInt u.value,
      .bytes u.data] ++
    (match signer with
      | .eip155 chainId => [.bigInt chainId, .uint 0, .uint 0]
      | _ => [])))

/-- The values `r`, `s` and `v` of a signature; `none` is the panic at a wrong size. -/
def signatureValues (signer : Signer) (sig : Bytes) : Option (ℕ × ℕ × ℕ) :=
  if sig.length = 65 then
    let r := beNat (sig.take 32)
    let s := beNat ((sig.drop 32).take 32)
    let id := sig.getD 64 0
    match signer with
    | .eip155 chainId =>
      some (r, s, if chainId = 0 then (id + 27).toNat else (id + 35).toNat + 2 * chainId)
    | _ => some (r, s, (id + 27).toNat)
  else none

end Signer

def secp256k1N : ℕ := 0xfffffffffffffffffffffffffffffffebaaedce6af48a03bbfd25e8cd0364141

def secp256k1halfN : ℕ := secp256k1N / 2

def validateSignatureValues (v : UInt8) (r s : ℕ) (homestead : Bool) : Bool :=
  if r < 1 ∨ s < 1 then false
  else if homestead && secp256k1halfN < s then false
  else r < secp256k1N && s < secp256k1N && (v == 0 || v == 1)

/-- Signing and recovery of public keys in the uncompressed form. -/
structure Ecdsa where
  Key : Type
  publicKey : Key → Bytes
  sign : Key → Hash → Except String Bytes
  ecrecover : Hash → Bytes → Except String Bytes

def pubkeyToAddress (crypto : Crypto) (pub : Bytes) : Address :=
  (crypto.keccak (pub.drop 1)).setWidth 160

section Recovery
variable (crypto : Crypto) (ecdsa : Ecdsa)

def errInvalidSig : String := "invalid transaction v, r, s values"

def errInvalidChainId : String := "invalid chain id for signer"

def addressOf : Except String Bytes → Except String Address
  | .ok pub =>
    if pub.head? = some 4 then .ok (pubkeyToAddress crypto pub) else .error "invalid public key"
  | .error err => .error err

def recoverPlain (sighash : Hash) (r s : ℕ) (vb : ℤ) (homestead : Bool) : Except String Address :=
  if 2 ^ 8 ≤ vb.natAbs then .error errInvalidSig
  else
    let v := (UInt64.ofNat vb.natAbs - 27).toUInt8
    if validateSignatureValues v r s homestead then
      addressOf crypto (ecdsa.ecrecover sighash (beFixed 32 r ++ beFixed 32 s ++ [v]))
    else .error errInvalidSig

namespace Signer

/-- A signature without a chain id is taken for one under the Homestead rules. -/
def sender (signer : Signer) (inner : TxData) : Except String Address :=
  let (v, r, s) := inner.rawSignatureValues
  match signer with
  | .frontier => recoverPlain crypto ecdsa (frontier.hash crypto inner.unsigned) r s v false
  | .homestead => recoverPlain crypto ecdsa (homestead.hash crypto inner.unsigned) r s v true
  | .eip155 chainId =>
    if !isProtectedV v then
      recoverPlain crypto ecdsa (homestead.hash crypto inner.unsigned) r s v true
    else if inner.chainID ≠ chainId then .error errInvalidChainId
    else
      recoverPlain crypto ecdsa ((eip155 chainId).hash crypto inner.unsigned) r s
        (v - 2 * chainId - 8) true

end Signer
end Recovery

structure SigCache where
  signer : Signer
  addr : Address

/-- A reference to the inner data, and what the atomic caches hold. -/
structure Transaction where
  data : ℕ
  cachedHash : Option Hash
  cachedFrom : Option SigCache

structure Heap where
  cells : ℕ → TxData
  next : ℕ

namespace Heap

def alloc (heap : Heap) (inner : TxData) : Transaction × Heap :=
  (⟨heap.next, none, none⟩, ⟨Function.update heap.cells heap.next inner, heap.next + 1⟩)

def write (heap : Heap) (ref : ℕ) (inner : TxData) : Heap :=
  { heap with cells := Function.update heap.cells ref inner }

@[simp] theorem alloc_data (heap : Heap) (inner : TxData) :
    (heap.alloc inner).2.cells (heap.alloc inner).1.data = inner := by
  simp [alloc]

@[simp] theorem write_self (heap : Heap) (ref : ℕ) (inner : TxData) :
    (heap.write ref inner).cells ref = inner := by
  simp [write]

end Heap

section Methods
variable (crypto : Crypto) (ecdsa : Ecdsa)

def newTx (heap : Heap) (inner : TxData) : Transaction × Heap := heap.alloc inner.copy

namespace Transaction

variable (heap : Heap) (tx : Transaction)

def inner : TxData := heap.cells tx.data

/-- `Type`: what is no legacy transaction counts as one of Ethereum. -/
def type : UInt64 :=
  match tx.inner heap with
  | .legacy tx => tx.txType
  | _ => ethTx

def hash : Hash :=
  tx.cachedHash.getD ((tx.inner heap).hash crypto)

/-- A cached sender counts only under an equal signer that has a chain id. -/
def sender (signer : Signer) : Except String Address :=
  match tx.cachedFrom.filter fun cache => cache.signer.chainID.isSome && cache.signer.equal signer with
  | some cache => .ok cache.addr
  | none => signer.sender crypto ecdsa (tx.inner heap)

/-- The copy refers to the same inner data, into which the signature is written. -/
def withSignature (signer : Signer) (sig : Bytes) : Option (Transaction × Heap) :=
  (signer.signatureValues sig).map fun (r, s, v) =>
    (⟨tx.data, none, none⟩, heap.write tx.data ((tx.inner heap).setSignatureValues v r s))

end Transaction

/-- `none` is a panic. -/
def signTx (heap : Heap) (tx : Transaction) (signer : Signer) (key : ecdsa.Key) :
    Option (Except String (Transaction × Heap)) :=
  match ecdsa.sign key (signer.hash crypto (tx.inner heap).unsigned) with
  | .error err => some (.error err)
  | .ok sig => (tx.withSignature heap signer sig).map .ok

def signNewTx (heap : Heap) (key : ecdsa.Key) (signer : Signer) (txdata : TxData) :
    Option (Except String (Transaction × Heap)) :=
  let (tx, heap) := newTx heap txdata
  signTx crypto ecdsa heap tx signer key

end Methods

end Anduschain.Types
