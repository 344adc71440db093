import Anduschain.HexText
import Anduschain.TxWire

/-! The JSON and the binary form of a transaction (core/types). A JSON object is the list of
its members, each a text or null; both decoders may settle on another layout of the inner
data than the one that was encoded. -/
namespace Anduschain.Types
open ByteOrder RlpItem RlpStream HexText

inductive JsonValue where
  | null
  | str (text : Bytes)
  deriving DecidableEq

abbrev JsonObject := List (String × JsonValue)

inductive JsonError where
  | nonString (typ : String)
  | typeError (value : HexError) (typ : String)
  | missing (name : String)
  | invalidSig
  deriving DecidableEq

structure TxJSON where
  type : UInt64
  accountNonce : UInt64
  price : Option ℕ
  gasLimit : UInt64
  recipient : Option Address
  amount : Option ℕ
  payload : Option Bytes
  v : Option ℕ
  r : Option ℕ
  s : Option ℕ
  hash : Option Hash

def goPointer {α : Type} (text : α → Bytes) : Option α → JsonValue
  | some a => .str (text a)
  | none => .null

namespace TxJSON

def marshal (enc : TxJSON) : JsonObject :=
  [("type", .str (encodeNumber enc.type.toNat)),
    ("nonce", .str (encodeNumber enc.accountNonce.toNat)),
    ("gasPrice", goPointer encodeNumber enc.price),
    ("gas", .str (encodeNumber enc.gasLimit.toNat)),
    ("to", goPointer (fun addr => encodeBytes (addressBytes addr)) enc.recipient),
    ("value", goPointer encodeNumber enc.amount),
    ("input", .str (encodeBytes (enc.payload.getD []))),
    ("v", goPointer encodeNumber enc.v),
    ("r", goPointer encodeNumber enc.r),
    ("s", goPointer encodeNumber enc.s),
    ("hash", goPointer (fun hash => encodeBytes (hashBytes hash)) enc.hash)]

def member (object : JsonObject) (name : String) : Option JsonValue :=
  (object.reverse.find? (·.1 = name)).map (·.2)

/-- A field whose type takes a text; one that the object lacks keeps its zero value. -/
def value {α : Type} (typ : String) (zero : α) (unmarshal : Bytes → Except HexError α)
    (object : JsonObject) (name : String) : Except JsonError α :=
  match member object name with
  | none => .ok zero
  | some .null => .error (.nonString typ)
  | some (.str text) => (unmarshal text).mapError (.typeError · typ)

/-- A pointer is nil where the object has null or nothing. -/
def pointer {α : Type} (typ : String) (unmarshal : Bytes → Except HexError α) (object : JsonObject)
    (name : String) : Except JsonError (Option α) :=
  match member object name with
  | none => .ok none
  | some .null => .ok none
  | some (.str text) => ((unmarshal text).map some).mapError (.typeError · typ)

def unmarshal (object : JsonObject) : Except JsonError TxJSON := do
  return {
    type := ← value "hexutil.Uint64" 0 unmarshalUint64 object "type"
    accountNonce := ← value "hexutil.Uint64" 0 unmarshalUint64 object "nonce"
    price := ← pointer "*hexutil.Big" unmarshalBig object "gasPrice"
    gasLimit := ← value "hexutil.Uint64" 0 unmarshalUint64 object "gas"
    recipient := ← pointer "common.Address"
      (fun text => (unmarshalFixed 20 text).map bytesToAddress) object "to"
    amount := ← pointer "*hexutil.Big" unmarshalBig object "value"
    payload := ← value "hexutil.Bytes" none (fun text => (unmarshalBytes text).map some) object
      "input"
    v := ← pointer "*hexutil.Big" unmarshalBig object "v"
    r := ← pointer "*hexutil.Big" unmarshalBig object "r"
    s := ← pointer "*hexutil.Big" unmarshalBig object "s"
    hash := ← pointer "common.Hash" (fun text => (unmarshalFixed 32 text).map bytesToHash) object
      "hash" }

end TxJSON

def txJSON (crypto : Crypto) (heap : Heap) (tx : Transaction) : TxJSON :=
  let t := tx.inner heap
  let (v, r, s) := t.rawSignatureValues
  { type := if tx.type heap = ethTx then ethTx else t.txType
    accountNonce := t.unsigned.nonce
    price := some t.unsigned.gasPrice
    gasLimit := t.unsigned.gas
    recipient := t.unsigned.recipient
    amount := some t.unsigned.value
    payload := some t.unsigned.data
    v := some v
    r := some r
    s := some s
    hash := some (tx.hash crypto heap) }

def marshalJSON (crypto : Crypto) (heap : Heap) (tx : Transaction) : JsonObject :=
  (txJSON crypto heap tx).marshal

def required {α : Type} (name : String) : Option α → Except JsonError α
  | some a => .ok a
  | none => .error (.missing name)

def recoveryId (v : ℕ) : UInt8 :=
  if isProtectedV v then
    (UInt64.ofNat v - 35 - 2 * UInt64.ofNat (deriveChainId v)).toUInt8
  else (UInt64.ofNat v - 27).toUInt8

/-- The fields that both branches of `UnmarshalJSON` ask for in the same order. -/
def TxJSON.checked (dec : TxJSON) : Except JsonError TxEthdata := do
  let price ← required "gasPrice" dec.price
  let amount ← required "value" dec.amount
  let payload ← required "input" dec.payload
  let v ← required "v" dec.v
  let r ← required "r" dec.r
  let s ← required "s" dec.s
  if validateSignatureValues (recoveryId v) r s false then
    return ⟨dec.accountNonce, price, dec.gasLimit, dec.recipient, amount, payload, v, r, s⟩
  else .error .invalidSig

/-- The type of Ethereum leads to `txEthdata`, every other one to a legacy transaction. -/
def unmarshalJSON (object : JsonObject) : Except JsonError TxData := do
  let dec ← TxJSON.unmarshal object
  let tx ← dec.checked
  return if dec.type = ethTx then .eth tx else .legacy (tx.withType dec.type)

namespace TxJSON

theorem member_marshal (enc : TxJSON) :
    member enc.marshal "type" = some (.str (encodeNumber enc.type.toNat)) ∧
    member enc.marshal "nonce" = some (.str (encodeNumber enc.accountNonce.toNat)) ∧
    member enc.marshal "gasPrice" = some (goPointer encodeNumber enc.price) ∧
    member enc.marshal "gas" = some (.str (encodeNumber enc.gasLimit.toNat)) ∧
    member enc.marshal "to" =
      some (goPointer (fun addr => encodeBytes (addressBytes addr)) enc.recipient) ∧
    member enc.marshal "value" = some (goPointer encodeNumber enc.amount) ∧
    member enc.marshal "input" = some (.str (encodeBytes (enc.payload.getD []))) ∧
    member enc.marshal "v" = some (goPointer encodeNumber enc.v) ∧
    member enc.marshal "r" = some (goPointer encodeNumber enc.r) ∧
    member enc.marshal "s" = some (goPointer encodeNumber enc.s) ∧
    member enc.marshal "hash" =
      some (goPointer (fun hash => encodeBytes (hashBytes hash)) enc.hash) := by
  simp [member, marshal]

/-- The decoder of quantities takes 256 bits. -/
def Fits (n : Option ℕ) : Prop := ∀ m ∈ n, m < 2 ^ 256

variable {object : JsonObject} {name : String}

theorem pointer_big {n : Option ℕ}
    (written : member object name = some (goPointer encodeNumber n)) :
    (Fits n ∧ pointer "*hexutil.Big" unmarshalBig object name = .ok n) ∨
      ¬ Fits n ∧ ∃ e, pointer "*hexutil.Big" unmarshalBig object name = .error e := by
  cases n with
  | none => exact .inl ⟨nofun, by rw [pointer, written]; rfl⟩
  | some n =>
    rw [pointer, written, goPointer]
    simp only [unmarshalBig_encodeNumber]
    by_cases small : n < 2 ^ 256
    · refine .inl ⟨fun m same => Option.some.inj same ▸ small, ?_⟩
      rw [if_pos small]
      rfl
    · refine .inr ⟨fun fits => small (fits n rfl), .typeError .big256Range "*hexutil.Big", ?_⟩
      rw [if_neg small]
      rfl

theorem value_uint64 {n : UInt64}
    (written : member object name = some (.str (encodeNumber n.toNat))) :
    value "hexutil.Uint64" 0 unmarshalUint64 object name = .ok n := by
  rw [value, written]
  simp only [unmarshalUint64_encodeNumber]
  rfl

theorem pointer_fixed {α : Type} (typ : String) {width : ℕ}
    {toBytes : α → Bytes} {ofBytes : Bytes → α} (size : ∀ a, (toBytes a).length = width)
    (inverse : ∀ a, ofBytes (toBytes a) = a) {a : Option α}
    (written : member object name = some (goPointer (fun a => encodeBytes (toBytes a)) a)) :
    pointer typ (fun text => (unmarshalFixed width text).map ofBytes) object name = .ok a := by
  cases a with
  | none =>
    rw [pointer, written]
    rfl
  | some a =>
    have read := unmarshalFixed_encodeBytes (toBytes a)
    rw [size] at read
    rw [pointer, written, goPointer]
    simp only [read, Except.map, inverse]
    rfl

theorem value_bytes {typ : String} {b : Bytes}
    (written : member object name = some (.str (encodeBytes b))) :
    value typ none (fun text => (unmarshalBytes text).map some) object name = .ok (some b) := by
  rw [value, written]
  simp only [unmarshalBytes_encodeBytes]
  rfl

def Bounded (enc : TxJSON) : Prop :=
  Fits enc.price ∧ Fits enc.amount ∧ Fits enc.v ∧ Fits enc.r ∧ Fits enc.s

theorem unmarshal_marshal (enc dec : TxJSON) :
    unmarshal enc.marshal = .ok dec ↔
      enc.Bounded ∧ { enc with payload := some (enc.payload.getD []) } = dec := by
  obtain ⟨type, nonce, price, gas, recipient, amount, payload, v, r, s, hash⟩ := member_marshal enc
  have address := pointer_fixed "common.Address" (fun _ => beFixed_length _ _)
    bytesToAddress_addressBytes recipient
  have digest := pointer_fixed "common.Hash" (fun _ => beFixed_length _ _)
    bytesToHash_hashBytes hash
  unfold unmarshal Bounded
  rw [value_uint64 type, value_uint64 nonce, value_uint64 gas, value_bytes payload]
  rw [address, digest]
  rcases pointer_big price with ⟨p, price⟩ | ⟨p, e, price⟩
  · rcases pointer_big amount with ⟨a, amount⟩ | ⟨a, e, amount⟩
    · rcases pointer_big v with ⟨vFits, v⟩ | ⟨vFits, e, v⟩
      · rcases pointer_big r with ⟨rFits, r⟩ | ⟨rFits, e, r⟩
        · rcases pointer_big s with ⟨sFits, s⟩ | ⟨sFits, e, s⟩
          · simp [price, amount, v, r, s, p, a, vFits, rFits, sFits, bind, Except.bind, pure,
              Except.pure]
          · simp [price, amount, v, r, s, sFits, bind, Except.bind]
        · simp [price, amount, v, r, rFits, bind, Except.bind]
      · simp [price, amount, v, vFits, bind, Except.bind]
    · simp [price, amount, a, bind, Except.bind]
  · simp [price, p, bind, Except.bind]

end TxJSON

section Signed
variable {crypto : Crypto} {ecdsa : Ecdsa}

theorem recoverPlain_ok {digest : Hash} {r s : ℕ} {vb : ℤ} {homestead : Bool} {addr : Address}
    (found : recoverPlain crypto ecdsa digest r s vb homestead = .ok addr) :
    (vb.natAbs = 27 ∨ vb.natAbs = 28) ∧ 1 ≤ r ∧ r < secp256k1N ∧ 1 ≤ s ∧ s < secp256k1N := by
  unfold recoverPlain at found
  split at found
  · cases found
  · rename_i short
    simp only at found
    split at found
    · rename_i valid
      unfold validateSignatureValues at valid
      split at valid
      · cases valid
      · split at valid
        · cases valid
        · rename_i positive _
          simp only [Bool.and_eq_true, decide_eq_true_eq, Bool.or_eq_true, beq_iff_eq] at valid
          obtain ⟨⟨r_lt, s_lt⟩, id⟩ := valid
          refine ⟨?_, by omega, r_lt, by omega, s_lt⟩
          have each : ∀ n : Fin 256, (UInt64.ofNat n - 27).toUInt8 = 0 ∨
              (UInt64.ofNat n - 27).toUInt8 = 1 → n.val = 27 ∨ n.val = 28 := by
            decide +kernel
          exact each ⟨vb.natAbs, by omega⟩ id
    · cases found

theorem validate_of {v : UInt8} {r s : ℕ} (id : v = 0 ∨ v = 1) (r_pos : 1 ≤ r)
    (r_lt : r < secp256k1N) (s_pos : 1 ≤ s) (s_lt : s < secp256k1N) :
    validateSignatureValues v r s false = true := by
  rw [validateSignatureValues, if_neg (by omega), if_neg (by simp)]
  simp [r_lt, s_lt, id]

theorem offset_of_derived {v c : ℕ} (derived : deriveChainId v = c)
    (offset : ((v : ℤ) - 2 * c - 8).natAbs = 27 ∨ ((v : ℤ) - 2 * c - 8).natAbs = 28) :
    v = 35 + 2 * c ∨ v = 36 + 2 * c := by
  unfold deriveChainId at derived
  split at derived
  · rename_i fits
    split at derived
    · omega
    · have wrapped : (UInt64.ofNat v - 35).toNat = (2 ^ 64 - 35 + v) % 2 ^ 64 := by
        rw [UInt64.toNat_sub, UInt64.toNat_ofNat_of_lt' fits]
        rfl
      have half : ((UInt64.ofNat v - 35) / 2).toNat = (2 ^ 64 - 35 + v) % 2 ^ 64 / 2 := by
        rw [UInt64.toNat_div, wrapped]
        rfl
      omega
  · omega

theorem recoveryId_protected {v c : ℕ} (guarded : isProtectedV v) (derived : deriveChainId v = c)
    (offset : v = 35 + 2 * c ∨ v = 36 + 2 * c) : recoveryId v = 0 ∨ recoveryId v = 1 := by
  rw [recoveryId, if_pos guarded, derived]
  rcases offset with rfl | rfl
  · left
    have zero : UInt64.ofNat (35 + 2 * c) - 35 - 2 * UInt64.ofNat c = 0 := by
      rw [UInt64.ofNat_add, UInt64.ofNat_mul]
      grind
    rw [zero]
    rfl
  · right
    have one : UInt64.ofNat (36 + 2 * c) - 35 - 2 * UInt64.ofNat c = 1 := by
      rw [UInt64.ofNat_add, UInt64.ofNat_mul]
      grind
    rw [one]
    rfl

theorem signed_values {signer : Signer} {inner : TxData} {addr : Address}
    (found : signer.sender crypto ecdsa inner = .ok addr) :
    ∃ v r s, inner.rawSignatureValues = (v, r, s) ∧ 1 ≤ r ∧ r < secp256k1N ∧ 1 ≤ s ∧
      s < secp256k1N ∧ (recoveryId v = 0 ∨ recoveryId v = 1) := by
  rcases values : inner.rawSignatureValues with ⟨v, r, s⟩
  have plain {digest : Hash} {homestead : Bool}
      (found : recoverPlain crypto ecdsa digest r s v homestead = .ok addr) :
      1 ≤ r ∧ r < secp256k1N ∧ 1 ≤ s ∧ s < secp256k1N ∧ (recoveryId v = 0 ∨ recoveryId v = 1) := by
    obtain ⟨offset, r_pos, r_lt, s_pos, s_lt⟩ := recoverPlain_ok found
    rw [Int.natAbs_natCast] at offset
    refine ⟨r_pos, r_lt, s_pos, s_lt, ?_⟩
    rcases offset with rfl | rfl
    · exact .inl rfl
    · exact .inr rfl
  cases signer with
  | frontier =>
    simp only [Signer.sender, values] at found
    exact ⟨v, r, s, rfl, plain found⟩
  | homestead =>
    simp only [Signer.sender, values] at found
    exact ⟨v, r, s, rfl, plain found⟩
  | eip155 chainId =>
    simp only [Signer.sender, values] at found
    split at found
    · exact ⟨v, r, s, rfl, plain found⟩
    · rename_i guarded
      split at found
      · cases found
      · rename_i same
        obtain ⟨offset, r_pos, r_lt, s_pos, s_lt⟩ := recoverPlain_ok found
        refine ⟨v, r, s, rfl, r_pos, r_lt, s_pos, s_lt, ?_⟩
        have derived : deriveChainId v = chainId := by
          cases inner with
          | legacy tx =>
            cases values
            exact not_ne_iff.mp same
          | eth tx =>
            cases values
            exact not_ne_iff.mp same
          | l1Message tx =>
            cases values
            exact absurd r_pos (Nat.not_succ_le_zero 0)
        exact recoveryId_protected (by simpa using guarded) derived (offset_of_derived derived offset)

end Signed

def ethdata (tx : LegacyTx) : TxEthdata :=
  ⟨tx.accountNonce, tx.price, tx.gasLimit, tx.recipient, tx.amount, tx.payload, tx.v, tx.r, tx.s⟩

namespace TxData

def viaJSON : TxData → TxData
  | .legacy tx => if tx.txType = ethTx then .eth (ethdata tx) else .legacy tx
  | inner => inner

def Fits (inner : TxData) : Prop :=
  inner.unsigned.gasPrice < 2 ^ 256 ∧ inner.unsigned.value < 2 ^ 256 ∧
    inner.rawSignatureValues.1 < 2 ^ 256

end TxData

section Codecs
variable {crypto : Crypto} {ecdsa : Ecdsa} {heap : Heap} {tx : Transaction} {signer : Signer}
  {addr : Address}

theorem checked_of_valid (dec : TxJSON) {price amount v r s : ℕ} {payload : Bytes}
    (fields : dec.price = some price ∧ dec.amount = some amount ∧ dec.payload = some payload ∧
      dec.v = some v ∧ dec.r = some r ∧ dec.s = some s)
    (valid : validateSignatureValues (recoveryId v) r s false = true) :
    dec.checked =
      .ok ⟨dec.accountNonce, price, dec.gasLimit, dec.recipient, amount, payload, v, r, s⟩ := by
  obtain ⟨hprice, hamount, hpayload, hv, hr, hs⟩ := fields
  simp only [TxJSON.checked, hprice, hamount, hpayload, hv, hr, hs, required, bind, Except.bind,
    valid, if_true]
  rfl

theorem fits_some {n : ℕ} : TxJSON.Fits (some n) ↔ n < 2 ^ 256 := by
  simp [TxJSON.Fits]

theorem secp256k1N_lt : secp256k1N < 2 ^ 256 := by decide

theorem unmarshalJSON_marshalJSON
    (signed : signer.sender crypto ecdsa (tx.inner heap) = .ok addr) (inner : TxData) :
    unmarshalJSON (marshalJSON crypto heap tx) = .ok inner ↔
      (tx.inner heap).Fits ∧ (tx.inner heap).viaJSON = inner := by
  obtain ⟨v, r, s, values, r_pos, r_lt, s_pos, s_lt, id⟩ := signed_values signed
  have valid := validate_of id r_pos r_lt s_pos s_lt
  have small := secp256k1N_lt
  have bounded : (txJSON crypto heap tx).Bounded ↔ (tx.inner heap).Fits := by
    simp only [TxJSON.Bounded, txJSON, values, fits_some, TxData.Fits]
    omega
  have read := TxJSON.unmarshal_marshal (txJSON crypto heap tx)
  rw [bounded] at read
  by_cases fits : (tx.inner heap).Fits
  · have decoded := (read (txJSON crypto heap tx)).mpr ⟨fits, rfl⟩
    have checked := checked_of_valid (txJSON crypto heap tx)
      ⟨rfl, rfl, rfl, by rw [txJSON, values], by rw [txJSON, values], by rw [txJSON, values]⟩ valid
    rw [unmarshalJSON, marshalJSON, decoded]
    simp only [bind, Except.bind, checked, fits, true_and]
    cases known : tx.inner heap with
    | legacy legacy =>
      rw [known] at values
      cases values
      by_cases ethereum : legacy.txType = ethTx
      · simp [txJSON, Transaction.type, known, ethereum, TxData.viaJSON, TxData.unsigned, ethdata,
          pure, Except.pure]
      · simp [txJSON, Transaction.type, known, ethereum, TxData.viaJSON, TxData.unsigned,
          TxData.txType, TxEthdata.withType, pure, Except.pure]
    | eth eth =>
      rw [known] at values
      cases values
      simp [txJSON, Transaction.type, known, TxData.viaJSON, TxData.unsigned, pure, Except.pure]
    | l1Message message =>
      rw [known] at values
      cases values
      exact absurd r_pos (Nat.not_succ_le_zero 0)
  · have refused : ∃ e, TxJSON.unmarshal (txJSON crypto heap tx).marshal = .error e := by
      cases outcome : TxJSON.unmarshal (txJSON crypto heap tx).marshal with
      | error e => exact ⟨e, rfl⟩
      | ok dec => exact absurd ((read dec).mp outcome).1 fits
    obtain ⟨e, refused⟩ := refused
    simp only [unmarshalJSON, marshalJSON, refused, fits, false_and, iff_false]
    rintro ⟨⟩

variable (crypto ecdsa heap tx)

/-- A transaction over the inner data cannot be told from `tx` by hash, type or sender. -/
structure SameIdentity (inner : TxData) : Prop where
  hash : (heap.alloc inner).1.hash crypto (heap.alloc inner).2 = tx.hash crypto heap
  type : (heap.alloc inner).1.type (heap.alloc inner).2 = tx.type heap
  sender : ∀ signer, (heap.alloc inner).1.sender crypto ecdsa (heap.alloc inner).2 signer =
    tx.sender crypto ecdsa heap signer

def SurvivesJSON : Prop :=
  ∃ inner, unmarshalJSON (marshalJSON crypto heap tx) = .ok inner ∧
    SameIdentity crypto ecdsa heap tx inner

def SurvivesBinary : Prop :=
  ∃ b inner, (tx.inner heap).encodeRLP = .ok b ∧ unmarshalBinary b = .ok inner ∧
    SameIdentity crypto ecdsa heap tx inner

/-- The sender that was cached is still the one the inner data recovers to. -/
def FromCurrent : Prop :=
  ∀ cache ∈ tx.cachedFrom, cache.signer.chainID.isSome →
    cache.signer.sender crypto ecdsa (tx.inner heap) = .ok cache.addr

variable {crypto ecdsa heap tx}

theorem sender_current_iff :
    (∀ signer : Signer, signer.sender crypto ecdsa (tx.inner heap) =
        tx.sender crypto ecdsa heap signer) ↔ FromCurrent crypto ecdsa heap tx := by
  unfold FromCurrent Transaction.sender
  cases tx.cachedFrom with
  | none => simp
  | some cache =>
    constructor
    · rintro same _ ⟨⟩ guarded
      have := same cache.signer
      simpa [Option.filter, Signer.equal, guarded] using this
    · intro current signer
      by_cases hit : cache.signer.chainID.isSome ∧ cache.signer = signer
      · obtain ⟨guarded, rfl⟩ := hit
        simp [Option.filter, Signer.equal, guarded, current cache rfl guarded]
      · have miss : (cache.signer.chainID.isSome && cache.signer.equal signer) = false := by
          simpa [Signer.equal] using hit
        simp [Option.filter, miss]

theorem alloc_sender (inner : TxData) (signer : Signer) :
    (heap.alloc inner).1.sender crypto ecdsa (heap.alloc inner).2 signer =
      signer.sender crypto ecdsa inner := by
  rw [Transaction.sender, Transaction.inner, heap.alloc_data]
  rfl

theorem sameIdentity_self :
    SameIdentity crypto ecdsa heap tx (tx.inner heap) ↔
      HashCurrent crypto heap tx ∧ FromCurrent crypto ecdsa heap tx := by
  rw [← hash_current_iff, ← sender_current_iff]
  constructor
  · rintro ⟨hash, -, sender⟩
    exact ⟨(alloc_hash heap _).symm.trans hash,
      fun signer => (alloc_sender _ signer).symm.trans (sender signer)⟩
  · rintro ⟨hash, sender⟩
    refine ⟨(alloc_hash heap _).trans hash, ?_, fun signer => (alloc_sender _ signer).trans (sender signer)⟩
    rw [Transaction.type, Transaction.inner, heap.alloc_data]
    rfl

/-- A signed transaction keeps its identity through both codecs if it is a legacy one of another
type than that of Ethereum, within the range of the JSON numbers. -/
theorem codecs_keep_identity_iff (heap : Heap) (tx : Transaction) (signer : Signer) (addr : Address)
    (signed : signer.sender crypto ecdsa (tx.inner heap) = .ok addr)
    (sized : ∀ b, (tx.inner heap).encodeRLP = .ok b → b.length < 2 ^ 64)
    (noCollision : (tx.inner heap).viaJSON.hash crypto = (tx.inner heap).viaBinary.hash crypto →
      (tx.inner heap).viaJSON = (tx.inner heap).viaBinary) :
    SurvivesJSON crypto ecdsa heap tx ∧ SurvivesBinary crypto ecdsa heap tx ↔
      (∃ legacy, tx.inner heap = .legacy legacy ∧ legacy.txType ≠ ethTx) ∧ (tx.inner heap).Fits ∧
        HashCurrent crypto heap tx ∧ FromCurrent crypto ecdsa heap tx := by
  have written := (tx.inner heap).encodeRLP_eq
  have other : ∀ message, tx.inner heap ≠ .l1Message message := by
    intro message known
    obtain ⟨v, r, s, values, r_pos, -⟩ := signed_values signed
    rw [known] at values
    cases values
    exact absurd r_pos (Nat.not_succ_le_zero 0)
  have binary := unmarshalBinary_encode other (sized _ written)
  have viaJSON := unmarshalJSON_marshalJSON signed
  rw [← sameIdentity_self]
  constructor
  · rintro ⟨⟨inner, decoded, same⟩, ⟨b, inner', encoded, decoded', same'⟩⟩
    obtain ⟨fits, rfl⟩ := (viaJSON inner).mp decoded
    obtain rfl : encode (tx.inner heap).toItem = b := Except.ok.inj (written.symm.trans encoded)
    obtain rfl : (tx.inner heap).viaBinary = inner' := Except.ok.inj (binary.symm.trans decoded')
    have hashes : (tx.inner heap).viaJSON.hash crypto = (tx.inner heap).viaBinary.hash crypto := by
      rw [← alloc_hash heap, ← alloc_hash heap, same.hash, same'.hash]
    have agree := noCollision hashes
    cases known : tx.inner heap with
    | legacy legacy =>
      rw [known] at agree same'
      refine ⟨⟨legacy, rfl, ?_⟩, known ▸ fits, same'⟩
      intro ethereum
      simp [TxData.viaJSON, TxData.viaBinary, ethereum] at agree
    | eth eth =>
      rw [known] at agree
      cases agree
    | l1Message message => exact absurd known (other message)
  · rintro ⟨⟨legacy, known, plain⟩, fits, same⟩
    have json : (tx.inner heap).viaJSON = tx.inner heap := by
      rw [known, TxData.viaJSON, if_neg plain]
    have bin : (tx.inner heap).viaBinary = tx.inner heap := by rw [known]; rfl
    rw [bin] at binary
    exact ⟨⟨_, (viaJSON _).mpr ⟨fits, json⟩, same⟩, ⟨_, _, written, binary, same⟩⟩

def sampleSigned (txType : UInt64) : LegacyTx :=
  let sig := spell true
    (Signer.homestead.hash sampleCrypto (TxData.legacy (sampleTransfer txType)).unsigned)
  { sampleTransfer txType with
    v := (sig.getD 64 0).toNat + 27
    r := beNat (sig.take 32)
    s := beNat ((sig.drop 32).take 32) }

theorem sampleSigned_sender (txType : UInt64) :
    Signer.homestead.sender sampleCrypto sampleEcdsa (.legacy (sampleSigned txType)) =
      .ok (sampleEcdsa.address sampleCrypto true) :=
  (sender_signed sampleEcdsa_inverse .homestead (sampleTransfer txType) rfl
    (signatureValues_canonical (spell_canonical true _) .homestead)).mpr nofun

theorem sampleSigned_survives :
    SurvivesJSON sampleCrypto sampleEcdsa (sampleHeap (.legacy (sampleSigned joinTx))) sampleRef ∧
      SurvivesBinary sampleCrypto sampleEcdsa (sampleHeap (.legacy (sampleSigned joinTx)))
        sampleRef := by
  refine (codecs_keep_identity_iff (sampleHeap (.legacy (sampleSigned joinTx))) sampleRef .homestead
    _ (sampleSigned_sender joinTx) (sampleRef_fits (by decide +kernel)) (fun _ => rfl)).mpr ?_
  refine ⟨⟨_, rfl, by decide⟩, ⟨by decide +kernel, by decide +kernel, by decide +kernel⟩, nofun, nofun⟩

theorem sampleRef_hash (inner : TxData) :
    sampleRef.hash sampleCrypto (sampleHeap inner) = inner.hash sampleCrypto := rfl

/-- With the type of Ethereum the hash changes: from JSON for a legacy transaction, from the
binary form for the other layout. -/
theorem sampleSigned_loses_hash :
    ¬ SurvivesJSON sampleCrypto sampleEcdsa (sampleHeap (.legacy (sampleSigned ethTx))) sampleRef ∧
      ¬ SurvivesBinary sampleCrypto sampleEcdsa
        (sampleHeap (.eth (ethdata (sampleSigned ethTx)))) sampleRef := by
  have hashes : (TxData.eth (ethdata (sampleSigned ethTx))).hash sampleCrypto ≠
      (TxData.legacy (sampleSigned ethTx)).hash sampleCrypto := by decide +kernel
  constructor
  · rintro ⟨inner, decoded, same⟩
    have signed : Signer.homestead.sender sampleCrypto sampleEcdsa
        (sampleRef.inner (sampleHeap (.legacy (sampleSigned ethTx)))) = _ := sampleSigned_sender ethTx
    obtain ⟨-, rfl⟩ := (unmarshalJSON_marshalJSON signed inner).mp decoded
    have ethereum : (sampleSigned ethTx).txType = ethTx := rfl
    have changed : (sampleRef.inner (sampleHeap (.legacy (sampleSigned ethTx)))).viaJSON =
        .eth (ethdata (sampleSigned ethTx)) := by
      change TxData.viaJSON (.legacy (sampleSigned ethTx)) = _
      rw [TxData.viaJSON, if_pos ethereum]
    have kept := same.hash
    rw [alloc_hash, sampleRef_hash, changed] at kept
    exact hashes kept
  · rintro ⟨b, inner, encoded, decoded, same⟩
    rw [TxData.encodeRLP_eq] at encoded
    obtain rfl := Except.ok.inj encoded
    have read : unmarshalBinary (encode (TxData.eth (ethdata (sampleSigned ethTx))).toItem) = _ :=
      unmarshalBinary_encode nofun (by decide +kernel)
    have known : sampleRef.inner (sampleHeap (.eth (ethdata (sampleSigned ethTx)))) =
        .eth (ethdata (sampleSigned ethTx)) := rfl
    rw [known] at decoded
    obtain rfl := Except.ok.inj (read.symm.trans decoded)
    have kept := same.hash
    rw [alloc_hash, sampleRef_hash] at kept
    exact hashes kept.symm

end Codecs

end Anduschain.Types
