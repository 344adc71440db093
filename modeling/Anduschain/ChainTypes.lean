import Anduschain.RlpWriter
import Mathlib.Data.List.Nodup

/-! Headers, OTPRNs and votes with their RLP forms and hashes (core/types).
Keccak and signature recovery are parameters; every digest is taken over the
bytes the RLP writer really produces. -/
namespace Anduschain
open ByteOrder RlpItem

abbrev Hash := BitVec 256
abbrev Address := BitVec 160
abbrev Bloom := BitVec 2048

-- Named, so that the definitions of different modules refer to one proof.
instance Address.lawfulBEq : LawfulBEq Address := inferInstance

/-- `BytesToHash`: longer input is cropped from the left. -/
def bytesToHash (b : Bytes) : Hash := BitVec.ofNat 256 (beNat b)

def bytesToAddress (b : Bytes) : Address := BitVec.ofNat 160 (beNat b)

def hashBytes (h : Hash) : Bytes := beFixed 32 h.toNat

def addressBytes (a : Address) : Bytes := beFixed 20 a.toNat

theorem bytesToAddress_addressBytes (addr : Address) : bytesToAddress (addressBytes addr) = addr := by
  have bound : addr.toNat < 256 ^ 20 := addr.isLt
  rw [bytesToAddress, addressBytes, beNat_beFixed_of_lt bound, BitVec.ofNat_toNat,
    BitVec.setWidth_eq]

theorem bytesToHash_hashBytes (hash : Hash) : bytesToHash (hashBytes hash) = hash := by
  have bound : hash.toNat < 256 ^ 32 := hash.isLt
  rw [bytesToHash, hashBytes, beNat_beFixed_of_lt bound, BitVec.ofNat_toNat, BitVec.setWidth_eq]

theorem hashBytes_inj {a b : Hash} (same : hashBytes a = hashBytes b) : a = b := by
  have back := congrArg bytesToHash same
  rwa [bytesToHash_hashBytes, bytesToHash_hashBytes] at back

def hexDigit (c : UInt8) : Option Nat :=
  if 0x30 ≤ c ∧ c ≤ 0x39 then some (c.toNat - 0x30)
  else if 0x61 ≤ c ∧ c ≤ 0x66 then some (c.toNat - 0x61 + 10)
  else if 0x41 ≤ c ∧ c ≤ 0x46 then some (c.toNat - 0x41 + 10)
  else none

/-- `Hex2Bytes`: the error is dropped, so decoding stops at the first bad digit. -/
def hex2Bytes : Bytes → Bytes
  | hi :: lo :: rest =>
    match hexDigit hi, hexDigit lo with
    | some h, some l => UInt8.ofNat (16 * h + l) :: hex2Bytes rest
    | _, _ => []
  | _ => []

def fromHex (s : Bytes) : Bytes :=
  let s := match s with
    | 0x30 :: x :: rest => if x = 0x78 ∨ x = 0x58 then rest else s
    | _ => s
  hex2Bytes (if s.length % 2 = 1 then 0x30 :: s else s)

def hexToAddress (s : Bytes) : Address := bytesToAddress (fromHex s)

def hexToHash (s : Bytes) : Hash := bytesToHash (fromHex s)

structure Price where
  joinTxPrice : Bytes
  gasPrice : UInt64
  gasLimit : UInt64
  deriving DecidableEq

structure ChainConfig where
  minMiner : UInt64
  blockNumber : UInt64
  fnFee : Bytes
  mminer : UInt64
  epoch : UInt64
  nodeVersion : Bytes
  price : Price
  sign : Bytes
  deriving DecidableEq

structure Otprn where
  rand : BitVec 160
  fnAddr : Address
  cminer : UInt64
  data : ChainConfig
  sign : Bytes
  deriving DecidableEq

structure Header where
  parentHash : Hash
  coinbase : Address
  root : Hash
  txHash : Hash
  voteHash : Hash
  receiptHash : Hash
  bloom : Bloom
  difficulty : Nat
  number : Nat
  gasLimit : UInt64
  gasUsed : UInt64
  time : Nat
  extra : Bytes
  nonce : UInt64
  otprn : Bytes
  fairnodeSign : Bytes
  deriving DecidableEq

structure Voter where
  header : Bytes
  voter : Address
  voteSign : Bytes
  deriving DecidableEq

/-- Keccak and ECDSA; `sigToAddr` and `decompressPubkey` are the functions of those
names followed by `PubkeyToAddress`. -/
structure Crypto where
  keccak : Bytes → Hash
  sigToAddr : Hash → Bytes → Except String Address
  decompressPubkey : Bytes → Option Address

/-- A stand-in to evaluate with: a hash that mixes every byte, and signatures that spell out
digest and signer. -/
def sampleCrypto : Crypto where
  keccak b := BitVec.ofNat 256 (beNat b % (2 ^ 256 - 189))
  sigToAddr hash sign :=
    if sign.take 32 = hashBytes hash then .ok (bytesToAddress (sign.drop 32))
    else .error "invalid signature"
  decompressPubkey b := if b.length = 33 then some (bytesToAddress b) else none

def sampleSign (hash : Hash) (signer : Address) : Bytes := hashBytes hash ++ addressBytes signer

/-- What `rlpHash` feeds to Keccak: a failed encoding writes nothing, and its error is dropped. -/
def rlpFeed (v : GoValue) : Bytes :=
  match encodeToBytes v with
  | .ok b => b
  | .error _ => []

variable (crypto : Crypto)

def rlpHash (v : GoValue) : Hash := crypto.keccak (rlpFeed v)

theorem rlpFeed_of_toItem {v : GoValue} {x : Item} (h : toItem v = .ok x) :
    rlpFeed v = encode x := by
  rw [rlpFeed, encodeToBytes_eq, h]
  rfl

def goHash (h : Hash) : GoValue := .array (hashBytes h)

def goAddress (a : Address) : GoValue := .array (addressBytes a)

variable (c : ChainConfig) (h : Header) (p : Price) (o : Otprn)

def Price.goValue : GoValue :=
  .list [.str p.joinTxPrice, .uint p.gasPrice, .uint p.gasLimit]

def ChainConfig.goValue : GoValue :=
  .list [.uint c.minMiner, .uint c.blockNumber, .str c.fnFee, .uint c.mminer, .uint c.epoch,
    .str c.nodeVersion, c.price.goValue, .bytes c.sign]

def Otprn.goValue : GoValue :=
  .list [.array (beFixed 20 o.rand.toNat), goAddress o.fnAddr, .uint o.cminer, o.data.goValue,
    .bytes o.sign]

def Header.goValue : GoValue :=
  .list [goHash h.parentHash, goAddress h.coinbase, goHash h.root, goHash h.txHash,
    goHash h.voteHash, goHash h.receiptHash, .array (beFixed 256 h.bloom.toNat),
    .bigInt h.difficulty, .bigInt h.number, .uint h.gasLimit, .uint h.gasUsed, .bigInt h.time,
    .bytes h.extra, .array (beFixed 8 h.nonce.toNat), .bytes h.otprn, .bytes h.fairnodeSign]

/-- The fields `Header.Hash` commits to: all but the vote hash and the fairnode's signature. -/
def Header.hashed : GoValue :=
  .list [goHash h.parentHash, goAddress h.coinbase, goHash h.root, goHash h.txHash,
    goHash h.receiptHash, .array (beFixed 256 h.bloom.toNat), .bigInt h.difficulty,
    .bigInt h.number, .uint h.gasLimit, .uint h.gasUsed, .bigInt h.time, .bytes h.extra,
    .array (beFixed 8 h.nonce.toNat), .bytes h.otprn]

def Header.hash : Hash := rlpHash crypto h.hashed

def Otprn.hashOtprn : Hash :=
  rlpHash crypto (.list [.array (beFixed 20 o.rand.toNat), .uint o.cminer, o.data.goValue,
    goAddress o.fnAddr])

inductive OtprnError where
  | sigToPub (msg : String)
  | pubkeyToAddress (addr fairaddr : Address)
  deriving DecidableEq

/-- The recovered signer is compared with the address the OTPRN itself declares. -/
def Otprn.validateSignature : Except OtprnError Unit :=
  match crypto.sigToAddr (o.hashOtprn crypto) o.sign with
  | .error msg => .error (.sigToPub msg)
  | .ok addr => if addr = o.fnAddr then .ok () else .error (.pubkeyToAddress addr o.fnAddr)

theorem Otprn.validateSignature_ok {crypto : Crypto} {o : Otprn} :
    o.validateSignature crypto = .ok () ↔
      crypto.sigToAddr (o.hashOtprn crypto) o.sign = .ok o.fnAddr := by
  unfold validateSignature
  split
  · rename_i recovered
    simp [recovered]
  · rename_i addr recovered
    by_cases same : addr = o.fnAddr
    · simp [recovered, same]
    · simp [recovered, same]

/-! Typed readers over items: each accepts what the decoder of its Go kind accepts. -/

def readBytes : Item → Option Bytes
  | .str b => some b
  | .list _ => none

def readArray (width : Nat) : Item → Option Nat
  | .str b => if b.length = width then some (beNat b) else none
  | .list _ => none

def readBigInt : Item → Option Nat
  | .str b => if b.head? = some 0 then none else some (beNat b)
  | .list _ => none

def readUint64 (x : Item) : Option UInt64 := do
  let n ← readBigInt x
  if n < 2 ^ 64 then some (UInt64.ofNat n) else none

def readHash (x : Item) : Option Hash := (readArray 32 x).map (BitVec.ofNat 256)

def readAddress (x : Item) : Option Address := (readArray 20 x).map (BitVec.ofNat 160)

def Price.ofItem : Item → Option Price
  | .list [joinTxPrice, gasPrice, gasLimit] => do
      return {
        joinTxPrice := ← readBytes joinTxPrice
        gasPrice := ← readUint64 gasPrice
        gasLimit := ← readUint64 gasLimit }
  | _ => none

def ChainConfig.ofItem : Item → Option ChainConfig
  | .list [minMiner, blockNumber, fnFee, mminer, epoch, nodeVersion, price, sign] => do
      return {
        minMiner := ← readUint64 minMiner
        blockNumber := ← readUint64 blockNumber
        fnFee := ← readBytes fnFee
        mminer := ← readUint64 mminer
        epoch := ← readUint64 epoch
        nodeVersion := ← readBytes nodeVersion
        price := ← Price.ofItem price
        sign := ← readBytes sign }
  | _ => none

def Otprn.ofItem : Item → Option Otprn
  | .list [rand, fnAddr, cminer, data, sign] => do
      return {
        rand := ← readAddress rand
        fnAddr := ← readAddress fnAddr
        cminer := ← readUint64 cminer
        data := ← ChainConfig.ofItem data
        sign := ← readBytes sign }
  | _ => none

def Header.ofItem : Item → Option Header
  | .list [parentHash, coinbase, root, txHash, voteHash, receiptHash, bloom, difficulty, number,
      gasLimit, gasUsed, time, extra, nonce, otprn, fairnodeSign] => do
      return {
        parentHash := ← readHash parentHash
        coinbase := ← readAddress coinbase
        root := ← readHash root
        txHash := ← readHash txHash
        voteHash := ← readHash voteHash
        receiptHash := ← readHash receiptHash
        bloom := ← (readArray 256 bloom).map (BitVec.ofNat 2048)
        difficulty := ← readBigInt difficulty
        number := ← readBigInt number
        gasLimit := ← readUint64 gasLimit
        gasUsed := ← readUint64 gasUsed
        time := ← readBigInt time
        extra := ← readBytes extra
        nonce := ← (readArray 8 nonce).map UInt64.ofNat
        otprn := ← readBytes otprn
        fairnodeSign := ← readBytes fairnodeSign }
  | _ => none

/-- `DecodeOtprn`; `none` stands for any error of the decoder. -/
def decodeOtprn (b : Bytes) : Option Otprn := (decode b).bind Otprn.ofItem

def decodeHeader (b : Bytes) : Option Header := (decode b).bind Header.ofItem

def Header.byte : Bytes := rlpFeed h.goValue

def Otprn.encodeOtprn : Bytes := rlpFeed o.goValue

@[simp] theorem readBytes_str (b : Bytes) : readBytes (.str b) = some b := rfl

theorem readArray_beFixed {width n : Nat} (h : n < 256 ^ width) :
    readArray width (.str (beFixed width n)) = some n := by
  simp only [readArray, beFixed_length, if_true, beNat_beFixed_of_lt h]

@[simp] theorem readBigInt_beBytes (n : Nat) : readBigInt (.str (beBytes n)) = some n := by
  simp [readBigInt, beBytes_head_ne]

@[simp] theorem readUint64_beBytes (i : UInt64) : readUint64 (.str (beBytes i.toNat)) = some i := by
  simp [readUint64, i.toNat_lt]

theorem readArray_toNat {w : Nat} (x : BitVec (8 * w)) :
    readArray w (.str (beFixed w x.toNat)) = some x.toNat := by
  apply readArray_beFixed
  have bound : x.toNat < (2 ^ 8) ^ w := by
    rw [← pow_mul]
    exact x.isLt
  exact bound

@[simp] theorem readHash_beFixed (h : Hash) : readHash (.str (beFixed 32 h.toNat)) = some h := by
  rw [readHash, readArray_toNat (w := 32) h]
  simp

@[simp] theorem readAddress_beFixed (a : BitVec 160) :
    readAddress (.str (beFixed 20 a.toNat)) = some a := by
  rw [readAddress, readArray_toNat (w := 20) a]
  simp

@[simp] theorem readBloom_beFixed (b : Bloom) :
    (readArray 256 (.str (beFixed 256 b.toNat))).map (BitVec.ofNat 2048) = some b := by
  rw [readArray_toNat (w := 256) b, Option.map_some, BitVec.ofNat_toNat, BitVec.setWidth_eq]

@[simp] theorem readNonce_beFixed (n : UInt64) :
    (readArray 8 (.str (beFixed 8 n.toNat))).map UInt64.ofNat = some n := by
  rw [readArray_beFixed n.toNat_lt]
  simp

def Price.toItem : Item :=
  .list [.str p.joinTxPrice, .str (beBytes p.gasPrice.toNat), .str (beBytes p.gasLimit.toNat)]

def ChainConfig.toItem : Item :=
  .list [.str (beBytes c.minMiner.toNat), .str (beBytes c.blockNumber.toNat), .str c.fnFee,
    .str (beBytes c.mminer.toNat), .str (beBytes c.epoch.toNat), .str c.nodeVersion,
    c.price.toItem, .str c.sign]

def Otprn.toItem : Item :=
  .list [.str (beFixed 20 o.rand.toNat), .str (addressBytes o.fnAddr),
    .str (beBytes o.cminer.toNat), o.data.toItem, .str o.sign]

def Header.toItem : Item :=
  .list [.str (hashBytes h.parentHash), .str (addressBytes h.coinbase), .str (hashBytes h.root),
    .str (hashBytes h.txHash), .str (hashBytes h.voteHash), .str (hashBytes h.receiptHash),
    .str (beFixed 256 h.bloom.toNat), .str (beBytes h.difficulty), .str (beBytes h.number),
    .str (beBytes h.gasLimit.toNat), .str (beBytes h.gasUsed.toNat), .str (beBytes h.time),
    .str h.extra, .str (beFixed 8 h.nonce.toNat), .str h.otprn, .str h.fairnodeSign]

def Header.hashedItem : Item :=
  .list [.str (hashBytes h.parentHash), .str (addressBytes h.coinbase), .str (hashBytes h.root),
    .str (hashBytes h.txHash), .str (hashBytes h.receiptHash), .str (beFixed 256 h.bloom.toNat),
    .str (beBytes h.difficulty), .str (beBytes h.number), .str (beBytes h.gasLimit.toNat),
    .str (beBytes h.gasUsed.toNat), .str (beBytes h.time), .str h.extra,
    .str (beFixed 8 h.nonce.toNat), .str h.otprn]

theorem Otprn.toItem_goValue : Anduschain.toItem o.goValue = .ok o.toItem := rfl

theorem Header.toItem_goValue : Anduschain.toItem h.goValue = .ok h.toItem := by
  have nonneg (n : Nat) : ¬ (n : Int) < 0 := by omega
  simp [goValue, toItem, Anduschain.toItem, toItems, Except.map, goHash, goAddress, nonneg]

theorem Header.toItem_hashed : Anduschain.toItem h.hashed = .ok h.hashedItem := by
  have nonneg (n : Nat) : ¬ (n : Int) < 0 := by omega
  simp [hashed, hashedItem, Anduschain.toItem, toItems, Except.map, goHash, goAddress, nonneg]

theorem Price.ofItem_toItem : Price.ofItem p.toItem = some p := by
  simp [toItem, ofItem]

theorem ChainConfig.ofItem_toItem : ChainConfig.ofItem c.toItem = some c := by
  simp [toItem, ofItem, Price.ofItem_toItem]

theorem Otprn.ofItem_toItem : Otprn.ofItem o.toItem = some o := by
  simp [toItem, ofItem, addressBytes, ChainConfig.ofItem_toItem]

theorem Header.ofItem_toItem : Header.ofItem h.toItem = some h := by
  simp [toItem, ofItem, hashBytes, addressBytes]

theorem decodeOtprn_encodeOtprn (fits : o.encodeOtprn.length < 2 ^ 64) :
    decodeOtprn o.encodeOtprn = some o := by
  have hfeed : o.encodeOtprn = encode o.toItem := rlpFeed_of_toItem o.toItem_goValue
  rw [hfeed] at fits ⊢
  rw [decodeOtprn, decode_encode _ fits, Option.bind_some, Otprn.ofItem_toItem]

def CollisionFree (headers : Set Header) : Prop :=
  ∀ h₁ ∈ headers, ∀ h₂ ∈ headers, h₁.hash crypto = h₂.hash crypto → h₁.hashed = h₂.hashed

theorem collisionFree_of_nodup {crypto : Crypto} {headers : List Header}
    (nodup : (headers.map (Header.hash crypto)).Nodup) :
    CollisionFree crypto {h | h ∈ headers} := by
  intro h₁ member₁ h₂ member₂ same
  rw [List.inj_on_of_nodup_map nodup member₁ member₂ same]

theorem beFixed_inj {w m n : Nat} (hm : m < 256 ^ w) (hn : n < 256 ^ w)
    (h : beFixed w m = beFixed w n) : m = n := by
  rw [← beNat_beFixed_of_lt hm, ← beNat_beFixed_of_lt hn, h]

theorem Header.hashed_inj {h₁ h₂ : Header} (same : h₁.hashed = h₂.hashed) :
    h₁.number = h₂.number ∧ h₁.difficulty = h₂.difficulty ∧ h₁.nonce = h₂.nonce ∧
      h₁.coinbase = h₂.coinbase := by
  simp only [Header.hashed, goHash, goAddress, GoValue.list.injEq, List.cons.injEq, GoValue.array.injEq,
    GoValue.bigInt.injEq, Int.natCast_inj] at same
  obtain ⟨-, coinbase, -, -, -, -, difficulty, number, -, -, -, -, nonce, -⟩ := same
  refine ⟨number, difficulty, ?_, ?_⟩
  · exact UInt64.toNat_inj.mp (beFixed_inj h₁.nonce.toNat_lt h₂.nonce.toNat_lt nonce)
  · exact BitVec.toNat_inj.mp (beFixed_inj h₁.coinbase.isLt h₂.coinbase.isLt coinbase)

theorem Header.hashed_of_feed {h₁ h₂ : Header} (fits : (rlpFeed h₁.hashed).length < 2 ^ 64)
    (feed : rlpFeed h₁.hashed = rlpFeed h₂.hashed) : h₁.hashed = h₂.hashed := by
  simp only [rlpFeed_of_toItem h₁.toItem_hashed, rlpFeed_of_toItem h₂.toItem_hashed] at feed fits
  have items := encode_inj fits feed
  simp only [Header.hashedItem, Item.list.injEq, List.cons.injEq, Item.str.injEq] at items
  obtain ⟨parentHash, coinbase, root, txHash, receiptHash, bloom, difficulty, number, gasLimit,
    gasUsed, time, extra, nonce, otprn, -⟩ := items
  simp only [Header.hashed, goHash, goAddress, parentHash, coinbase, root, txHash, receiptHash, bloom,
    beBytes_inj difficulty, beBytes_inj number, UInt64.toNat_inj.mp (beBytes_inj gasLimit),
    UInt64.toNat_inj.mp (beBytes_inj gasUsed), beBytes_inj time, extra, nonce, otprn]

def sampleConfig : ChainConfig where
  minMiner := 1
  blockNumber := 0
  fnFee := [0x31, 0x30]
  mminer := 50
  epoch := 10
  nodeVersion := []
  price := { joinTxPrice := [0x31], gasPrice := 0, gasLimit := 0 }
  sign := []

def sampleOtprn (fnAddr : Address) : Otprn :=
  let o : Otprn := { rand := 7, fnAddr, cminer := 3, data := sampleConfig, sign := [] }
  { o with sign := sampleSign (o.hashOtprn sampleCrypto) fnAddr }

def sampleHeader : Header where
  parentHash := 0
  coinbase := 5
  root := 0
  txHash := 0
  voteHash := 0
  receiptHash := 0
  bloom := 0
  difficulty := 0
  number := 0
  gasLimit := 0
  gasUsed := 0
  time := 0
  extra := []
  nonce := 0
  otprn := []
  fairnodeSign := []

end Anduschain
