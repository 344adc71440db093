import Anduschain.BlockImport

/-! Header verification of the proof-of-authority engines (consensus/clique, consensus/layer2
and consensus/sse). They share all checks but those of the difficulty and of recent signers;
the snapshot of authorized signers is a parameter. -/
namespace Anduschain
open ByteOrder CheckedSteps

def extraVanity : ℕ := 32

def extraSeal : ℕ := 65

def addressLength : ℕ := 20

def nonceAuthVote : UInt64 := 0xffffffffffffffff

def nonceDropVote : UInt64 := 0

def diffInTurn : ℕ := 2

def diffNoTurn : ℕ := 1

inductive PoaError where
  | unknownBlock
  | futureBlock
  | unknownAncestor
  | invalidCheckpointBeneficiary
  | invalidVote
  | invalidCheckpointVote
  | missingVanity
  | missingSignature
  | extraSigners
  | invalidCheckpointSigners
  | mismatchingCheckpointSigners
  | invalidDifficulty
  | wrongDifficulty
  | invalidTimestamp
  | invalidVotingChain
  | invalidGasLimit (got : ℕ)
  | invalidGasUsed (got gasLimit : ℕ)
  | forkHash (e : VerifyError)
  | snapshot (msg : String)
  | ecrecover (msg : String)
  | unauthorizedSigner
  | recentlySigned
  deriving DecidableEq

structure Snapshot where
  signers : List Address
  recents : List (UInt64 × Address)

/-- What sets the engines apart; `vrfVerify` takes a key, a message and a proof, `xor` gives four
bytes of its two arguments. -/
inductive PoaRule where
  | clique
  | layer2 (vrfVerify : Bytes → Bytes → Bytes → Option Bytes)
  | sse (xor : Bytes → Bytes → Bytes)

/-- An engine: its configuration, the signers at each block, and the signers it has recovered, by
header hash. -/
structure Poa where
  rule : PoaRule
  epoch : UInt64
  period : UInt64
  fakeDiff : Bool
  now : ℤ
  snapshot : UInt64 → Hash → List Header → Except String Snapshot
  sigcache : Hash → Option Address

/-- What the seal signs: every field but the OTPRN, the fairnode's signature and the seal. -/
def Header.sigHeader (h : Header) : GoValue :=
  .list [goHash h.parentHash, goHash h.voteHash, goAddress h.coinbase, goHash h.root, goHash h.txHash,
    goHash h.receiptHash, .array (beFixed 256 h.bloom.toNat), .bigInt h.difficulty, .bigInt h.number,
    .uint h.gasLimit, .uint h.gasUsed, .bigInt h.time,
    .bytes (h.extra.take (h.extra.length - extraSeal)), .array (beFixed 8 h.nonce.toNat)]

def sealHash (crypto : Crypto) (header : Header) : Hash := rlpHash crypto header.sigHeader

def Snapshot.inturn (snap : Snapshot) (number : UInt64) (signer : Address) : Bool :=
  number % UInt64.ofNat snap.signers.length == UInt64.ofNat (snap.signers.idxOf signer)

def Snapshot.validVote (snap : Snapshot) (address : Address) (authorize : Bool) : Bool :=
  (address ∈ snap.signers && !authorize) || (address ∉ snap.signers && authorize)

def calcDifficulty (xor : Bytes → Bytes → Bytes) (num : ℕ) (signer : Address) : ℕ :=
  beNat (xor (beBytes num) (addressBytes signer))

section Verification
variable (crypto : Crypto) (c : Poa)

/-- `VerifyDifficulty`: the OTPRN field is the miner's key, the fairnode's signature the proof of
the draw. -/
def verifyDifficulty (vrfVerify : Bytes → Bytes → Bytes → Option Bytes) (header : Header) :
    Except PoaError Unit := do
  let addr ← orReject (crypto.decompressPubkey header.otprn) .invalidDifficulty
  rejectIf (addr ≠ header.coinbase) .invalidDifficulty
  let beta ← orReject (vrfVerify header.otprn (itoa (header.number % 2 ^ 64)) header.fairnodeSign)
    .invalidDifficulty
  rejectIf (header.difficulty ≠ beNat (beta.take 4)) .invalidDifficulty

/-- A cached signer is not recovered again. -/
def Poa.ecrecover (header : Header) : Except PoaError Address :=
  match c.sigcache (header.hash crypto) with
  | some signer => .ok signer
  | none => do
      rejectIf (header.extra.length < extraSeal) .missingSignature
      (crypto.sigToAddr (sealHash crypto header)
        (header.extra.drop (header.extra.length - extraSeal))).mapError .ecrecover

namespace Poa

def checkDifficulty (header : Header) : Except PoaError Unit :=
  if UInt64.ofNat header.number = 0 then .ok ()
  else
    match c.rule with
    | .clique =>
      rejectIf (header.difficulty ≠ diffInTurn ∧ header.difficulty ≠ diffNoTurn) .invalidDifficulty
    | .layer2 vrfVerify => verifyDifficulty crypto vrfVerify header
    | .sse xor =>
      rejectIf (header.difficulty ≠ calcDifficulty xor header.number header.coinbase) .invalidDifficulty

def checkTurn (snap : Snapshot) (header : Header) (signer : Address) : Except PoaError Unit := do
  let number := UInt64.ofNat header.number
  match c.rule with
  | .clique =>
    let limit := UInt64.ofNat (snap.signers.length / 2 + 1)
    rejectIf (snap.recents.any fun recent => recent.2 == signer && number - limit < recent.1)
      .recentlySigned
    rejectIf (!c.fakeDiff &&
      header.difficulty != if snap.inturn number signer then diffInTurn else diffNoTurn)
      .wrongDifficulty
  | .layer2 vrfVerify => if c.fakeDiff then .ok () else verifyDifficulty crypto vrfVerify header
  | .sse xor =>
    let limit := UInt64.ofNat (snap.signers.length / 2 + 1)
    rejectIf (snap.recents.any fun recent => recent.2 == signer && number - limit < recent.1)
      .recentlySigned
    rejectIf (!c.fakeDiff && header.difficulty != calcDifficulty xor header.number header.coinbase)
      .wrongDifficulty

def verifySeal (snap : Snapshot) (header : Header) : Except PoaError Unit := do
  rejectIf (UInt64.ofNat header.number = 0) .unknownBlock
  let signer ← c.ecrecover crypto header
  rejectIf (signer ∉ snap.signers) .unauthorizedSigner
  c.checkTurn crypto snap header signer

def verifyCascadingFields (chain : ChainReader) (header : Header) (parents : List Header) :
    Except PoaError Unit :=
  let number := UInt64.ofNat header.number
  if number = 0 then .ok ()
  else do
    let parent ← orReject (if parents.isEmpty then chain.getHeader header.parentHash (number - 1).toNat
      else parents.getLast?) .unknownAncestor
    rejectIf (UInt64.ofNat parent.number ≠ number - 1 ∨ parent.hash crypto ≠ header.parentHash)
      .unknownAncestor
    rejectIf (UInt64.ofNat header.time < UInt64.ofNat parent.time + c.period) .invalidTimestamp
    rejectIf (header.gasLimit < header.gasUsed)
      (.invalidGasUsed header.gasUsed.toNat header.gasLimit.toNat)
    let snap ← (c.snapshot (number - 1) header.parentHash parents).mapError .snapshot
    rejectIf (number % c.epoch = 0 ∧
      (header.extra.take (header.extra.length - extraSeal)).drop extraVanity ≠
        snap.signers.flatMap addressBytes) .mismatchingCheckpointSigners
    c.verifySeal crypto snap header

def verifyHeader (chain : ChainReader) (header : Header) (parents : List Header) :
    Except PoaError Unit := do
  let number := UInt64.ofNat header.number
  let checkpoint := number % c.epoch = 0
  rejectIf (c.now < asInt64 header.time) .futureBlock
  rejectIf (checkpoint ∧ header.coinbase ≠ 0) .invalidCheckpointBeneficiary
  rejectIf (header.nonce ≠ nonceAuthVote ∧ header.nonce ≠ nonceDropVote) .invalidVote
  rejectIf (checkpoint ∧ header.nonce ≠ nonceDropVote) .invalidCheckpointVote
  rejectIf (header.extra.length < extraVanity) .missingVanity
  rejectIf (header.extra.length < extraVanity + extraSeal) .missingSignature
  let signersBytes := header.extra.length - extraVanity - extraSeal
  rejectIf (¬ checkpoint ∧ signersBytes ≠ 0) .extraSigners
  rejectIf (checkpoint ∧ signersBytes % addressLength ≠ 0) .invalidCheckpointSigners
  c.checkDifficulty crypto header
  rejectIf (maxGasLimit < header.gasLimit.toNat) (.invalidGasLimit header.gasLimit.toNat)
  (verifyForkHashes crypto chain.config header).mapError .forkHash
  c.verifyCascadingFields crypto chain header parents

end Poa

end Verification

theorem Poa.verifyHeader_seal {crypto : Crypto} {c : Poa} {chain : ChainReader} {header : Header}
    {parents : List Header} (verified : c.verifyHeader crypto chain header parents = .ok ())
    (numbered : UInt64.ofNat header.number ≠ 0)
    (uncached : c.sigcache (header.hash crypto) = none) :
    ∃ snap signer, c.snapshot (UInt64.ofNat header.number - 1) header.parentHash parents = .ok snap ∧
      signer ∈ snap.signers ∧ crypto.sigToAddr (sealHash crypto header)
        (header.extra.drop (header.extra.length - extraSeal)) = .ok signer := by
  simp only [verifyHeader, verifyCascadingFields, verifySeal, numbered, if_false, bind_eq_ok,
    exists_unit, orReject_eq_ok, mapError_eq_ok, rejectIf_eq_ok] at verified
  obtain ⟨-, -, -, -, -, -, -, -, -, -, -, parent, -, -, -, -, snap, found, -, -, signer, recovered,
    authorized, -⟩ := verified
  simp only [ecrecover, uncached, bind_eq_ok, exists_unit, mapError_eq_ok] at recovered
  exact ⟨snap, signer, found, not_not.mp authorized, recovered.2⟩

def samplePoa (rule : PoaRule) : Poa where
  rule
  epoch := 30000
  period := 0
  fakeDiff := false
  now := 0
  snapshot _ _ _ := .ok { signers := [0xfa], recents := [] }
  sigcache _ := none

end Anduschain
