import Anduschain.CheckedSteps
import Anduschain.FairnodeVerify

/-! Header verification of the Deb engine (consensus/deb), and which address the
signatures of an accepted header are compared with. -/
namespace Anduschain
open ByteOrder CheckedSteps

structure NetConfig where
  eip150Block : Option Nat
  eip150Hash : Hash
  fairPubKey : Bytes

variable (crypto : Crypto)

/-- `DebConfig.FairAddr`: the zero address when the key does not decompress. -/
def NetConfig.fairAddr (config : NetConfig) : Address :=
  (crypto.decompressPubkey (hex2Bytes config.fairPubKey)).getD 0

structure ChainReader where
  config : NetConfig
  getHeader : Hash → Nat → Option Header

/-- The address of the key that `params.TestFairnodeKey` spells out. -/
def testFairnodeAddr : Address := 0x71562b71999873db5b286df957af199ec94617f7

def maximumExtraDataSize : Nat := 32

def maxGasLimit : Nat := 0x7fffffffffffffff

inductive VerifyError where
  | extraTooLong (len : Nat)
  | invalidGasLimit (got : Nat)
  | invalidGasUsed (got gasLimit : Nat)
  | futureBlock
  | decodeOtprn
  | otprnSignature (e : OtprnError)
  | invalidDifficulty
  | forkHash (got want : Hash)
  | unknownAncestor
  | unknownBlock
  | emptyFairnodeSign
  | fairnodeSign (e : SignError)
  deriving DecidableEq

def verifyForkHashes (config : NetConfig) (header : Header) : Except VerifyError Unit :=
  rejectIf (config.eip150Block = some header.number ∧ config.eip150Hash ≠ 0 ∧
    config.eip150Hash ≠ header.hash crypto) (.forkHash (header.hash crypto) config.eip150Hash)

def sealDigest (blockHash voteHash : Hash) : Hash :=
  rlpHash crypto (.list [goHash blockHash, goHash voteHash])

/-- `VerifyFairnodeSign`: the signer must be the address named by the header's own OTPRN. -/
def verifyFairnodeSign (header : Header) : Except VerifyError Unit := do
  let otp ← orReject (decodeOtprn header.otprn) .decodeOtprn
  let hash := sealDigest crypto (header.hash crypto) header.voteHash
  (validationSignHash crypto header.fairnodeSign hash otp.fnAddr).mapError .fairnodeSign

def verifySeal (header : Header) : Except VerifyError Unit := do
  rejectIf (header.number % 2 ^ 64 = 0) .unknownBlock
  rejectIf (header.fairnodeSign = []) .emptyFairnodeSign
  verifyFairnodeSign crypto header

def verifyCascadingFields (chain : ChainReader) (header : Header)
    (parents : List Header) (withSeal : Bool) : Except VerifyError Unit :=
  let number := header.number % 2 ^ 64
  if number = 0 then .ok ()
  else do
    let parent ← orReject
      (if parents.isEmpty then chain.getHeader header.parentHash (number - 1) else parents.getLast?)
      .unknownAncestor
    rejectIf (parent.number % 2 ^ 64 ≠ number - 1 ∨ parent.hash crypto ≠ header.parentHash)
      .unknownAncestor
    if withSeal then verifySeal crypto header else .ok ()

/-- `coinbase` is the engine's own address and `now` the current Unix time: only
foreign blocks get five seconds of tolerance. -/
def verifyHeader (coinbase : Address) (now : Nat) (chain : ChainReader)
    (header : Header) (parents : List Header) (withSeal : Bool) : Except VerifyError Unit := do
  rejectIf (maximumExtraDataSize < header.extra.length) (.extraTooLong header.extra.length)
  rejectIf (maxGasLimit < header.gasLimit.toNat) (.invalidGasLimit header.gasLimit.toNat)
  rejectIf (header.gasLimit < header.gasUsed)
    (.invalidGasUsed header.gasUsed.toNat header.gasLimit.toNat)
  rejectIf ((if coinbase ≠ header.coinbase then now + 5 else now) < header.time) .futureBlock
  let otprn ← orReject (decodeOtprn header.otprn) .decodeOtprn
  (otprn.validateSignature crypto).mapError .otprnSignature
  rejectIf (0 < header.number % 2 ^ 64 ∧ otprn.fnAddr ≠ testFairnodeAddr ∧
    (header.difficulty : Int) ≠ header.calcDifficulty crypto) .invalidDifficulty
  verifyForkHashes crypto chain.config header
  verifyCascadingFields crypto chain header parents withSeal

section Acceptance
variable {crypto : Crypto} {coinbase : Address} {now : Nat} {chain : ChainReader} {header : Header}
  {parents : List Header}

theorem verifyFairnodeSign_ok :
    verifyFairnodeSign crypto header = .ok () ↔ ∃ otprn, decodeOtprn header.otprn = some otprn ∧
      crypto.sigToAddr (sealDigest crypto (header.hash crypto) header.voteHash)
        header.fairnodeSign = .ok otprn.fnAddr := by
  simp [verifyFairnodeSign, validationSignHash_ok]

theorem verifyHeader_otprn {withSeal : Bool}
    (accepted : verifyHeader crypto coinbase now chain header parents withSeal = .ok ()) :
    ∃ otprn, decodeOtprn header.otprn = some otprn ∧
      crypto.sigToAddr (otprn.hashOtprn crypto) otprn.sign = .ok otprn.fnAddr := by
  simp only [verifyHeader, bind_eq_ok, exists_unit, orReject_eq_ok, mapError_eq_ok,
    Otprn.validateSignature_ok] at accepted
  obtain ⟨-, -, -, -, otprn, decoded, signed, -⟩ := accepted
  exact ⟨otprn, decoded, signed⟩

theorem verifyHeader_fairnodeSign
    (accepted : verifyHeader crypto coinbase now chain header parents true = .ok ())
    (numbered : header.number % 2 ^ 64 ≠ 0) : verifyFairnodeSign crypto header = .ok () := by
  simp only [verifyHeader, bind_eq_ok, exists_unit, orReject_eq_ok, verifyCascadingFields, numbered,
    if_false, if_true, verifySeal] at accepted
  obtain ⟨-, -, -, -, -, -, -, -, -, -, -, -, -, -, sealed⟩ := accepted
  exact sealed

end Acceptance

def SignedBy (addr : Address) (header : Header) : Prop :=
  crypto.sigToAddr (sealDigest crypto (header.hash crypto) header.voteHash)
      header.fairnodeSign = .ok addr ∧
    ∃ otprn, decodeOtprn header.otprn = some otprn ∧
      crypto.sigToAddr (otprn.hashOtprn crypto) otprn.sign = .ok addr

/-- An accepted header is signed by the configured fairnode exactly when its OTPRN
declares the configured address, and its number either keeps a nonzero low word
or the seal holds although the check is skipped. -/
theorem verifyHeader_signedBy_iff (crypto : Crypto) (coinbase : Address) (now : Nat)
    (chain : ChainReader) (header : Header) (parents : List Header)
    (accepted : verifyHeader crypto coinbase now chain header parents true = .ok ()) :
    SignedBy crypto (chain.config.fairAddr crypto) header ↔
      (decodeOtprn header.otprn).map Otprn.fnAddr = some (chain.config.fairAddr crypto) ∧
        (header.number % 2 ^ 64 ≠ 0 ∨ verifyFairnodeSign crypto header = .ok ()) := by
  obtain ⟨otprn, decoded, signed⟩ := verifyHeader_otprn accepted
  rw [SignedBy, decoded, Option.map_some, Option.some.injEq]
  constructor
  · rintro ⟨sealed, otprn', decoded', signed'⟩
    obtain rfl : otprn = otprn' := Option.some.inj decoded'
    have declared : otprn.fnAddr = chain.config.fairAddr crypto :=
      Except.ok.inj (signed.symm.trans signed')
    refine ⟨declared, .inr (verifyFairnodeSign_ok.mpr ⟨otprn, decoded, ?_⟩)⟩
    rw [declared]
    exact sealed
  · rintro ⟨declared, checked⟩
    have sealed : verifyFairnodeSign crypto header = .ok () := by
      rcases checked with nonzero | sealed
      · exact verifyHeader_fairnodeSign accepted nonzero
      · exact sealed
    obtain ⟨otprn', decoded', recovered⟩ := verifyFairnodeSign_ok.mp sealed
    obtain rfl : otprn = otprn' := Option.some.inj (decoded.symm.trans decoded')
    rw [← declared]
    exact ⟨recovered, otprn, rfl, signed⟩

def sampleSealed (parent : Header) (fnAddr : Address) : Header :=
  let h : Header := { parent with
    parentHash := parent.hash sampleCrypto
    number := parent.number + 1
    otprn := (sampleOtprn fnAddr).encodeOtprn }
  let h := { h with difficulty := (h.calcDifficulty sampleCrypto).toNat }
  { h with
    fairnodeSign := sampleSign (sealDigest sampleCrypto (h.hash sampleCrypto) h.voteHash) fnAddr }

def sampleChain : ChainReader where
  config := {
    eip150Block := none
    eip150Hash := 0
    fairPubKey := List.replicate 64 0x30 ++ [0x66, 0x61] }
  getHeader _ _ := some sampleHeader

theorem sampleSealed_signedBy_fairAddr :
    verifyHeader sampleCrypto 0 0 sampleChain (sampleSealed sampleHeader 0xfa) [] true = .ok () ∧
      SignedBy sampleCrypto (sampleChain.config.fairAddr sampleCrypto)
        (sampleSealed sampleHeader 0xfa) := by
  have accepted : verifyHeader sampleCrypto 0 0 sampleChain (sampleSealed sampleHeader 0xfa) [] true =
      .ok () := by decide +kernel
  exact ⟨accepted, (verifyHeader_signedBy_iff _ _ _ _ _ _ accepted).mpr (by decide +kernel)⟩

/-- Anyone can mint an OTPRN that declares their own address, and seal a block with it. -/
theorem verifyHeader_accepts_foreign_fairnode :
    verifyHeader sampleCrypto 0 0 sampleChain (sampleSealed sampleHeader 0xbad) [] true = .ok () ∧
      0 < (sampleSealed sampleHeader 0xbad).number ∧
      ¬ SignedBy sampleCrypto (sampleChain.config.fairAddr sampleCrypto)
        (sampleSealed sampleHeader 0xbad) := by
  refine ⟨by decide +kernel, by decide, ?_⟩
  rintro ⟨sealed, -⟩
  revert sealed
  decide +kernel

end Anduschain
