import Anduschain.PoaEngine

/-! The Layer2 engine on both sides (consensus/layer2/layer2.go): what its verifier asks of
a header, whom the seal and the draw of the difficulty bind, and the headers that `Prepare`
and `Seal` produce. -/
namespace Anduschain
open ByteOrder CheckedSteps List

abbrev VrfVerify := Bytes → Bytes → Bytes → Option Bytes

namespace Poa

structure Fielded (c : Poa) (header : Header) : Prop where
  reached : asInt64 header.time ≤ c.now
  beneficiary : UInt64.ofNat header.number % c.epoch = 0 → header.coinbase = 0
  vote : header.nonce = nonceAuthVote ∨ header.nonce = nonceDropVote
  checkpointVote : UInt64.ofNat header.number % c.epoch = 0 → header.nonce = nonceDropVote
  room : extraVanity + extraSeal ≤ header.extra.length
  plain : UInt64.ofNat header.number % c.epoch ≠ 0 → header.extra.length = extraVanity + extraSeal
  listed : UInt64.ofNat header.number % c.epoch = 0 →
    (header.extra.length - extraVanity - extraSeal) % addressLength = 0
  gasLimit : header.gasLimit.toNat ≤ maxGasLimit
  gasUsed : header.gasUsed ≤ header.gasLimit

structure Anchored (c : Poa) (crypto : Crypto) (chain : ChainReader) (header : Header)
    (parents : List Header) (snap : Snapshot) : Prop where
  parent : ∃ parent,
    (if parents.isEmpty then
      chain.getHeader header.parentHash (UInt64.ofNat header.number - 1).toNat
    else parents.getLast?) = some parent ∧
    UInt64.ofNat parent.number = UInt64.ofNat header.number - 1 ∧
    parent.hash crypto = header.parentHash ∧
    UInt64.ofNat parent.time + c.period ≤ UInt64.ofNat header.time
  snapshot : c.snapshot (UInt64.ofNat header.number - 1) header.parentHash parents = .ok snap
  signers : UInt64.ofNat header.number % c.epoch = 0 →
    (header.extra.take (header.extra.length - extraSeal)).drop extraVanity =
      snap.signers.flatMap addressBytes

end Poa

/-- The difficulty is the draw of the key that the OTPRN field carries, and the coinbase is
the key's address. -/
structure KeyDrawn (crypto : Crypto) (vrfVerify : VrfVerify) (header : Header) : Prop where
  key : crypto.decompressPubkey header.otprn = some header.coinbase
  draw : ∃ beta, vrfVerify header.otprn (itoa (header.number % 2 ^ 64)) header.fairnodeSign = some beta ∧
    header.difficulty = beNat (beta.take 4)

section Acceptance
variable {crypto : Crypto} {c : Poa} {vrfVerify : VrfVerify} {chain : ChainReader} {header : Header}
  {parents : List Header}

theorem verifyDifficulty_ok_iff :
    verifyDifficulty crypto vrfVerify header = .ok () ↔ KeyDrawn crypto vrfVerify header := by
  simp only [verifyDifficulty, bind_eq_ok, exists_unit, orReject_eq_ok, rejectIf_eq_ok, not_not]
  constructor
  · rintro ⟨addr, key, rfl, beta, proven, drawn⟩
    exact ⟨key, beta, proven, drawn⟩
  · rintro ⟨key, beta, proven, drawn⟩
    exact ⟨_, key, rfl, beta, proven, drawn⟩

theorem Poa.verifyHeader_iff (numbered : UInt64.ofNat header.number ≠ 0) :
    c.verifyHeader crypto chain header parents = .ok () ↔
      c.Fielded header ∧ c.checkDifficulty crypto header = .ok () ∧
        verifyForkHashes crypto chain.config header = .ok () ∧
        ∃ snap signer, c.Anchored crypto chain header parents snap ∧
          c.ecrecover crypto header = .ok signer ∧ signer ∈ snap.signers ∧
          c.checkTurn crypto snap header signer = .ok () := by
  simp only [verifyHeader, verifyCascadingFields, verifySeal, numbered, if_false, bind_eq_ok,
    exists_unit, orReject_eq_ok, mapError_eq_ok, rejectIf_eq_ok, not_lt, UInt64.not_lt, not_and, not_or,
    not_not]
  constructor
  · rintro ⟨reached, beneficiary, vote, checkpointVote, vanity, room, plain, listed, drawn, gasLimit,
      fork, parent, found, ⟨number, hash⟩, timed, gasUsed, snap, taken, signers, -, signer,
      recovered, authorized, turn⟩
    refine ⟨⟨reached, beneficiary, ?_, checkpointVote, room, ?_, listed, gasLimit, gasUsed⟩, drawn,
      fork, snap, signer, ⟨⟨parent, found, number, hash, timed⟩, taken, signers⟩, recovered,
      authorized, turn⟩
    · exact or_iff_not_imp_left.mpr vote
    · intro ordinary
      have := plain ordinary
      omega
  · rintro ⟨fielded, drawn, fork, snap, signer, anchored, recovered, authorized, turn⟩
    obtain ⟨parent, found, number, hash, timed⟩ := anchored.parent
    have room := fielded.room
    refine ⟨fielded.reached, fielded.beneficiary, or_iff_not_imp_left.mp fielded.vote,
      fielded.checkpointVote, by omega, room, ?_, fielded.listed, drawn, fielded.gasLimit, fork,
      parent, found, ⟨number, hash⟩, timed, fielded.gasUsed, snap, anchored.snapshot,
      anchored.signers, not_false, signer, recovered, authorized, turn⟩
    intro ordinary
    have := fielded.plain ordinary
    omega

theorem Poa.layer2_verifyHeader_iff (layer2 : c.rule = .layer2 vrfVerify)
    (numbered : UInt64.ofNat header.number ≠ 0) :
    c.verifyHeader crypto chain header parents = .ok () ↔
      c.Fielded header ∧ KeyDrawn crypto vrfVerify header ∧
        verifyForkHashes crypto chain.config header = .ok () ∧
        ∃ snap signer, c.Anchored crypto chain header parents snap ∧
          c.ecrecover crypto header = .ok signer ∧ signer ∈ snap.signers := by
  rw [verifyHeader_iff numbered]
  simp only [checkDifficulty, checkTurn, layer2, numbered, if_false, verifyDifficulty_ok_iff]
  refine and_congr_right fun _ => and_congr_right fun drawn => and_congr_right fun _ =>
    exists₂_congr fun snap signer => and_congr_right fun _ => and_congr_right fun _ => and_iff_left ?_
  split
  · rfl
  · exact verifyDifficulty_ok_iff.mpr drawn

end Acceptance

/-! What a seal signs, and putting another one in its place. -/

def Header.reseal (header : Header) (sig : Bytes) : Header :=
  { header with extra := header.extra.take (header.extra.length - extraSeal) ++ sig }

def Header.seal (header : Header) : Bytes := header.extra.drop (header.extra.length - extraSeal)

section Reseal
variable {crypto : Crypto} {header : Header} {sig : Bytes} (room : extraSeal ≤ header.extra.length)
include room

theorem reseal_length (full : sig.length = extraSeal) :
    (header.reseal sig).extra.length = header.extra.length := by
  simp only [Header.reseal, length_append, length_take, full]
  omega

theorem reseal_take (full : sig.length = extraSeal) :
    (header.reseal sig).extra.take ((header.reseal sig).extra.length - extraSeal) =
      header.extra.take (header.extra.length - extraSeal) := by
  rw [reseal_length room full]
  exact take_left' (by rw [length_take]; omega)

theorem seal_reseal (full : sig.length = extraSeal) : (header.reseal sig).seal = sig := by
  rw [Header.seal, reseal_length room full]
  exact drop_left' (by rw [length_take]; omega)

theorem sealHash_reseal (full : sig.length = extraSeal) :
    sealHash crypto (header.reseal sig) = sealHash crypto header := by
  simp only [sealHash, Header.sigHeader, reseal_take room full]
  rfl

end Reseal

theorem Poa.ecrecover_uncached {c : Poa} {crypto : Crypto} {header : Header} {signer : Address}
    (uncached : ∀ other, c.sigcache (header.hash crypto) = some other → other = signer)
    (room : extraSeal ≤ header.extra.length)
    (recovers : crypto.sigToAddr (sealHash crypto header) header.seal = .ok signer) :
    c.ecrecover crypto header = .ok signer := by
  unfold ecrecover
  cases cached : c.sigcache (header.hash crypto) with
  | some other => rw [uncached other cached]
  | none =>
    simp only [bind_eq_ok, exists_unit, rejectIf_eq_ok, mapError_eq_ok, not_lt]
    exact ⟨room, recovers⟩

/-! Whom an accepted header binds. -/

def Bound (crypto : Crypto) (c : Poa) (header : Header) : Prop :=
  ∃ signer, c.ecrecover crypto header = .ok signer ∧
    crypto.decompressPubkey header.otprn = some signer ∧ header.coinbase = signer

/-- No key has the zero address, whoever sealed a header can sign another one, and there are
always keys of other addresses that no header in the cache carries and that can prove a draw. -/
structure FreeKeys (crypto : Crypto) (vrfVerify : VrfVerify) (c : Poa) : Prop where
  nonzero : ∀ key, crypto.decompressPubkey key ≠ some 0
  signs : ∀ header signer, c.ecrecover crypto header = .ok signer → ∀ digest, ∃ sig,
    sig.length = extraSeal ∧ crypto.sigToAddr digest sig = .ok signer
  another : ∀ signer alpha, ∃ key addr proof beta, crypto.decompressPubkey key = some addr ∧
    addr ≠ signer ∧ vrfVerify key alpha proof = some beta ∧
    ∀ header : Header, header.otprn = key → c.sigcache (header.hash crypto) = none

def Header.rekey (header : Header) (key : Bytes) (addr : Address) (proof beta : Bytes) : Header :=
  { header with
    coinbase := addr
    otprn := key
    fairnodeSign := proof
    difficulty := beNat (beta.take 4) }

section Binding
variable {crypto : Crypto} {c : Poa} {vrfVerify : VrfVerify} {chain : ChainReader} {header : Header}
  {parents : List Header}

theorem rekeyed_accepted (layer2 : c.rule = .layer2 vrfVerify)
    (numbered : UInt64.ofNat header.number ≠ 0)
    (unpinned : chain.config.eip150Block = some header.number → chain.config.eip150Hash = 0)
    (keys : FreeKeys crypto vrfVerify c)
    (accepted : c.verifyHeader crypto chain header parents = .ok ())
    {key : Bytes} {addr : Address} {proof beta : Bytes}
    (owned : crypto.decompressPubkey key = some addr)
    (proven : vrfVerify key (itoa (header.number % 2 ^ 64)) proof = some beta)
    (fresh : ∀ header : Header, header.otprn = key → c.sigcache (header.hash crypto) = none) :
    ∃ signer, ∃ forged : Header, forged.number = header.number ∧
      forged.parentHash = header.parentHash ∧ forged.coinbase = addr ∧
      forged.difficulty = beNat (beta.take 4) ∧ c.ecrecover crypto header = .ok signer ∧
      c.ecrecover crypto forged = .ok signer ∧
      c.verifyHeader crypto chain forged parents = .ok () := by
  obtain ⟨fielded, drawn, -, snap, signer, anchored, recovered, authorized⟩ :=
    (Poa.layer2_verifyHeader_iff layer2 numbered).mp accepted
  -- a checkpoint would need a key of the zero address
  have ordinary : UInt64.ofNat header.number % c.epoch ≠ 0 := by
    intro checkpoint
    exact keys.nonzero _ (drawn.key.trans (congrArg some (fielded.beneficiary checkpoint)))
  have room : extraSeal ≤ (header.rekey key addr proof beta).extra.length :=
    le_trans (by decide) fielded.room
  obtain ⟨sig, full, signs⟩ :=
    keys.signs _ _ recovered (sealHash crypto (header.rekey key addr proof beta))
  have length : ((header.rekey key addr proof beta).reseal sig).extra.length = header.extra.length :=
    reseal_length room full
  have resigned : c.ecrecover crypto ((header.rekey key addr proof beta).reseal sig) = .ok signer := by
    apply Poa.ecrecover_uncached
    · intro other cached
      rw [fresh _ rfl] at cached
      exact absurd cached (by simp)
    · rw [length]
      exact room
    · rw [sealHash_reseal room full, seal_reseal room full]
      exact signs
  refine ⟨signer, (header.rekey key addr proof beta).reseal sig, rfl, rfl, rfl, rfl, recovered,
    resigned, ?_⟩
  have positioned : UInt64.ofNat ((header.rekey key addr proof beta).reseal sig).number ≠ 0 := numbered
  refine (Poa.layer2_verifyHeader_iff layer2 positioned).mpr
    ⟨?_, ⟨owned, beta, proven, rfl⟩, ?_, snap, signer, ?_, resigned, authorized⟩
  · exact ⟨fielded.reached, fun checkpoint => absurd checkpoint ordinary, fielded.vote,
      fielded.checkpointVote, by rw [length]; exact fielded.room,
      fun _ => by rw [length]; exact fielded.plain ordinary,
      fun checkpoint => absurd checkpoint ordinary, fielded.gasLimit, fielded.gasUsed⟩
  · rw [verifyForkHashes, rejectIf_eq_ok]
    exact fun pinned => pinned.2.1 (unpinned pinned.1)
  · exact ⟨anchored.parent, anchored.snapshot, fun checkpoint => absurd checkpoint ordinary⟩

/-- Headers under one parent are all bound to their sealers only where none is accepted. -/
theorem layer2_binds_iff (layer2 : c.rule = .layer2 vrfVerify) (keys : FreeKeys crypto vrfVerify c)
    (chain : ChainReader) (parents : List Header) (number : ℕ) (parentHash : Hash)
    (numbered : UInt64.ofNat number ≠ 0)
    (unpinned : chain.config.eip150Block = some number → chain.config.eip150Hash = 0) :
    (∀ header : Header, header.number = number → header.parentHash = parentHash →
      c.verifyHeader crypto chain header parents = .ok () → Bound crypto c header) ↔
    ∀ header : Header, header.number = number → header.parentHash = parentHash →
      c.verifyHeader crypto chain header parents ≠ .ok () := by
  constructor
  · rintro binds header rfl rfl accepted
    obtain ⟨signer, sealed⟩ : ∃ signer, c.ecrecover crypto header = .ok signer := by
      obtain ⟨-, -, -, -, signer, -, sealed, -⟩ :=
        (Poa.layer2_verifyHeader_iff layer2 numbered).mp accepted
      exact ⟨signer, sealed⟩
    obtain ⟨key, addr, proof, beta, owned, other, proven, fresh⟩ :=
      keys.another signer (itoa (header.number % 2 ^ 64))
    obtain ⟨same, forged, number, parent, coinbase, -, again, resealed, verified⟩ :=
      rekeyed_accepted layer2 numbered unpinned keys accepted owned proven fresh
    obtain rfl : signer = same := Except.ok.inj (sealed.symm.trans again)
    obtain ⟨bound, recovered, -, own⟩ := binds forged number parent verified
    obtain rfl : signer = bound := Except.ok.inj (resealed.symm.trans recovered)
    exact other (coinbase.symm.trans own)
  · intro none header numbered' parent accepted
    exact absurd accepted (none header numbered' parent)

end Binding

def sampleKeys : Crypto :=
  { sampleCrypto with
    decompressPubkey := fun b =>
      if b.length = 33 ∧ bytesToAddress b ≠ 0 then some (bytesToAddress b) else none }

def samplePubkey (addr : Address) : Bytes := List.replicate 13 0 ++ addressBytes addr

def sampleSeal (digest : Hash) (signer : Address) : Bytes :=
  hashBytes digest ++ List.replicate 13 0 ++ addressBytes signer

def sampleLayer2 : Poa where
  rule := .layer2 fun key _ _ => some (key.drop 29)
  epoch := 30000
  period := 5
  fakeDiff := false
  now := 100
  snapshot _ _ _ := .ok { signers := [0xfa], recents := [] }
  sigcache _ := none

def sampleLayer2Chain : ChainReader where
  config := { eip150Block := none, eip150Hash := 0, fairPubKey := [] }
  getHeader hash number :=
    if hash = sampleHeader.hash sampleKeys ∧ number = 0 then some sampleHeader else none

def sampleKeyed (addr : Address) : Header :=
  let unsealed : Header := { sampleHeader with
    parentHash := sampleHeader.hash sampleKeys
    number := 1
    time := 50
    coinbase := addr
    otprn := samplePubkey addr
    difficulty := addr.toNat
    extra := List.replicate (extraVanity + extraSeal) 0 }
  unsealed.reseal (sampleSeal (sealHash sampleKeys unsealed) 0xfa)

theorem bytesToAddress_padded (addr : Address) :
    bytesToAddress (List.replicate 13 0 ++ addressBytes addr) = addr := by
  have zeros : beNat (List.replicate 13 0) = 0 := by decide
  rw [bytesToAddress, beNat_append, zeros, Nat.zero_mul, Nat.zero_add]
  exact bytesToAddress_addressBytes addr

theorem sampleKeys_seal (digest : Hash) (signer : Address) :
    (sampleSeal digest signer).length = extraSeal ∧
      sampleKeys.sigToAddr digest (sampleSeal digest signer) = .ok signer := by
  have width : (hashBytes digest).length = 32 := beFixed_length ..
  have tail : (addressBytes signer).length = 20 := beFixed_length ..
  refine ⟨by simp [sampleSeal, width, tail, extraSeal], ?_⟩
  simp only [sampleKeys, sampleCrypto, sampleSeal, append_assoc]
  rw [take_left' width, drop_left' width, if_pos rfl, bytesToAddress_padded]

theorem sampleKeys_pubkey {addr : Address} (nonzero : addr ≠ 0) :
    sampleKeys.decompressPubkey (samplePubkey addr) = some addr := by
  have width : (samplePubkey addr).length = 33 := by
    have : (addressBytes addr).length = 20 := beFixed_length ..
    simp [samplePubkey, this]
  have owner : bytesToAddress (samplePubkey addr) = addr := bytesToAddress_padded addr
  simp only [sampleKeys, owner]
  exact if_pos ⟨width, nonzero⟩

theorem sampleLayer2_keys :
    FreeKeys sampleKeys (fun key _ _ => some (key.drop 29)) sampleLayer2 where
  nonzero key zero := by
    simp only [sampleKeys] at zero
    split at zero
    · rename_i owned
      exact owned.2 (Option.some.inj zero)
    · simp at zero
  signs _ signer _ digest := ⟨_, sampleKeys_seal digest signer⟩
  another signer _ := by
    by_cases one : signer = 1
    · exact ⟨samplePubkey 2, 2, [], _, sampleKeys_pubkey (by decide), one ▸ by decide, rfl, fun _ _ => rfl⟩
    · exact ⟨samplePubkey 1, 1, [], _, sampleKeys_pubkey (by decide), Ne.symm one, rfl, fun _ _ => rfl⟩

/-- On the first block's parent a header is accepted, so one is that binds nobody. -/
theorem sampleLayer2_unbound : ∃ header : Header, header.number = 1 ∧
    header.parentHash = sampleHeader.hash sampleKeys ∧
    sampleLayer2.verifyHeader sampleKeys sampleLayer2Chain header [] = .ok () ∧
    ¬ Bound sampleKeys sampleLayer2 header := by
  by_contra! bound
  exact (layer2_binds_iff rfl sampleLayer2_keys sampleLayer2Chain [] 1 (sampleHeader.hash sampleKeys)
    (by decide) nofun).mp bound (sampleKeyed 0xfa) rfl rfl (by decide +kernel)

/-- 0xfa seals the first block under its own key, and under that of the address 5. -/
theorem sampleKeyed_differ :
    [0xfa, 5].map (fun addr =>
      (sampleLayer2.verifyHeader sampleKeys sampleLayer2Chain (sampleKeyed addr) [],
        sampleLayer2.ecrecover sampleKeys (sampleKeyed addr),
        sampleKeys.decompressPubkey (sampleKeyed addr).otprn, (sampleKeyed addr).difficulty)) =
    [(.ok (), .ok 0xfa, some 0xfa, 0xfa), (.ok (), .ok 0xfa, some 5, 5)] := by
  decide +kernel

end Anduschain
