import Anduschain.Layer2Engine

/-! Sealing under Layer2 (consensus/layer2/layer2.go): `Prepare`, `Seal`, and which of the
headers they produce for an honest signer the verifier of the same chain accepts. -/
namespace Anduschain
open ByteOrder CheckedSteps List

/-- A sealing engine: its configuration, the pending proposals in some order, and its account.
`New` never leaves the epoch at zero. `signFn` is given what the seal signs, hashed. -/
structure Layer2 where
  epoch : UInt64
  period : UInt64
  fakeDiff : Bool
  proposals : List (Address × Bool)
  signer : Address
  pubkey : Bytes
  vrfProve : Bytes → Option (Bytes × Bytes)
  vrfVerify : VrfVerify
  signFn : Hash → Except String Bytes
  snapshot : UInt64 → Hash → List Header → Except String Snapshot
  sigcache : Hash → Option Address
  epochSet : epoch ≠ 0

inductive SealError where
  | engine (e : PoaError)
  | paused
  | mustWait
  | signing (msg : String)
  deriving DecidableEq

namespace Layer2
variable (l : Layer2)

def poa (now : ℤ) : Poa where
  rule := .layer2 l.vrfVerify
  epoch := l.epoch
  period := l.period
  fakeDiff := l.fakeDiff
  now
  snapshot := l.snapshot
  sigcache := l.sigcache

def ballot (snap : Snapshot) (draw : ℕ) : Option Address :=
  let addresses := (l.proposals.filter fun p => snap.validVote p.1 p.2).map Prod.fst
  addresses[draw % addresses.length]?

def castVote (snap : Snapshot) (draw : ℕ) (header : Header) : Header :=
  match l.ballot snap draw with
  | none => header
  | some address =>
    { header with
      coinbase := address
      nonce := if l.proposals.lookup address = some true then nonceAuthVote else nonceDropVote }

/-- A draw that fails leaves key and proof as they are. -/
def drawDifficulty (header : Header) : Header :=
  match l.vrfProve (itoa (header.number % 2 ^ 64)) with
  | none => { header with difficulty := 0 }
  | some (beta, pi) =>
    { header with difficulty := beNat (beta.take 4), fairnodeSign := pi, otprn := l.pubkey }

def prepareExtra (snap : Snapshot) (checkpoint : Bool) (extra : Bytes) : Bytes :=
  (extra ++ List.replicate (extraVanity - extra.length) 0).take extraVanity ++
    (if checkpoint then snap.signers.flatMap addressBytes else []) ++ List.replicate extraSeal 0

def prepare (chain : ChainReader) (now : ℤ) (draw : ℕ) (header : Header) : Except PoaError Header := do
  let number := UInt64.ofNat header.number
  let snap ← (l.snapshot (number - 1) header.parentHash []).mapError .snapshot
  let checkpoint : Bool := number % l.epoch = 0
  let voted := if checkpoint then header else l.castVote snap draw header
  let drawn := l.drawDifficulty voted
  let parent ← orReject (chain.getHeader header.parentHash (number - 1).toNat) .unknownAncestor
  let time := parent.time + l.period.toNat
  return { drawn with
    extra := prepareExtra snap checkpoint header.extra
    time := if asInt64 time < now then now.toNat else time }

end Layer2

/-- `Seal`; `filled` says that the block has transactions. -/
def Layer2.seal (l : Layer2) (crypto : Crypto) (filled : Bool) (header : Header) :
    Except SealError Header := do
  let number := UInt64.ofNat header.number
  rejectIf (number = 0) (.engine .unknownBlock)
  rejectIf (l.period = 0 ∧ !filled) .paused
  let snap ← (l.snapshot (number - 1) header.parentHash []).mapError fun msg => .engine (.snapshot msg)
  rejectIf (l.signer ∉ snap.signers) (.engine .unauthorizedSigner)
  let sighash ← (l.signFn (sealHash crypto header)).mapError .signing
  return header.reseal (sighash.take extraSeal ++ header.seal.drop sighash.length)

structure Assembly where
  root : Hash
  txHash : Hash
  voteHash : Hash
  receiptHash : Hash
  bloom : Bloom
  gasUsed : UInt64

def Assembly.onto (work : Assembly) (header : Header) : Header :=
  { header with
    root := work.root
    txHash := work.txHash
    voteHash := work.voteHash
    receiptHash := work.receiptHash
    bloom := work.bloom
    gasUsed := work.gasUsed }

def ChainReader.Coherent (chain : ChainReader) (crypto : Crypto) : Prop :=
  ∀ hash number header, chain.getHeader hash number = some header →
    header.hash crypto = hash ∧ (UInt64.ofNat header.number).toNat = number

/-- Its key is that of its address and can prove every draw, and its signatures lead back to it.
-/
structure Layer2.Honest (l : Layer2) (crypto : Crypto) : Prop where
  nonzero : l.signer ≠ 0
  key : crypto.decompressPubkey l.pubkey = some l.signer
  proves : ∀ alpha, ∃ beta pi, l.vrfProve alpha = some (beta, pi) ∧
    l.vrfVerify l.pubkey alpha pi = some beta
  signs : ∀ digest sig, l.signFn digest = .ok sig →
    sig.length = extraSeal ∧ crypto.sigToAddr digest sig = .ok l.signer

structure SealRun (l : Layer2) (crypto : Crypto) (chain : ChainReader) (header : Header) (draw : ℕ)
    (work : Assembly) (final : Header) : Prop where
  numbered : UInt64.ofNat header.number ≠ 0
  own : header.coinbase = l.signer
  unvoted : header.nonce = 0
  produced : ∃ now filled prepared, 0 ≤ now ∧ now < 2 ^ 63 ∧
    l.prepare chain now draw header = .ok prepared ∧
    l.seal crypto filled (work.onto prepared) = .ok final

structure Sealable (l : Layer2) (crypto : Crypto) (chain : ChainReader) (header : Header) (draw : ℕ)
    (work : Assembly) (final : Header) : Prop where
  ordinary : UInt64.ofNat header.number % l.epoch ≠ 0
  ballot : ∀ snap address, l.snapshot (UInt64.ofNat header.number - 1) header.parentHash [] = .ok snap →
    l.ballot snap draw = some address → address = l.signer
  clock : ∀ parent, chain.getHeader header.parentHash (UInt64.ofNat header.number - 1).toNat = some parent →
    (UInt64.ofNat parent.time + l.period).toNat < 2 ^ 63
  gasLimit : header.gasLimit.toNat ≤ maxGasLimit
  gasUsed : work.gasUsed ≤ header.gasLimit
  unpinned : chain.config.eip150Block = some header.number → chain.config.eip150Hash ≠ 0 →
    chain.config.eip150Hash = final.hash crypto

structure Produced (l : Layer2) (crypto : Crypto) (header : Header) (draw : ℕ) (work : Assembly)
    (final : Header) (snap : Snapshot) (parent : Header) : Prop where
  number : final.number = header.number
  parentHash : final.parentHash = header.parentHash
  gasLimit : final.gasLimit = header.gasLimit
  gasUsed : final.gasUsed = work.gasUsed
  checkpoint : UInt64.ofNat header.number % l.epoch = 0 → final.coinbase = l.signer
  ordinary : UInt64.ofNat header.number % l.epoch ≠ 0 →
    final.coinbase = (l.ballot snap draw).getD l.signer
  vote : final.nonce = nonceAuthVote ∨ final.nonce = nonceDropVote
  key : final.otprn = l.pubkey
  draw : ∃ beta, l.vrfVerify l.pubkey (itoa (header.number % 2 ^ 64)) final.fairnodeSign = some beta ∧
    final.difficulty = beNat (beta.take 4)
  extra : UInt64.ofNat header.number % l.epoch ≠ 0 → final.extra.length = extraVanity + extraSeal
  time : ∃ now, 0 ≤ now ∧ now < 2 ^ 63 ∧ final.time =
    if asInt64 (parent.time + l.period.toNat) < now then now.toNat else parent.time + l.period.toNat
  recovers : crypto.sigToAddr (sealHash crypto final) final.seal = .ok l.signer

section Sealing
variable {l : Layer2} {crypto : Crypto} {chain : ChainReader} {header final : Header} {draw : ℕ}
  {work : Assembly}

theorem castVote_shape (own : header.coinbase = l.signer) (unvoted : header.nonce = 0)
    (draw : ℕ) (snap : Snapshot) :
    ∃ nonce, (nonce = nonceAuthVote ∨ nonce = nonceDropVote) ∧
      l.castVote snap draw header =
        { header with coinbase := (l.ballot snap draw).getD l.signer, nonce } := by
  unfold Layer2.castVote
  cases l.ballot snap draw with
  | none => exact ⟨0, .inr rfl, by rw [Option.getD_none, ← own, ← unvoted]⟩
  | some address =>
    refine ⟨_, ?_, rfl⟩
    split
    · exact .inl rfl
    · exact .inr rfl

theorem voted_shape (own : header.coinbase = l.signer) (unvoted : header.nonce = 0)
    (draw : ℕ) (snap : Snapshot) :
    ∃ coinbase nonce, (nonce = nonceAuthVote ∨ nonce = nonceDropVote) ∧
      (UInt64.ofNat header.number % l.epoch = 0 → coinbase = l.signer) ∧
      (UInt64.ofNat header.number % l.epoch ≠ 0 → coinbase = (l.ballot snap draw).getD l.signer) ∧
      (if UInt64.ofNat header.number % l.epoch = 0 then header else l.castVote snap draw header) =
        { header with coinbase, nonce } := by
  by_cases checkpoint : UInt64.ofNat header.number % l.epoch = 0
  · exact ⟨l.signer, 0, .inr rfl, fun _ => rfl, fun ordinary => absurd checkpoint ordinary,
      by rw [if_pos checkpoint, ← own, ← unvoted]⟩
  · obtain ⟨nonce, vote, cast⟩ := castVote_shape own unvoted draw snap
    exact ⟨_, nonce, vote, fun contrary => absurd contrary checkpoint, fun _ => rfl,
      by rw [if_neg checkpoint, cast]⟩

theorem drawDifficulty_honest (honest : l.Honest crypto) (header : Header) :
    ∃ beta pi, l.vrfVerify l.pubkey (itoa (header.number % 2 ^ 64)) pi = some beta ∧
      l.drawDifficulty header =
        { header with
          difficulty := beNat (beta.take 4)
          fairnodeSign := pi
          otprn := l.pubkey } := by
  obtain ⟨beta, pi, proven, verified⟩ := honest.proves (itoa (header.number % 2 ^ 64))
  exact ⟨beta, pi, verified, by rw [Layer2.drawDifficulty, proven]⟩

theorem prepareExtra_length (snap : Snapshot) (checkpoint : Bool) (extra : Bytes) :
    (Layer2.prepareExtra snap checkpoint extra).length = extraVanity +
      (if checkpoint then snap.signers.flatMap addressBytes else []).length + extraSeal := by
  simp only [Layer2.prepareExtra, length_append, length_take, length_replicate]
  omega

theorem copy_seal {unsealed : Header} {sig : Bytes} (room : extraSeal ≤ unsealed.extra.length)
    (full : sig.length = extraSeal) :
    sig.take extraSeal ++ unsealed.seal.drop sig.length = sig := by
  have nothing : unsealed.seal.drop sig.length = [] := by
    rw [drop_eq_nil_iff, Header.seal, length_drop, full]
    omega
  rw [nothing, append_nil, take_of_length_le full.le]

theorem seal_ok (honest : l.Honest crypto) {filled : Bool} {unsealed : Header}
    (room : extraSeal ≤ unsealed.extra.length) (sealed : l.seal crypto filled unsealed = .ok final) :
    ∃ snap sig, l.snapshot (UInt64.ofNat unsealed.number - 1) unsealed.parentHash [] = .ok snap ∧
      l.signer ∈ snap.signers ∧ sig.length = extraSeal ∧
      crypto.sigToAddr (sealHash crypto unsealed) sig = .ok l.signer ∧
      final = unsealed.reseal sig := by
  simp only [Layer2.seal, bind_eq_ok, exists_unit, rejectIf_eq_ok, mapError_eq_ok, not_not] at sealed
  obtain ⟨-, -, snap, taken, authorized, sig, signed, written⟩ := sealed
  obtain ⟨full, recovers⟩ := honest.signs _ _ signed
  rw [copy_seal room full] at written
  exact ⟨snap, sig, taken, authorized, full, recovers, (Except.ok.inj written).symm⟩

theorem SealRun.produced_header (honest : l.Honest crypto)
    (run : SealRun l crypto chain header draw work final) :
    ∃ snap parent, l.snapshot (UInt64.ofNat header.number - 1) header.parentHash [] = .ok snap ∧
      l.signer ∈ snap.signers ∧
      chain.getHeader header.parentHash (UInt64.ofNat header.number - 1).toNat = some parent ∧
      Produced l crypto header draw work final snap parent := by
  obtain ⟨now, filled, prepared, since, until', preparing, sealing⟩ := run.produced
  simp only [Layer2.prepare, bind_eq_ok, mapError_eq_ok, orReject_eq_ok] at preparing
  obtain ⟨snap, taken, parent, found, made⟩ := preparing
  simp only [decide_eq_true_eq] at made
  obtain ⟨coinbase, nonce, vote, atCheckpoint, elsewhere, voted⟩ :=
    voted_shape run.own run.unvoted draw snap
  rw [voted] at made
  obtain ⟨beta, pi, proven, drawn⟩ := drawDifficulty_honest honest { header with coinbase, nonce }
  rw [drawn] at made
  obtain rfl := Except.ok.inj made
  have width := prepareExtra_length snap (UInt64.ofNat header.number % l.epoch = 0) header.extra
  have room : extraSeal ≤ (Layer2.prepareExtra snap (UInt64.ofNat header.number % l.epoch = 0)
      header.extra).length := by
    rw [width]
    omega
  obtain ⟨same, sig, again, authorized, full, recovers, rfl⟩ := seal_ok honest room sealing
  obtain rfl : snap = same := Except.ok.inj (taken.symm.trans again)
  refine ⟨snap, parent, taken, authorized, found, rfl, rfl, rfl, rfl, atCheckpoint, elsewhere, vote,
    rfl, ⟨beta, proven, rfl⟩, ?_, ⟨now, since, until', rfl⟩, ?_⟩
  · intro ordinary
    rw [reseal_length room full]
    refine width.trans ?_
    simp [ordinary]
  · rw [sealHash_reseal room full, seal_reseal room full]
    exact recovers

theorem ChainReader.Coherent.parent_iff {parent : Header} {period : UInt64}
    (coherent : chain.Coherent crypto) (found : chain.getHeader final.parentHash
      (UInt64.ofNat final.number - 1).toNat = some parent) :
    (∃ stored, (if isEmpty ([] : List Header) then chain.getHeader final.parentHash
        (UInt64.ofNat final.number - 1).toNat else getLast? []) = some stored ∧
      UInt64.ofNat stored.number = UInt64.ofNat final.number - 1 ∧
      stored.hash crypto = final.parentHash ∧
      UInt64.ofNat stored.time + period ≤ UInt64.ofNat final.time) ↔
    UInt64.ofNat parent.time + period ≤ UInt64.ofNat final.time := by
  obtain ⟨hash, number⟩ := coherent _ _ _ found
  simp only [isEmpty_nil, if_true, found, Option.some.injEq, exists_eq_left', hash,
    UInt64.toNat_inj.mp number, true_and]

theorem prepared_time_iff {now : ℤ} {time parentTime : ℕ} {period : UInt64} (since : 0 ≤ now)
    (until' : now < 2 ^ 63)
    (set : time = if asInt64 (parentTime + period.toNat) < now then now.toNat
      else parentTime + period.toNat) :
    UInt64.ofNat parentTime + period ≤ UInt64.ofNat time ↔
      (UInt64.ofNat parentTime + period).toNat < 2 ^ 63 := by
  have sum : (UInt64.ofNat parentTime + period).toNat = (parentTime + period.toNat) % 2 ^ 64 := by
    rw [UInt64.toNat_add, UInt64.toNat_ofNat', Nat.mod_add_mod]
  have signed : asInt64 (parentTime + period.toNat) =
      if (parentTime + period.toNat) % 2 ^ 64 < 2 ^ 63 then
        (((parentTime + period.toNat) % 2 ^ 64 : ℕ) : ℤ)
      else ((parentTime + period.toNat) % 2 ^ 64 : ℕ) - 2 ^ 64 := by
    rw [asInt64, BitVec.toInt_eq_toNat_cond, BitVec.toNat_ofNat]
    split <;> split <;> omega
  rw [UInt64.le_iff_toNat_le, sum, UInt64.toNat_ofNat', set]
  split
  · rename_i late
    rw [signed] at late
    split at late <;> omega
  · rename_i early
    rw [signed] at early
    split at early <;> omega

theorem forkHashes_iff {config : NetConfig} :
    verifyForkHashes crypto config header = .ok () ↔
      (config.eip150Block = some header.number → config.eip150Hash ≠ 0 →
        config.eip150Hash = header.hash crypto) := by
  rw [verifyForkHashes, rejectIf_eq_ok]
  tauto

/-- An honest sealer's header is accepted exactly if the block is no checkpoint, votes on
nobody but the sealer, and keeps to the limits of time, gas and the fixed fork hash. -/
theorem honest_sealer_accepted_iff (honest : l.Honest crypto) (coherent : chain.Coherent crypto)
    (run : SealRun l crypto chain header draw work final) {now : ℤ}
    (reached : asInt64 final.time ≤ now)
    (uncached : ∀ other, l.sigcache (final.hash crypto) = some other → other = l.signer) :
    (l.poa now).verifyHeader crypto chain final [] = .ok () ↔
      Sealable l crypto chain header draw work final := by
  obtain ⟨snap, parent, taken, authorized, found, made⟩ := run.produced_header honest
  obtain ⟨clock, since, until', time⟩ := made.time
  have position : UInt64.ofNat final.number = UInt64.ofNat header.number := by rw [made.number]
  have numbered : UInt64.ofNat final.number ≠ 0 := position ▸ run.numbered
  have anchor := (coherent.parent_iff (made.parentHash ▸ position ▸ found)).trans
    (prepared_time_iff since until' time)
  rw [Poa.layer2_verifyHeader_iff rfl numbered]
  constructor
  · rintro ⟨fielded, drawn, fork, snap', signer', anchored, -, -⟩
    have coinbase : final.coinbase = l.signer := by
      have key := drawn.key
      rw [made.key, honest.key] at key
      exact (Option.some.inj key).symm
    have ordinary : UInt64.ofNat header.number % l.epoch ≠ 0 := by
      intro checkpoint
      exact honest.nonzero (coinbase.symm.trans (fielded.beneficiary (position ▸ checkpoint)))
    refine ⟨ordinary, ?_, ?_, made.gasLimit ▸ fielded.gasLimit, ?_, ?_⟩
    · intro same address again chosen
      obtain rfl : snap = same := Except.ok.inj (taken.symm.trans again)
      have voted := made.ordinary ordinary
      rw [chosen, Option.getD_some, coinbase] at voted
      exact voted.symm
    · intro same again
      obtain rfl : parent = same := Option.some.inj (found.symm.trans again)
      exact anchor.mp anchored.parent
    · rw [← made.gasUsed, ← made.gasLimit]
      exact fielded.gasUsed
    · rw [← made.number]
      exact forkHashes_iff.mp fork
  · intro sealable
    have ordinary : UInt64.ofNat final.number % l.epoch ≠ 0 := position ▸ sealable.ordinary
    have length := made.extra sealable.ordinary
    have coinbase : final.coinbase = l.signer := by
      rw [made.ordinary sealable.ordinary]
      cases chosen : l.ballot snap draw with
      | none => rfl
      | some address => exact sealable.ballot snap address taken chosen
    refine ⟨⟨reached, fun checkpoint => absurd checkpoint ordinary, made.vote,
      fun checkpoint => absurd checkpoint ordinary, length.ge, fun _ => length,
      fun checkpoint => absurd checkpoint ordinary, made.gasLimit ▸ sealable.gasLimit, ?_⟩,
      ⟨?_, ?_⟩, ?_, snap, l.signer, ⟨anchor.mpr (sealable.clock parent found), ?_,
        fun checkpoint => absurd checkpoint ordinary⟩, ?_, authorized⟩
    · rw [made.gasUsed, made.gasLimit]
      exact sealable.gasUsed
    · rw [made.key, coinbase, honest.key]
    · rw [made.key, made.number]
      exact made.draw
    · rw [forkHashes_iff, made.number]
      exact sealable.unpinned
    · rw [position, made.parentHash]
      exact taken
    · exact Poa.ecrecover_uncached uncached (by rw [length]; decide) made.recovers

end Sealing

def sampleSealer (epoch : UInt64) (epochSet : epoch ≠ 0) (proposals : List (Address × Bool)) :
    Layer2 where
  epoch
  period := 5
  fakeDiff := false
  proposals
  signer := 0xfa
  pubkey := samplePubkey 0xfa
  vrfProve _ := some ((samplePubkey 0xfa).drop 29, [])
  vrfVerify key _ _ := some (key.drop 29)
  signFn digest := .ok (sampleSeal digest 0xfa)
  snapshot _ _ _ := .ok { signers := [0xfa], recents := [] }
  sigcache _ := none
  epochSet

def sampleUnsealed : Header :=
  { sampleHeader with
    parentHash := sampleHeader.hash sampleKeys
    number := 1
    coinbase := 0xfa }

def sampleWork : Assembly where
  root := 1
  txHash := 2
  voteHash := 3
  receiptHash := 4
  bloom := 0
  gasUsed := 0

def sampleMinted (l : Layer2) : Except SealError Header := do
  let prepared ← (l.prepare sampleLayer2Chain 50 0 sampleUnsealed).mapError .engine
  l.seal sampleKeys true (sampleWork.onto prepared)

section Sample
variable {epoch : UInt64} {epochSet : epoch ≠ 0} {proposals : List (Address × Bool)}

theorem sampleSealer_honest : (sampleSealer epoch epochSet proposals).Honest sampleKeys where
  nonzero := by simp [sampleSealer]
  key := sampleKeys_pubkey (by decide)
  proves _ := ⟨_, _, rfl, rfl⟩
  signs digest sig signed := by
    obtain rfl := Except.ok.inj signed
    exact sampleKeys_seal digest 0xfa

theorem sampleLayer2Chain_coherent : sampleLayer2Chain.Coherent sampleKeys := by
  intro hash number header found
  simp only [sampleLayer2Chain] at found
  split at found
  · rename_i stored
    obtain rfl := Option.some.inj found
    exact ⟨stored.1.symm, stored.2.symm⟩
  · simp at found

theorem sampleMinted_run {final : Header}
    (made : sampleMinted (sampleSealer epoch epochSet proposals) = .ok final) :
    SealRun (sampleSealer epoch epochSet proposals) sampleKeys sampleLayer2Chain sampleUnsealed 0
      sampleWork final where
  numbered := by decide
  own := rfl
  unvoted := rfl
  produced := by
    simp only [sampleMinted, bind_eq_ok, mapError_eq_ok] at made
    obtain ⟨prepared, preparing, sealing⟩ := made
    exact ⟨50, true, prepared, by decide, by decide, preparing, sealing⟩

theorem sampleMinted_accepted : ∃ final,
    sampleMinted (sampleSealer 30000 (by decide) []) = .ok final ∧
    ((sampleSealer 30000 (by decide) []).poa 60).verifyHeader sampleKeys sampleLayer2Chain final [] =
      .ok () := by
  have made : (sampleMinted (sampleSealer 30000 (by decide) [])).map Header.time = .ok 50 := by
    decide +kernel
  cases produced : sampleMinted (sampleSealer 30000 (by decide) []) with
  | error e => simp [produced, Except.map] at made
  | ok final =>
    rw [produced] at made
    have time : final.time = 50 := Except.ok.inj made
    refine ⟨final, rfl, (honest_sealer_accepted_iff sampleSealer_honest sampleLayer2Chain_coherent
      (sampleMinted_run produced) (by rw [time]; decide) nofun).mpr ?_⟩
    refine ⟨by decide, ?_, ?_, by decide, by decide, nofun⟩
    · intro snap address _ chosen
      simp [Layer2.ballot, sampleSealer] at chosen
    · intro parent found
      simp only [sampleLayer2Chain] at found
      split at found
      · obtain rfl := Option.some.inj found
        decide
      · simp at found

end Sample

/-- The sealer's block is refused at a checkpoint, and when it votes to authorize 5. -/
theorem sampleMinted_refused :
    [(sampleSealer 1 (by decide) []), (sampleSealer 30000 (by decide) [(5, true)])].map (fun l =>
      (sampleMinted l).toOption.map fun final =>
        (l.poa 60).verifyHeader sampleKeys sampleLayer2Chain final []) =
    [some (.error .invalidCheckpointBeneficiary), some (.error .invalidDifficulty)] := by
  decide +kernel

end Anduschain
