import Anduschain.Layer2Sealer

/-! Sealing under the Sse engine (consensus/sse/sse.go): `Prepare`, `Seal`, and which of the
headers they produce the verifier of the same chain accepts. -/
namespace Anduschain
open ByteOrder CheckedSteps List

structure Sse where
  epoch : UInt64
  period : UInt64
  fakeDiff : Bool
  proposals : List (Address × Bool)
  signer : Address
  xor : Bytes → Bytes → Bytes
  signFn : Hash → Except String Bytes
  snapshot : UInt64 → Hash → List Header → Except String Snapshot
  sigcache : Hash → Option Address
  epochSet : epoch ≠ 0

namespace Sse
variable (l : Sse)

def poa (now : ℤ) : Poa where
  rule := .sse l.xor
  epoch := l.epoch
  period := l.period
  fakeDiff := l.fakeDiff
  now
  snapshot := l.snapshot
  sigcache := l.sigcache

/-- The vote is about the coinbase, whatever is proposed. -/
def voteNonce (snap : Snapshot) (checkpoint : Bool) (coinbase : Address) : UInt64 :=
  if checkpoint || (l.proposals.filter fun p => snap.validVote p.1 p.2).isEmpty then 0
  else if l.proposals.lookup coinbase = some true then nonceAuthVote else nonceDropVote

def prepare (chain : ChainReader) (now : ℤ) (header : Header) : Except PoaError Header := do
  let number := UInt64.ofNat header.number
  let snap ← (l.snapshot (number - 1) header.parentHash []).mapError .snapshot
  let checkpoint : Bool := number % l.epoch = 0
  let parent ← orReject (chain.getHeader header.parentHash (number - 1).toNat) .unknownAncestor
  let time := parent.time + l.period.toNat
  return { header with
    nonce := l.voteNonce snap checkpoint header.coinbase
    difficulty := calcDifficulty l.xor header.number l.signer
    extra := Layer2.prepareExtra snap checkpoint header.extra
    time := if asInt64 time < now then now.toNat else time }

end Sse

variable (l : Sse) (crypto : Crypto)

/-- `Seal`; a signer of a recent block waits. -/
def Sse.seal (filled : Bool) (header : Header) :
    Except SealError Header := do
  let number := UInt64.ofNat header.number
  rejectIf (number = 0) (.engine .unknownBlock)
  rejectIf (l.period = 0 ∧ !filled) .paused
  let snap ← (l.snapshot (number - 1) header.parentHash []).mapError fun msg => .engine (.snapshot msg)
  rejectIf (l.signer ∉ snap.signers) (.engine .unauthorizedSigner)
  let limit := UInt64.ofNat (snap.signers.length / 2 + 1)
  rejectIf (snap.recents.any fun recent =>
    recent.2 == l.signer && (number < limit || number - limit < recent.1)) .mustWait
  let sighash ← (l.signFn (sealHash crypto header)).mapError .signing
  return header.reseal (sighash.take extraSeal ++ header.seal.drop sighash.length)

def SseRun (chain : ChainReader) (header : Header) (work : Assembly)
    (final : Header) : Prop :=
  ∃ now filled prepared, 0 ≤ now ∧ now < 2 ^ 63 ∧ l.prepare chain now header = .ok prepared ∧
    l.seal crypto filled (work.onto prepared) = .ok final

def Sse.Honest : Prop :=
  ∀ digest sig, l.signFn digest = .ok sig →
    sig.length = extraSeal ∧ crypto.sigToAddr digest sig = .ok l.signer

structure SseSealable (l : Sse) (crypto : Crypto) (chain : ChainReader) (header : Header)
    (work : Assembly) (final : Header) : Prop where
  beneficiary : UInt64.ofNat header.number % l.epoch = 0 → header.coinbase = 0
  difficulty : calcDifficulty l.xor header.number l.signer =
    calcDifficulty l.xor header.number header.coinbase
  clock : ∀ parent, chain.getHeader header.parentHash (UInt64.ofNat header.number - 1).toNat = some parent →
    (UInt64.ofNat parent.time + l.period).toNat < 2 ^ 63
  gasLimit : header.gasLimit.toNat ≤ maxGasLimit
  gasUsed : work.gasUsed ≤ header.gasLimit
  unpinned : chain.config.eip150Block = some header.number → chain.config.eip150Hash ≠ 0 →
    chain.config.eip150Hash = final.hash crypto

section Sealing
variable {l : Sse} {crypto : Crypto} {chain : ChainReader} {header final : Header} {work : Assembly}

def Sse.filled (l : Sse) (header : Header) (work : Assembly) (snap : Snapshot) (time : ℕ) : Header :=
  work.onto { header with
    nonce := l.voteNonce snap (UInt64.ofNat header.number % l.epoch = 0) header.coinbase
    difficulty := calcDifficulty l.xor header.number l.signer
    extra := Layer2.prepareExtra snap (UInt64.ofNat header.number % l.epoch = 0) header.extra
    time }

theorem Sse.filled_room (l : Sse) (header : Header) (work : Assembly) (snap : Snapshot) (time : ℕ) :
    (l.filled header work snap time).extra.length = extraVanity +
      (if UInt64.ofNat header.number % l.epoch = 0 then snap.signers.flatMap addressBytes else []).length +
        extraSeal := by
  simp only [filled, Assembly.onto, prepareExtra_length, decide_eq_true_eq]

theorem Sse.seal_fits (snap : Snapshot) (time : ℕ) :
    extraSeal ≤ (l.filled header work snap time).extra.length := by
  rw [Sse.filled_room]
  omega

theorem prepareExtra_signers (snap : Snapshot) (checkpoint : Bool) (extra : Bytes) :
    ((Layer2.prepareExtra snap checkpoint extra).take
      ((Layer2.prepareExtra snap checkpoint extra).length - extraSeal)).drop extraVanity =
      if checkpoint then snap.signers.flatMap addressBytes else [] := by
  have vanity : ((extra ++ List.replicate (extraVanity - extra.length) 0).take extraVanity).length =
      extraVanity := by
    simp only [length_take, length_append, length_replicate]
    omega
  rw [prepareExtra_length, Nat.add_sub_cancel, Layer2.prepareExtra, append_assoc,
    ← append_assoc, take_left' (by rw [length_append, vanity]),
    drop_left' vanity]

theorem length_flatMap_addressBytes (signers : List Address) :
    (signers.flatMap addressBytes).length = signers.length * addressLength := by
  induction signers with
  | nil => rfl
  | cons signer rest ih =>
    rw [flatMap_cons, length_append, ih, addressBytes, beFixed_length, length_cons,
      Nat.succ_mul, Nat.add_comm]
    rfl

theorem SseRun.made (honest : l.Honest crypto) (run : SseRun l crypto chain header work final) :
    UInt64.ofNat header.number ≠ 0 ∧ ∃ snap parent now sig,
      l.snapshot (UInt64.ofNat header.number - 1) header.parentHash [] = .ok snap ∧
      chain.getHeader header.parentHash (UInt64.ofNat header.number - 1).toNat = some parent ∧
      l.signer ∈ snap.signers ∧
      (∀ recent ∈ snap.recents, recent.2 = l.signer →
        recent.1 ≤ UInt64.ofNat header.number - UInt64.ofNat (snap.signers.length / 2 + 1)) ∧
      0 ≤ now ∧ now < 2 ^ 63 ∧ sig.length = extraSeal ∧
      final = (l.filled header work snap (if asInt64 (parent.time + l.period.toNat) < now then now.toNat
        else parent.time + l.period.toNat)).reseal sig ∧
      crypto.sigToAddr (sealHash crypto final) sig = .ok l.signer := by
  obtain ⟨now, filled, prepared, since, until', preparing, sealing⟩ := run
  simp only [Sse.prepare, bind_eq_ok, mapError_eq_ok, orReject_eq_ok, pure, Except.pure,
    Except.ok.injEq] at preparing
  obtain ⟨snap, taken, parent, found, rfl⟩ := preparing
  simp only [Sse.seal, bind_eq_ok, exists_unit, rejectIf_eq_ok, mapError_eq_ok, not_not, pure,
    Except.pure, Except.ok.injEq] at sealing
  obtain ⟨numbered, -, again, retaken, authorized, rested, sig, signed, rfl⟩ := sealing
  obtain rfl : snap = again := Except.ok.inj (taken.symm.trans retaken)
  obtain ⟨full, recovers⟩ := honest _ _ signed
  have room := @Sse.seal_fits l header work snap
    (if asInt64 (parent.time + l.period.toNat) < now then now.toNat else parent.time + l.period.toNat)
  have copied := copy_seal room full
  refine ⟨numbered, snap, parent, now, sig, taken, found, authorized, ?_, since, until', full,
    congrArg (Header.reseal _) copied, ?_⟩
  · intro recent member own
    by_contra late
    refine rested (any_eq_true.mpr ⟨recent, member, ?_⟩)
    rw [own, BEq.rfl, Bool.true_and, Bool.or_eq_true]
    exact .inr (decide_eq_true (UInt64.not_le.mp late))
  · exact (congrArg (crypto.sigToAddr · sig) ((congrArg (sealHash crypto)
      (congrArg (Header.reseal _) copied)).trans (sealHash_reseal room full))).trans recovers

/-- An honest sealer's header is accepted exactly if a checkpoint has no beneficiary, the
beneficiary gives the difficulty that the signer gives, and the limits of time, gas and the fixed
fork hash are kept. -/
theorem sse_sealer_accepted_iff (honest : l.Honest crypto) (coherent : chain.Coherent crypto)
    (run : SseRun l crypto chain header work final) {now : ℤ} (reached : asInt64 final.time ≤ now)
    (uncached : ∀ other, l.sigcache (final.hash crypto) = some other → other = l.signer) :
    (l.poa now).verifyHeader crypto chain final [] = .ok () ↔
      SseSealable l crypto chain header work final := by
  obtain ⟨numbered, snap, parent, clock, sig, taken, found, authorized, rested, since, until', full,
    made, recovers⟩ := run.made honest
  have fields : final.number = header.number ∧ final.coinbase = header.coinbase ∧
      final.parentHash = header.parentHash ∧ final.gasLimit = header.gasLimit ∧
      final.gasUsed = work.gasUsed ∧ final.difficulty = calcDifficulty l.xor header.number l.signer ∧
      final.nonce = l.voteNonce snap (UInt64.ofNat header.number % l.epoch = 0) header.coinbase := by
    rw [made]
    exact ⟨rfl, rfl, rfl, rfl, rfl, rfl, rfl⟩
  obtain ⟨position, coinbase, parentHash, gasLimit, gasUsed, difficulty, nonce⟩ := fields
  have anchor := (coherent.parent_iff (parentHash ▸ position ▸ found)).trans
    (prepared_time_iff since until' (by rw [made]; rfl))
  have length : final.extra.length = extraVanity +
      (if UInt64.ofNat header.number % l.epoch = 0 then snap.signers.flatMap addressBytes else []).length +
        extraSeal := by
    rw [made, reseal_length (Sse.seal_fits snap _) full, Sse.filled_room]
  have written : final.seal = sig := by rw [made, seal_reseal (Sse.seal_fits snap _) full]
  rw [Poa.verifyHeader_iff (position ▸ numbered)]
  simp only [Poa.checkDifficulty, Poa.checkTurn, Sse.poa, position, numbered, if_false, rejectIf_eq_ok,
    not_not, coinbase, difficulty, bind_eq_ok, exists_unit]
  constructor
  · rintro ⟨fielded, drawn, fork, snap', signer', anchored, -⟩
    refine ⟨fun checkpoint => ?_, drawn, ?_, gasLimit ▸ fielded.gasLimit, ?_, ?_⟩
    · exact coinbase.symm.trans (fielded.beneficiary (position ▸ checkpoint))
    · intro same again
      obtain rfl : parent = same := Option.some.inj (found.symm.trans again)
      exact anchor.mp anchored.parent
    · rw [← gasUsed, ← gasLimit]
      exact fielded.gasUsed
    · rw [← position]
      exact forkHashes_iff.mp fork
  · intro sealable
    refine ⟨⟨reached, ?_, ?_, ?_, ?_, ?_, ?_, gasLimit ▸ sealable.gasLimit, ?_⟩, sealable.difficulty, ?_,
      snap, l.signer, ⟨anchor.mpr (sealable.clock parent found), ?_, ?_⟩, ?_, authorized, ?_, ?_⟩
    · rw [position, coinbase]
      exact sealable.beneficiary
    · rw [nonce, Sse.voteNonce]
      split
      · exact .inr rfl
      · split
        · exact .inl rfl
        · exact .inr rfl
    · intro checkpoint
      rw [position] at checkpoint
      rw [nonce, Sse.voteNonce, decide_eq_true checkpoint]
      rfl
    · rw [length]
      omega
    · intro ordinary
      rw [position] at ordinary
      rw [length, if_neg ordinary]
      rfl
    · intro checkpoint
      rw [position] at checkpoint
      rw [length, if_pos checkpoint, length_flatMap_addressBytes, Nat.add_assoc, Nat.add_sub_cancel_left,
        Nat.add_sub_cancel, Nat.mul_mod_left]
    · rw [gasUsed, gasLimit]
      exact sealable.gasUsed
    · rw [forkHashes_iff, position]
      exact sealable.unpinned
    · rw [position, parentHash]
      exact taken
    · intro checkpoint
      rw [position] at checkpoint
      rw [made, reseal_take (Sse.seal_fits snap _) full]
      refine (prepareExtra_signers snap _ header.extra).trans ?_
      rw [decide_eq_true checkpoint]
      rfl
    · exact Poa.ecrecover_uncached uncached (by rw [length]; omega) (written ▸ recovers)
    · rw [any_eq_true]
      rintro ⟨recent, member, early⟩
      rw [Bool.and_eq_true, beq_iff_eq, decide_eq_true_eq] at early
      exact absurd early.2 (UInt64.not_lt.mpr (rested recent member early.1))
    · simp [sealable.difficulty]

end Sealing

def sampleSse (epoch : UInt64) (epochSet : epoch ≠ 0) : Sse where
  epoch
  period := 5
  fakeDiff := false
  proposals := [(5, true)]
  signer := 0xfa
  xor num signer := (List.zipWith (· ^^^ ·) num signer ++ [0, 0, 0, 0]).take 4
  signFn digest := .ok (sampleSeal digest 0xfa)
  snapshot _ _ _ := .ok { signers := [0xfa], recents := [] }
  sigcache _ := none
  epochSet

def sampleSseMinted : Except SealError Header := do
  let prepared ← (l.prepare sampleLayer2Chain 50 sampleUnsealed).mapError .engine
  l.seal sampleKeys true (sampleWork.onto prepared)

theorem sampleSseMinted_accepted : ∃ final, sampleSseMinted (sampleSse 30000 (by decide)) = .ok final ∧
    ((sampleSse 30000 (by decide)).poa 60).verifyHeader sampleKeys sampleLayer2Chain final [] = .ok () := by
  have time : (sampleSseMinted (sampleSse 30000 (by decide))).map Header.time = .ok 50 := by
    decide +kernel
  obtain ⟨final, made, isTime⟩ := map_eq_ok.mp time
  have run : SseRun (sampleSse 30000 (by decide)) sampleKeys sampleLayer2Chain sampleUnsealed sampleWork
      final := by
    simp only [sampleSseMinted, bind_eq_ok, mapError_eq_ok] at made
    obtain ⟨prepared, preparing, sealing⟩ := made
    exact ⟨50, true, prepared, by decide, by decide, preparing, sealing⟩
  refine ⟨final, made, (sse_sealer_accepted_iff ?_ sampleLayer2Chain_coherent run
    (by rw [isTime]; decide) (by rintro _ ⟨⟩)).mpr ⟨fun checkpoint => absurd checkpoint (by decide), rfl, ?_,
      by decide, by decide, by rintro ⟨⟩⟩⟩
  · intro digest sig signed
    obtain rfl := Except.ok.inj signed
    exact sampleKeys_seal digest 0xfa
  · intro parent found
    simp only [sampleLayer2Chain] at found
    split at found
    · obtain rfl := Option.some.inj found
      decide
    · cases found

theorem sampleSseMinted_refused :
    (sampleSseMinted (sampleSse 1 (by decide))).toOption.map (fun final =>
      ((sampleSse 1 (by decide)).poa 60).verifyHeader sampleKeys sampleLayer2Chain final []) =
    some (.error .invalidCheckpointBeneficiary) := by
  decide +kernel

end Anduschain
