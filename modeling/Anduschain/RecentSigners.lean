import Anduschain.VoteBookkeeping

/-! The recent signers of a snapshot. A block removes one of them and adds its own signer, while
the number of signers, and with it the window, may change by one. -/
namespace Anduschain
open CheckedSteps List

theorem limit_toNat {s : Poll} (small : s.signers.length < 2 ^ 63) :
    (UInt64.ofNat s.limit).toNat = s.limit := by
  rw [UInt64.toNat_ofNat', Poll.limit]
  omega

theorem mem_forget {s : Poll} (small : s.signers.length < 2 ^ 63) {number : UInt64}
    {recent : UInt64 × Address} : recent ∈ (s.forget number).recents ↔
      recent ∈ s.recents ∧ recent.1.toNat + s.limit ≠ number.toNat := by
  have width := limit_toNat small
  simp only [Poll.forget]
  split
  case isTrue late =>
    have room := UInt64.le_iff_toNat_le.mp late
    simp only [mem_filter, decide_eq_true_eq, ne_eq, ← UInt64.toNat_inj,
      UInt64.toNat_sub_of_le _ _ late, width] at room ⊢
    refine and_congr_right fun _ => not_congr ?_
    omega
  case isFalse early =>
    rw [UInt64.le_iff_toNat_le, width] at early
    constructor
    · intro member
      exact ⟨member, by omega⟩
    · exact And.left

theorem mem_remember {s : Poll} {number : UInt64} {signer : Address} {recent : UInt64 × Address} :
    recent ∈ (s.remember number signer).recents ↔
      recent = (number, signer) ∨ recent ∈ s.recents ∧ recent.1 ≠ number := by
  simp [Poll.remember]

section Step
variable {crypto : Crypto} {c : Poa} {header : Header}

structure Rotation (c : Poa) (crypto : Crypto) (header : Header) (s t : Poll) (signer : Address) : Prop where
  recovered : c.ecrecover crypto header = .ok signer
  authorized : signer ∈ s.signers
  rested : c.rule.spaced → ∀ recent ∈ s.recents, recent.2 = signer →
    recent.1.toNat + s.limit = (UInt64.ofNat header.number).toNat
  grown : t.signers.length ≤ s.signers.length + 1
  shrunk : s.signers.length ≤ t.signers.length + 1
  recents : ∀ recent, recent ∈ t.recents ↔
    (recent = (UInt64.ofNat header.number, signer) ∨
      recent ∈ s.recents ∧ recent.1.toNat + s.limit ≠ (UInt64.ofNat header.number).toNat ∧
        recent.1 ≠ UInt64.ofNat header.number) ∧
    (t.signers.length < s.signers.length →
      recent.1.toNat + t.limit ≠ (UInt64.ofNat header.number).toNat)

theorem settle_changes (s : Poll) (number : UInt64) (address : Address) :
    (s.settle number address).toSnapshot = s.toSnapshot ∨
      (s.settle number address).signers = addSigner s.signers address ∧
        (s.settle number address).recents = s.recents ∨
      (s.settle number address).signers = s.signers.erase address ∧
        (s.settle number address).recents = ((s.dropSigner address).forget number).recents := by
  unfold Poll.settle
  split
  case h_1 => exact .inl rfl
  case h_2 tally counted =>
    split
    case isFalse => exact .inl rfl
    case isTrue passed =>
      split
      · exact .inr (.inl ⟨rfl, rfl⟩)
      · exact .inr (.inr ⟨by simp [Poll.close, Poll.silence, Poll.dropSigner], rfl⟩)

theorem settle_window {s : Poll} (small : s.signers.length < 2 ^ 63) {number : UInt64} (address : Address)
    (gone : ∀ recent ∈ s.recents, recent.1.toNat + s.limit ≠ number.toNat) :
    (s.settle number address).signers.length ≤ s.signers.length + 1 ∧
      s.signers.length ≤ (s.settle number address).signers.length + 1 ∧
      ∀ recent, recent ∈ (s.settle number address).recents ↔
        recent ∈ s.recents ∧ ((s.settle number address).signers.length < s.signers.length →
          recent.1.toNat + (s.settle number address).limit ≠ number.toNat) := by
  obtain same | ⟨signers, recents⟩ | ⟨signers, recents⟩ := settle_changes s number address
  · simp [same]
  · have length : (addSigner s.signers address).length = s.signers.length + 1 ∨
        (addSigner s.signers address).length = s.signers.length := by
      by_cases member : address ∈ s.signers
      · exact .inr (by rw [addSigner, if_pos member])
      · exact .inl (length_addSigner member)
    simp only [signers, recents]
    refine ⟨by omega, by omega, fun recent => ?_⟩
    rw [and_iff_left]
    intro fewer
    omega
  · have length := length_erase_le (a := address) (l := s.signers)
    have least := le_length_erase (a := address) (l := s.signers)
    have window : (s.settle number address).limit = (s.dropSigner address).limit := by
      rw [Poll.limit, signers]
      rfl
    simp only [signers, recents, window]
    refine ⟨by omega, by omega, fun recent => ?_⟩
    rw [mem_forget (by simp only [Poll.dropSigner]; omega)]
    refine and_congr_right fun member => ?_
    constructor
    · exact fun apart _ => apart
    · intro apart
      by_cases fewer : (s.signers.erase address).length < s.signers.length
      · exact apart fewer
      · have equal : (s.dropSigner address).limit = s.limit := by
          simp only [Poll.limit, Poll.dropSigner]
          omega
        rw [equal]
        exact gone recent member

theorem Poa.applyHeader_rotation {s t : Poll} (small : s.signers.length < 2 ^ 63)
    (applied : c.applyHeader crypto s header = .ok t) : ∃ signer, Rotation c crypto header s t signer := by
  obtain ⟨voted, cast, rfl⟩ := applyHeader_ok_iff.mp applied
  obtain ⟨signer, recovered, authorized, rested, -, rfl⟩ := ballot_ok_iff.mp cast
  set number := UInt64.ofNat header.number with isNumber
  have ready (recent : UInt64 × Address) :
      recent ∈ ((s.expire c.epoch number).forget number).recents ↔
        recent ∈ s.recents ∧ recent.1.toNat + s.limit ≠ number.toNat := by
    have same : (s.expire c.epoch number).limit = s.limit := by simp [Poll.limit]
    rw [mem_forget (by simpa using small), same, Poll.expire_toSnapshot]
  generalize isVoted : Poll.cast _ number signer header.coinbase _ = voted at cast ⊢
  have votedSigners : voted.signers = s.signers := by
    rw [← isVoted]
    simp [Poll.remember]
  have votedRecents (recent : UInt64 × Address) : recent ∈ voted.recents ↔
      recent = (number, signer) ∨ recent ∈ s.recents ∧
        recent.1.toNat + s.limit ≠ number.toNat ∧ recent.1 ≠ number := by
    rw [← isVoted]
    simp only [Poll.cast_toSnapshot, Poll.withdraw_toSnapshot, mem_remember, ready, and_assoc]
  have window : voted.limit = s.limit := by rw [Poll.limit, Poll.limit, votedSigners]
  have gone (recent : UInt64 × Address) (member : recent ∈ voted.recents) :
      recent.1.toNat + voted.limit ≠ number.toNat := by
    rw [window]
    rcases (votedRecents recent).mp member with rfl | ⟨-, apart, -⟩
    · simp only [Poll.limit]
      omega
    · exact apart
  obtain ⟨grown, shrunk, recents⟩ := settle_window (votedSigners ▸ small) header.coinbase gone
  simp only [votedSigners, votedRecents] at grown shrunk recents
  refine ⟨signer, recovered, authorized, ?_, grown, shrunk, recents⟩
  intro spaced recent member same
  by_contra apart
  exact rested spaced (mem_map.mpr ⟨recent, (ready recent).mpr ⟨member, apart⟩, same⟩)

theorem Poa.apply_rotation {s t : VotingSnapshot} {n : ℕ} (small : s.signers.length < 2 ^ 63)
    (height : s.number = UInt64.ofNat n) (low : n + 1 < 2 ^ 64)
    (applied : c.apply crypto s [header] = .ok t) :
    (UInt64.ofNat header.number).toNat = n + 1 ∧
      ∃ signer, Rotation c crypto header s.toPoll t.toPoll signer := by
  obtain ⟨number, poll, stepped, rfl⟩ := apply_one.mp applied
  refine ⟨?_, applyHeader_rotation small stepped⟩
  rw [number, height, UInt64.toNat_add, UInt64.toNat_ofNat', UInt64.toNat_one]
  omega

end Step

theorem length_foldl_addSigner (known signers : List Address) :
    (signers.foldl addSigner known).length ≤ known.length + signers.length := by
  induction signers generalizing known with
  | nil => exact Nat.le_refl _
  | cons signer rest ih =>
    have one : (addSigner known signer).length ≤ known.length + 1 := by
      by_cases member : signer ∈ known
      · rw [addSigner, if_pos member]
        omega
      · rw [length_addSigner member]
    have := ih (addSigner known signer)
    rw [foldl_cons, length_cons]
    omega

section Heights
variable {crypto : Crypto} {c : Poa} {signers : List Address}

/-- At height `n` the recent signers are among those of the last blocks. -/
structure Recent (base n : ℕ) (s : VotingSnapshot) : Prop where
  few : s.signers.length ≤ base + n
  past : ∀ recent ∈ s.recents, recent.1.toNat ≤ n ∧ n + 1 ≤ recent.1.toNat + s.limit

theorem Reached.number {n : ℕ} {s : VotingSnapshot} (reached : Reached crypto c signers n s) :
    s.number = UInt64.ofNat n := by
  induction reached with
  | genesis hash => rfl
  | apply sigcache headers _ applied ih => rw [Poa.apply_number applied, ih, UInt64.ofNat_add]

theorem Reached.recent {n : ℕ} {s : VotingSnapshot} (reached : Reached crypto c signers n s)
    (bounded : signers.length + n < 2 ^ 63) : Recent signers.length n s := by
  have genesis (hash : Hash) (_ : signers.length + 0 < 2 ^ 63) :
      Recent signers.length 0 (newSnapshot 0 hash signers) :=
    ⟨(length_foldl_addSigner [] signers).trans (by simp), nofun⟩
  have step (sigcache : Hash → Option Address) (n : ℕ) (s : VotingSnapshot) (header : Header)
      (t : VotingSnapshot) (before : signers.length + n < 2 ^ 63 → Recent signers.length n s)
      (height : s.number = UInt64.ofNat n)
      (applied : { c with sigcache }.apply crypto s [header] = .ok t)
      (bounded : signers.length + (n + 1) < 2 ^ 63) : Recent signers.length (n + 1) t := by
    obtain ⟨few, past⟩ := before (by omega)
    obtain ⟨number, signer, rotation⟩ := Poa.apply_rotation (by omega) height (by omega) applied
    have grown := rotation.grown
    have shrunk := rotation.shrunk
    refine ⟨by omega, ?_⟩
    intro recent member
    obtain ⟨origin, left⟩ := (rotation.recents recent).mp member
    rw [number] at origin left
    simp only [Poll.limit] at past origin left ⊢
    rcases origin with rfl | ⟨old, apart, -⟩
    · simp only [number]
      omega
    · have := past recent old
      omega
  exact (Reached.induct genesis step reached).1 bounded

theorem Poa.apply_accepts_iff {s : VotingSnapshot} {header : Header} (small : s.signers.length < 2 ^ 63)
    (next : UInt64.ofNat header.number = s.number + 1)
    (vote : header.nonce = nonceAuthVote ∨ header.nonce = nonceDropVote) :
    (∃ t, c.apply crypto s [header] = .ok t) ↔
      ∃ signer, c.ecrecover crypto header = .ok signer ∧ signer ∈ s.signers ∧
        (c.rule.spaced → ∀ recent ∈ s.recents, recent.2 = signer →
          recent.1.toNat + s.limit = (UInt64.ofNat header.number).toNat) := by
  constructor
  · rintro ⟨t, applied⟩
    obtain ⟨-, poll, stepped, rfl⟩ := apply_one.mp applied
    obtain ⟨signer, rotation⟩ := applyHeader_rotation small stepped
    exact ⟨signer, rotation.recovered, rotation.authorized, rotation.rested⟩
  · rintro ⟨signer, recovered, authorized, rested⟩
    refine ⟨_, apply_one.mpr ⟨next, _, applyHeader_ok_iff.mpr
      ⟨_, ballot_ok_iff.mpr ⟨signer, recovered, authorized, ?_, vote, rfl⟩, rfl⟩, rfl⟩⟩
    intro spaced member
    obtain ⟨recent, kept, same⟩ := mem_map.mp member
    have window : (s.expire c.epoch (UInt64.ofNat header.number)).limit = s.limit := by
      simp [Poll.limit]
    rw [mem_forget (by simpa using small), window, Poll.expire_toSnapshot] at kept
    exact kept.2 (rested spaced recent kept.1 same)

theorem Poa.verifySeal_accepts_iff {snap : Snapshot} {header : Header} (clique : c.rule = .clique) :
    { c with fakeDiff := true }.verifySeal crypto snap header = .ok () ↔
      UInt64.ofNat header.number ≠ 0 ∧
        ∃ signer, c.ecrecover crypto header = .ok signer ∧ signer ∈ snap.signers ∧
          ∀ recent ∈ snap.recents, recent.2 = signer →
            recent.1 ≤ UInt64.ofNat header.number - UInt64.ofNat (snap.signers.length / 2 + 1) := by
  simp only [verifySeal, checkTurn, clique, bind_eq_ok, exists_unit, rejectIf_eq_ok, not_not,
    Bool.not_true, Bool.false_and, Bool.false_eq_true, not_false_eq_true, and_true, any_eq_true,
    not_exists, not_and, Bool.and_eq_true, beq_iff_eq, decide_eq_true_eq, UInt64.not_lt, ne_eq]
  exact Iff.rfl

/-- Verifying a header's signer and replaying the header agree exactly if the signer is not
among the recent ones while the block's number is below the window. -/
theorem verifySeal_agrees_iff (crypto : Crypto) (c : Poa) (clique : c.rule = .clique) (n : ℕ)
    (s : VotingSnapshot) (reached : Reached crypto c signers n s)
    (bounded : signers.length + n + 1 < 2 ^ 63) (sigcache : Hash → Option Address) (header : Header)
    (next : UInt64.ofNat header.number = s.number + 1)
    (vote : header.nonce = nonceAuthVote ∨ header.nonce = nonceDropVote) :
    ({ c with fakeDiff := true, sigcache }.verifySeal crypto s.toSnapshot header = .ok () ↔
      ∃ t, { c with sigcache }.apply crypto s [header] = .ok t) ↔
    ∀ signer, { c with sigcache }.ecrecover crypto header = .ok signer → signer ∈ s.signers →
      signer ∈ s.recents.map Prod.snd → s.limit ≤ (UInt64.ofNat header.number).toNat := by
  obtain ⟨few, past⟩ := reached.recent (by omega)
  have small : s.signers.length < 2 ^ 63 := by omega
  have height : (UInt64.ofNat header.number).toNat = n + 1 := by
    rw [next, reached.number, UInt64.toNat_add, UInt64.toNat_ofNat', UInt64.toNat_one]
    omega
  have positive : UInt64.ofNat header.number ≠ 0 := by
    rw [← UInt64.toNat_inj.ne, height]
    exact Nat.succ_ne_zero n
  generalize engine : ({ c with sigcache } : Poa) = e
  have rule : e.rule = .clique := by rw [← engine, clique]
  have flagged : ({ c with fakeDiff := true, sigcache } : Poa) = { e with fakeDiff := true } := by
    rw [← engine]
  rw [flagged, Poa.verifySeal_accepts_iff rule, Poa.apply_accepts_iff small next vote]
  simp only [positive, ne_eq, not_false_eq_true, true_and, rule, PoaRule.spaced, true_imp_iff, height]
  -- how the two rules read a recent block of the signer
  have window := limit_toNat small
  have verified (recent : UInt64 × Address) (member : recent ∈ s.recents) :
      recent.1 ≤ UInt64.ofNat header.number - UInt64.ofNat s.limit ↔
        s.limit ≤ n + 1 → recent.1.toNat + s.limit = n + 1 := by
    have := past recent member
    have wide : s.limit ≤ 2 ^ 63 := by
      simp only [Poll.limit]
      omega
    rw [UInt64.le_iff_toNat_le, UInt64.toNat_sub, height, window]
    omega
  cases recovered : e.ecrecover crypto header with
  | error err => simp
  | ok signer =>
    by_cases authorized : signer ∈ s.signers
    · simp only [Except.ok.injEq, exists_eq_left', forall_eq', authorized, true_and, true_imp_iff]
      constructor
      · intro agree listed
        obtain ⟨recent, member, same⟩ := mem_map.mp listed
        by_contra low
        have replayed := agree.mp fun other known _ => (verified other known).mpr fun high => absurd high low
        have := replayed recent member same
        omega
      · intro late
        refine forall_congr' fun recent => forall_congr' fun member => forall_congr' fun same => ?_
        have high := late (mem_map.mpr ⟨recent, member, same⟩)
        rw [← Poll.limit, verified recent member]
        exact ⟨fun rule => rule high, fun equal _ => equal⟩
    · simp [authorized]

theorem sampleVoteHeader_agrees :
    { samplePoa .clique with fakeDiff := true }.verifySeal sampleCrypto
        (newSnapshot 0 0 [1, 2, 3, 4]).toSnapshot (sampleVoteHeader 1 1 0 0) = .ok () ↔
      ∃ t, (samplePoa .clique).apply sampleCrypto (newSnapshot 0 0 [1, 2, 3, 4])
        [sampleVoteHeader 1 1 0 0] = .ok t :=
  (verifySeal_agrees_iff sampleCrypto (samplePoa .clique) rfl 0 _ (.genesis 0) (by decide) _ _
    (by decide) (.inr rfl)).mpr fun _ _ _ never => absurd never not_mem_nil

/-- Four signers, of whom one seals the first two blocks. -/
theorem sampleVoteHeader_replay_fails :
    ((samplePoa .clique).apply sampleCrypto (newSnapshot 0 0 [1, 2, 3, 4])
      [sampleVoteHeader 1 1 0 0]).toOption.map (fun s =>
        ((samplePoa .clique).verifySeal sampleCrypto s.toSnapshot (sampleVoteHeader 2 1 0 0),
          ((samplePoa .clique).apply sampleCrypto s [sampleVoteHeader 2 1 0 0]).toOption.isSome)) =
      some (.ok (), false) := by
  decide +kernel

/-- The signer of block `m` is known at height `n` as long as it has to wait. -/
structure Waiting (base m : ℕ) (signer : Address) (n : ℕ) (s : VotingSnapshot) : Prop where
  since : m ≤ n
  few : s.signers.length ≤ base + n
  recent : n + 2 ≤ m + s.limit → (UInt64.ofNat m, signer) ∈ s.recents

theorem Waiting.apply {base m n : ℕ} {signer : Address} {s t : VotingSnapshot} {headers : List Header}
    (waiting : Waiting base m signer n s) (height : s.number = UInt64.ofNat n)
    (bounded : base + (n + headers.length) < 2 ^ 63) (applied : c.apply crypto s headers = .ok t) :
    Waiting base m signer (n + headers.length) t ∧ t.number = UInt64.ofNat (n + headers.length) := by
  have step (n : ℕ) (s : VotingSnapshot) (header : Header) (t : VotingSnapshot)
      (before : base + n < 2 ^ 63 → Waiting base m signer n s) (height : s.number = UInt64.ofNat n)
      (applied : c.apply crypto s [header] = .ok t) (bounded : base + (n + 1) < 2 ^ 63) :
      Waiting base m signer (n + 1) t := by
    obtain ⟨since, few, recent⟩ := before (by omega)
    obtain ⟨number, sealer, rotation⟩ := Poa.apply_rotation (by omega) height (by omega) applied
    have grown := rotation.grown
    have same : (UInt64.ofNat m).toNat = m := by
      rw [UInt64.toNat_ofNat', Nat.mod_eq_of_lt (by omega)]
    refine ⟨by omega, by omega, fun wait => (rotation.recents _).mpr ⟨.inr ⟨recent ?_, ?_, ?_⟩, ?_⟩⟩
    · simp only [Poll.limit] at wait ⊢
      omega
    · simp only [Poll.limit, same, number] at wait ⊢
      omega
    · rw [← UInt64.toNat_inj.ne, same, number]
      omega
    · rw [same, number]
      omega
  have ran := Poa.apply_induct step (fun _ => waiting) height applied
  exact ⟨ran.1 bounded, ran.2⟩

/-- Two blocks of one signer are apart by more than half of the signers that there are before
the second one. -/
theorem sealers_spaced (crypto : Crypto) (c : Poa) (clique : c.rule = .clique) (hash : Hash)
    (signers : List Address) (before between after : List Header) (earlier later : Header)
    (fits : signers.length + (before ++ earlier :: between ++ later :: after).length < 2 ^ 63)
    (accepted : ∃ t, c.apply crypto (newSnapshot 0 hash signers)
      (before ++ earlier :: between ++ later :: after) = .ok t)
    (signer : Address) (first : c.ecrecover crypto earlier = .ok signer)
    (second : c.ecrecover crypto later = .ok signer) :
    ∃ s, c.apply crypto (newSnapshot 0 hash signers) (before ++ earlier :: between) = .ok s ∧
      s.signers.length / 2 + 1 ≤
        (UInt64.ofNat later.number).toNat - (UInt64.ofNat earlier.number).toNat := by
  obtain ⟨t, applied⟩ := accepted
  obtain ⟨s, prior, rest⟩ := Poa.apply_append.mp applied
  refine ⟨s, prior, ?_⟩
  obtain ⟨u, next, -⟩ := Poa.apply_cons.mp rest
  obtain ⟨a, low, others⟩ := Poa.apply_append.mp prior
  obtain ⟨b, one, middle⟩ := Poa.apply_cons.mp others
  simp only [length_append, length_cons] at fits
  have reached : Reached crypto c signers (0 + before.length) a :=
    .apply c.sigcache before (.genesis hash) low
  rw [Nat.zero_add] at reached
  have height : a.number = UInt64.ofNat before.length :=
    (Poa.apply_number low).trans (UInt64.zero_add _)
  have few := (reached.recent (by omega)).few
  obtain ⟨number, sealer, rotation⟩ := Poa.apply_rotation (by omega) height (by omega) one
  obtain rfl : sealer = signer := Except.ok.inj (rotation.recovered.symm.trans first)
  have numbered : UInt64.ofNat earlier.number = UInt64.ofNat (before.length + 1) := by
    rw [← UInt64.toNat_inj, number, UInt64.toNat_ofNat', Nat.mod_eq_of_lt (by omega)]
  have start : Waiting signers.length (before.length + 1) sealer (before.length + 1) b := by
    have grown := rotation.grown
    refine ⟨Nat.le_refl _, by omega, fun _ => (rotation.recents _).mpr ⟨.inl ?_, ?_⟩⟩
    · rw [numbered]
    · rw [← numbered, number]
      simp only [Poll.limit]
      omega
  have risen : b.number = UInt64.ofNat (before.length + 1) := by
    rw [Poa.apply_number one, height, UInt64.ofNat_add]
    rfl
  obtain ⟨waiting, top⟩ := start.apply risen (by omega) middle
  have bound := waiting.few
  obtain ⟨last, sealer', rotation'⟩ := Poa.apply_rotation (by omega) top (by omega) next
  obtain rfl : sealer' = sealer := Except.ok.inj (rotation'.recovered.symm.trans second)
  rw [last, number]
  by_contra close
  have member := waiting.recent (by simp only [Poll.limit]; omega)
  have rested := rotation'.rested (by rw [clique]; rfl) _ member rfl
  rw [← numbered, number, last] at rested
  simp only [Poll.limit] at rested
  omega

theorem sampleVoteHeader_spaced : ∃ s, (samplePoa .clique).apply sampleCrypto (newSnapshot 0 0 [1, 2])
      [sampleVoteHeader 1 1 0 0, sampleVoteHeader 2 2 0 0] = .ok s ∧ s.signers.length / 2 + 1 ≤ 3 - 1 :=
  sealers_spaced sampleCrypto (samplePoa .clique) rfl 0 [1, 2] [] [sampleVoteHeader 2 2 0 0] []
    (sampleVoteHeader 1 1 0 0) (sampleVoteHeader 3 1 0 0) (by decide)
    (exists_ok_of_toBool (by decide +kernel)) 1 (by decide +kernel) (by decide +kernel)

end Heights

end Anduschain
