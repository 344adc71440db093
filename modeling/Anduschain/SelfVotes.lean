import Anduschain.Layer2Sealer
import Anduschain.VoteBookkeeping

/-! What Layer2's `Prepare` puts into a header when there is nothing to propose: it leaves the
signer's own address as the coinbase and the zero nonce, which `apply` reads as the signer's
vote to drop itself. -/
namespace Anduschain
open CheckedSteps List

/-- A header made by `Prepare` and `Seal` for a signer without proposals, which the engine `c`
does not know otherwise. -/
def Unproposed (crypto : Crypto) (c : Poa) (header : Header) : Prop :=
  ∃ l chain input draw work, l.Honest crypto ∧ l.proposals = [] ∧
    SealRun l crypto chain input draw work header ∧
    ∀ other, c.sigcache (header.hash crypto) = some other → other = l.signer

def othersOn (votes : List Vote) (address : Address) : ℕ :=
  votes.countP fun vote => vote.address = address ∧ vote.signer ≠ address

/-- No signer who seals one of the blocks is one vote short of being dropped: `pending` counts the
votes of others on each signer, `half` is half of the signers. -/
def Harmless (epoch : UInt64) (half : ℕ) : (Address → ℕ) → List Header → Prop
  | _, [] => True
  | pending, header :: rest =>
    let left := if UInt64.ofNat header.number % epoch = 0 then fun _ => 0 else pending
    left header.coinbase < half ∧ Harmless epoch half left rest

section Production
variable {l : Layer2} {crypto : Crypto} {chain : ChainReader} {input final : Header} {draw : ℕ}
  {work : Assembly}

theorem SealRun.unvoted_header (honest : l.Honest crypto)
    (run : SealRun l crypto chain input draw work final) (none : l.proposals = []) :
    final.coinbase = l.signer ∧ final.nonce = nonceDropVote ∧ extraSeal ≤ final.extra.length := by
  obtain ⟨now, filled, prepared, -, -, preparing, sealing⟩ := run.produced
  have kept (snap : Snapshot) : l.castVote snap draw input = input := by
    simp [Layer2.castVote, Layer2.ballot, none]
  have drawn (header : Header) : (l.drawDifficulty header).coinbase = header.coinbase ∧
      (l.drawDifficulty header).nonce = header.nonce := by
    unfold Layer2.drawDifficulty
    split <;> exact ⟨rfl, rfl⟩
  simp only [Layer2.prepare, kept, ite_self, bind_eq_ok, mapError_eq_ok, orReject_eq_ok, pure,
    Except.pure, Except.ok.injEq] at preparing
  obtain ⟨snap, -, parent, -, rfl⟩ := preparing
  have room : extraSeal ≤ (Layer2.prepareExtra snap (UInt64.ofNat input.number % l.epoch = 0)
      input.extra).length := by
    rw [prepareExtra_length]
    omega
  obtain ⟨-, sig, -, -, full, -, rfl⟩ := seal_ok honest room sealing
  refine ⟨(drawn input).1.trans run.own, (drawn input).2.trans run.unvoted, ?_⟩
  rw [reseal_length room full]
  exact room

theorem Unproposed.selfVote {c : Poa} {header : Header} (unproposed : Unproposed crypto c header) :
    c.ecrecover crypto header = .ok header.coinbase ∧ header.nonce = nonceDropVote := by
  obtain ⟨l, chain, input, draw, work, honest, none, run, uncached⟩ := unproposed
  obtain ⟨coinbase, nonce, room⟩ := run.unvoted_header honest none
  obtain ⟨snap, parent, -, -, -, made⟩ := run.produced_header honest
  rw [coinbase]
  exact ⟨Poa.ecrecover_uncached uncached room made.recovers, nonce⟩

end Production

section SelfVote
variable {crypto : Crypto} {c : Poa} {header : Header}

theorem othersOn_append (pre post : List Vote) (address : Address) :
    othersOn (pre ++ post) address = othersOn pre address + othersOn post address :=
  countP_append

theorem othersOn_self {vote : Vote} (self : vote.signer = vote.address) (address : Address) :
    othersOn [vote] address = 0 := by
  simp only [othersOn, countP_singleton, self]
  rw [if_neg]
  simp

theorem votesOn_eq_othersOn {votes : List Vote} {address : Address}
    (none : ∀ vote ∈ votes, ¬ (vote.signer = address ∧ vote.address = address)) :
    votesOn votes address = othersOn votes address := by
  apply countP_congr
  intro vote member
  have := none vote member
  simp only [decide_eq_true_eq]
  tauto

theorem withdraw_others (s : Poll) (address : Address) :
    othersOn (s.withdraw address address).votes = othersOn s.votes := by
  obtain ⟨unchanged, -⟩ | ⟨pre, vote, post, split, signer, self, changed⟩ :=
    s.withdraw_cases address address
  · rw [unchanged]
  · funext other
    have own := othersOn_self (signer.trans self.symm) other
    rw [changed, split, ← singleton_append]
    simp only [othersOn_append, own, Nat.zero_add]

theorem selfVote_settle {s : Poll} (kept : s.Bookkept) {a : Address} (authorized : a ∈ s.signers)
    (number : UInt64) :
    let t := ((s.withdraw a a).cast number a a false).settle number a
    othersOn s.votes a < s.signers.length / 2 ∧ t.signers = s.signers ∧
        othersOn t.votes = othersOn s.votes ∨
      s.signers.length / 2 ≤ othersOn s.votes a ∧ t.signers = s.signers.erase a := by
  obtain ⟨withdrawn, none⟩ := kept.withdraw a a
  have member : a ∈ (s.withdraw a a).signers := by simpa using authorized
  have counted := withdrawn.cast member none number false
  have valid : (s.withdraw a a).validVote a false = true := validVote_iff.mpr (by simp [authorized])
  have votes : ((s.withdraw a a).cast number a a false).votes =
      (s.withdraw a a).votes ++ [⟨a, number, a, false⟩] := by rw [Poll.cast, if_pos valid]
  have total : votesOn ((s.withdraw a a).cast number a a false).votes a = othersOn s.votes a + 1 := by
    rw [votes, votesOn_append, votesOn_eq_othersOn none, withdraw_others]
    simp [votesOn]
  have others : othersOn ((s.withdraw a a).cast number a a false).votes = othersOn s.votes := by
    funext other
    rw [votes, othersOn_append, withdraw_others, othersOn_self rfl, Nat.add_zero]
  have same : ((s.withdraw a a).cast number a a false).signers = s.signers := by simp
  generalize (s.withdraw a a).cast number a a false = voted at counted total others same ⊢
  have tally : voted.tally a = some ⟨false, othersOn s.votes a + 1⟩ := by
    rw [counted.tally, tallied, total, if_neg (Nat.succ_ne_zero _), same]
    simp [authorized]
  intro t
  by_cases passed : s.signers.length / 2 < othersOn s.votes a + 1
  · have settled : t = (((voted.dropSigner a).forget number).silence a).close a := by
      simp only [t, Poll.settle, tally, same, if_pos passed, Bool.false_eq_true, if_false]
    refine .inr ⟨by omega, ?_⟩
    rw [settled, ← same]
    simp [Poll.close, Poll.silence, Poll.dropSigner]
  · have settled : t = voted := by simp only [t, Poll.settle, tally, same, if_neg passed]
    refine .inl ⟨by omega, ?_, ?_⟩
    · rw [settled, same]
    · rw [settled, others]

theorem selfVote_step {s t : Poll} (kept : s.Bookkept) (self : c.ecrecover crypto header = .ok header.coinbase)
    (drops : header.nonce = nonceDropVote) (applied : c.applyHeader crypto s header = .ok t) :
    t.Bookkept ∧ header.coinbase ∈ s.signers ∧
      (let left := if UInt64.ofNat header.number % c.epoch = 0 then fun _ => 0 else othersOn s.votes
      left header.coinbase < s.signers.length / 2 ∧ t.signers = s.signers ∧ othersOn t.votes = left ∨
        s.signers.length / 2 ≤ left header.coinbase ∧ t.signers = s.signers.erase header.coinbase) := by
  obtain ⟨voted, cast, rfl⟩ := Poa.applyHeader_ok_iff.mp applied
  obtain ⟨counted, same⟩ := kept.ballot cast
  obtain ⟨signer, recovered, authorized, -, -, rfl⟩ := Poa.ballot_ok_iff.mp cast
  obtain rfl : signer = header.coinbase := Except.ok.inj (recovered.symm.trans self)
  refine ⟨counted.settle _ _, authorized, ?_⟩
  have ready := kept.ready c.epoch (UInt64.ofNat header.number) header.coinbase
  have expired : othersOn (((s.expire c.epoch (UInt64.ofNat header.number)).forget
      (UInt64.ofNat header.number)).remember (UInt64.ofNat header.number) header.coinbase).votes =
      if UInt64.ofNat header.number % c.epoch = 0 then fun _ => 0 else othersOn s.votes := by
    simp only [Poll.remember, Poll.forget_votes, Poll.expire]
    split <;> rfl
  have settled := selfVote_settle ready (by simpa [Poll.remember] using authorized)
    (UInt64.ofNat header.number)
  rw [expired] at settled
  have against : decide (header.nonce = nonceAuthVote) = false := by
    rw [drops]
    rfl
  simpa [against, Poll.remember] using settled

theorem selfVotes_shrink {s t : VotingSnapshot} {headers : List Header} (kept : s.Bookkept)
    (own : ∀ header ∈ headers,
      c.ecrecover crypto header = .ok header.coinbase ∧ header.nonce = nonceDropVote)
    (applied : c.apply crypto s headers = .ok t) : t.signers ⊆ s.signers := by
  induction headers generalizing s with
  | nil =>
    cases applied
    exact List.Subset.refl _
  | cons header rest ih =>
    obtain ⟨here, later⟩ := forall_mem_cons.mp own
    obtain ⟨m, first, others⟩ := Poa.apply_cons.mp applied
    obtain ⟨-, poll, stepped, rfl⟩ := Poa.apply_one.mp first
    obtain ⟨next, -, ⟨-, same, -⟩ | ⟨-, fewer⟩⟩ := selfVote_step kept here.1 here.2 stepped
    · exact same ▸ ih next later others
    · intro signer member
      have earlier := ih next later others member
      rw [fewer] at earlier
      exact mem_of_mem_erase earlier

/-- Sealing without proposals leaves the signers alone exactly if every sealer has fewer votes
of others against it than half of the signers. -/
theorem unproposed_signers_iff (crypto : Crypto) (c : Poa) (s t : VotingSnapshot) (kept : s.Bookkept)
    (headers : List Header) (unproposed : ∀ header ∈ headers, Unproposed crypto c header)
    (applied : c.apply crypto s headers = .ok t) :
    t.signers = s.signers ↔
      Harmless c.epoch (s.signers.length / 2) (othersOn s.votes) headers := by
  have own (header : Header) (member : header ∈ headers) := (unproposed header member).selfVote
  clear unproposed
  induction headers generalizing s with
  | nil =>
    cases applied
    exact iff_of_true rfl trivial
  | cons header rest ih =>
    obtain ⟨here, later⟩ := forall_mem_cons.mp own
    obtain ⟨m, first, others⟩ := Poa.apply_cons.mp applied
    obtain ⟨-, poll, stepped, rfl⟩ := Poa.apply_one.mp first
    obtain ⟨next, member, ⟨weak, same, left⟩ | ⟨strong, fewer⟩⟩ :=
      selfVote_step kept here.1 here.2 stepped
    · have remaining := ih _ next others later
      simp only [same, left] at remaining
      exact remaining.trans (and_iff_right weak).symm
    · refine iff_of_false ?_ fun harmless => absurd harmless.1 (Nat.not_lt.mpr strong)
      intro unchanged
      have gone := selfVotes_shrink next later others (unchanged.symm ▸ member)
      rw [fewer, s.distinct.mem_erase_iff] at gone
      exact gone.1 rfl

end SelfVote

section Sample

theorem sampleMinted_unproposed {final : Header} {c : Poa} (empty : c.sigcache = fun _ => none)
    (made : sampleMinted (sampleSealer 30000 (by decide) []) = .ok final) :
    Unproposed sampleKeys c final :=
  ⟨_, _, _, _, _, sampleSealer_honest, rfl, sampleMinted_run made, by simp [empty]⟩

/-- Two signers, one of whom seals a block without a vote. -/
theorem sampleMinted_keeps_signers : ∃ final t,
    sampleMinted (sampleSealer 30000 (by decide) []) = .ok final ∧
    ((sampleSealer 30000 (by decide) []).poa 60).apply sampleKeys (newSnapshot 0 0 [0xfa, 7])
      [final] = .ok t ∧ t.signers = (newSnapshot 0 0 [0xfa, 7]).signers := by
  have accepted : (sampleMinted (sampleSealer 30000 (by decide) [])).map (fun final =>
      (((sampleSealer 30000 (by decide) []).poa 60).apply sampleKeys (newSnapshot 0 0 [0xfa, 7])
        [final]).toBool) = .ok true := by
    decide +kernel
  obtain ⟨final, made, applies⟩ := map_eq_ok.mp accepted
  obtain ⟨t, applied⟩ := exists_ok_of_toBool applies
  refine ⟨final, t, made, applied, (unproposed_signers_iff sampleKeys _ _ t
    (newSnapshot_bookkept 0 0 [0xfa, 7]) [final] ?_ applied).mpr ⟨?_, trivial⟩⟩
  · intro header member
    rw [mem_singleton.mp member]
    exact sampleMinted_unproposed rfl made
  · split <;> exact (by decide : 0 < (newSnapshot 0 0 [0xfa, 7]).signers.length / 2)

/-- The only signer drops itself. -/
theorem sampleMinted_drops_signer :
    (sampleMinted (sampleSealer 30000 (by decide) [])).toOption.map (fun final =>
      (((sampleSealer 30000 (by decide) []).poa 60).apply sampleKeys (newSnapshot 0 0 [0xfa])
        [final]).toOption.map fun t => t.signers) = some (some []) := by
  decide +kernel

end Sample

end Anduschain
