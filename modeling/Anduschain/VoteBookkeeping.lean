import Anduschain.PoaSnapshot

/-! The votes of a snapshot and their tally: what `apply` keeps of them at every height. -/
namespace Anduschain
open CheckedSteps List Function

/-- The tally that a number of votes on each address amounts to: votes are only for what is not
the case. -/
def tallied (signers : List Address) (count : Address → ℕ) : Address → Option Tally := fun address =>
  if count address = 0 then none
  else some { authorize := address ∉ signers, votes := count address }

def votesOn (votes : List Vote) (address : Address) : ℕ := votes.countP fun vote => vote.address = address

structure Poll.Bookkept (s : Poll) : Prop where
  once : (s.votes.map fun vote => (vote.signer, vote.address)).Nodup
  signed : ∀ vote ∈ s.votes, vote.signer ∈ s.signers
  sensible : ∀ vote ∈ s.votes, vote.authorize = decide (vote.address ∉ s.signers)
  tally : s.tally = tallied s.signers (votesOn s.votes)

@[simp] theorem votesOn_nil (address : Address) : votesOn [] address = 0 := rfl

theorem votesOn_append (pre post : List Vote) (address : Address) :
    votesOn (pre ++ post) address = votesOn pre address + votesOn post address :=
  countP_append

theorem votesOn_cons (vote : Vote) (votes : List Vote) (address : Address) :
    votesOn (vote :: votes) address = votesOn votes address + if vote.address = address then 1 else 0 := by
  simp [votesOn, countP_cons]

variable {signers : List Address} {address : Address}

theorem uncast_tallied {count less : Address → ℕ}
    (one : count address = less address + 1) (others : ∀ a ≠ address, count a = less a) :
    uncast (tallied signers count) address (decide (address ∉ signers)) = tallied signers less := by
  have here : tallied signers count address =
      some { authorize := address ∉ signers, votes := less address + 1 } := by
    rw [tallied, if_neg (by omega), one]
  rw [uncast, here]
  simp only [ne_eq, not_true_eq_false, if_false]
  funext a
  by_cases same : a = address
  · subst same
    rw [update_self, tallied]
    by_cases none : less a = 0
    · simp [none]
    · simp [none, Nat.pos_of_ne_zero none]
  · rw [update_of_ne same, tallied, tallied, others a same]

theorem foldl_uncast {kept : Address → ℕ} {gone : List Vote}
    (sensible : ∀ vote ∈ gone, vote.authorize = decide (vote.address ∉ signers)) :
    gone.foldl (fun tally vote => uncast tally vote.address vote.authorize)
      (tallied signers fun a => kept a + votesOn gone a) = tallied signers kept := by
  induction gone with
  | nil => rfl
  | cons vote rest ih =>
    obtain ⟨here, others⟩ := forall_mem_cons.mp sensible
    have taken : uncast (tallied signers fun a => kept a + votesOn (vote :: rest) a) vote.address
        vote.authorize = tallied signers fun a => kept a + votesOn rest a := by
      rw [here]
      apply uncast_tallied
      · simp only [votesOn_cons, if_true]
        omega
      · intro a apart
        simp only [votesOn_cons, if_neg (Ne.symm apart), Nat.add_zero]
    rw [foldl_cons, taken, ih others]

theorem update_tallied {old new : List Address} {before after : Address → ℕ}
    (closed : after address = 0) (counts : ∀ a ≠ address, after a = before a)
    (same : ∀ a ≠ address, a ∈ new ↔ a ∈ old) :
    Function.update (tallied old before) address none = tallied new after := by
  funext a
  by_cases here : a = address
  · subst here
    rw [update_self, tallied, if_pos closed]
  · rw [update_of_ne here, tallied, tallied, counts a here]
    simp only [same a here]

theorem votesOn_close {votes : List Vote} :
    votesOn (votes.filter fun vote => vote.address ≠ address) address = 0 ∧
      ∀ a ≠ address, votesOn (votes.filter fun vote => vote.address ≠ address) a = votesOn votes a := by
  constructor
  · simp [votesOn, countP_eq_zero]
  · intro a apart
    rw [votesOn, countP_filter]
    apply countP_congr
    intro vote _
    simp only [Bool.and_eq_true, decide_eq_true_eq, and_iff_left_iff_imp]
    rintro rfl
    exact apart

theorem votesOn_split (signer : Address) (votes : List Vote) (address : Address) :
    votesOn votes address = votesOn (votes.filter fun vote => vote.signer ≠ signer) address +
      votesOn (votes.filter fun vote => vote.signer = signer) address := by
  induction votes with
  | nil => rfl
  | cons vote rest ih =>
    by_cases holds : vote.signer = signer
    · simp only [filter_cons, holds, votesOn_cons, ih, decide_true, ne_eq, not_true_eq_false,
        decide_false, if_true, Bool.false_eq_true, if_false, Nat.add_assoc]
    · simp only [filter_cons, holds, votesOn_cons, ih, decide_true, ne_eq, not_false_eq_true,
        decide_false, if_true, Bool.false_eq_true, if_false]
      omega

theorem validVote_iff {s : Snapshot} {authorize : Bool} :
    s.validVote address authorize = true ↔ authorize = decide (address ∉ s.signers) := by
  unfold Snapshot.validVote
  by_cases member : address ∈ s.signers <;> cases authorize <;> simp [member]

namespace Poll
variable {s : Poll}

theorem withdraw_cases (s : Poll) (signer address : Address) :
    s.withdraw signer address = s ∧ (∀ vote ∈ s.votes, ¬ (vote.signer = signer ∧ vote.address = address)) ∨
      ∃ pre vote post, s.votes = pre ++ vote :: post ∧ vote.signer = signer ∧ vote.address = address ∧
        s.withdraw signer address =
          { s with tally := uncast s.tally address vote.authorize, votes := pre ++ post } := by
  unfold withdraw
  cases found : s.votes.find? fun vote => vote.signer = signer ∧ vote.address = address with
  | none =>
    refine .inl ⟨rfl, ?_⟩
    intro vote member
    simpa using find?_eq_none.mp found vote member
  | some vote =>
    obtain ⟨matched, pre, post, split, earlier⟩ := find?_eq_some_iff_append.mp found
    obtain ⟨rfl, rfl⟩ := of_decide_eq_true matched
    have erased : (pre ++ vote :: post).eraseP
        (fun v => v.signer = vote.signer ∧ v.address = vote.address) = pre ++ post := by
      rw [eraseP_append_right _ (by simpa [or_iff_not_imp_left] using earlier), eraseP_cons_of_pos (by simp)]
    refine .inr ⟨pre, vote, post, split, rfl, rfl, ?_⟩
    simp only [split, erased]

section

variable (kept : s.Bookkept)
include kept

theorem Bookkept.withdraw (signer address : Address) :
    (s.withdraw signer address).Bookkept ∧ ∀ vote ∈ (s.withdraw signer address).votes,
      ¬ (vote.signer = signer ∧ vote.address = address) := by
  obtain ⟨unchanged, none⟩ | ⟨pre, vote, post, split, rfl, rfl, changed⟩ := s.withdraw_cases signer address
  · rw [unchanged]
    exact ⟨kept, none⟩
  · rw [changed]
    have fewer : ∀ v ∈ pre ++ post, v ∈ s.votes := by
      intro v member
      rw [split]
      exact mem_append.mpr ((mem_append.mp member).imp id (mem_cons_of_mem _))
    have once := kept.once
    rw [split, map_append, map_cons, nodup_middle, nodup_cons, ← map_append] at once
    refine ⟨⟨once.2, fun v member => kept.signed v (fewer v member),
      fun v member => kept.sensible v (fewer v member), ?_⟩, ?_⟩
    · have sensible := kept.sensible vote (by simp [split])
      simp only [kept.tally, sensible]
      apply uncast_tallied
      · simp only [split, votesOn_append, votesOn_cons, if_true, Nat.add_assoc]
      · intro a apart
        simp only [split, votesOn_append, votesOn_cons, if_neg (Ne.symm apart), Nat.add_zero]
    · rintro v member ⟨signers, addresses⟩
      exact once.1 (mem_map.mpr ⟨v, member, by rw [signers, addresses]⟩)

theorem Bookkept.cast {signer address : Address} (authorized : signer ∈ s.signers)
    (first : ∀ vote ∈ s.votes, ¬ (vote.signer = signer ∧ vote.address = address)) (number : UInt64)
    (authorize : Bool) : (s.cast number signer address authorize).Bookkept := by
  unfold Poll.cast
  split
  case isFalse => exact kept
  case isTrue valid =>
    have sensible := validVote_iff.mp valid
    refine ⟨?_, ?_, ?_, ?_⟩
    · rw [map_append, nodup_append_comm, map_singleton, singleton_append,
        nodup_cons]
      refine ⟨?_, kept.once⟩
      intro member
      obtain ⟨vote, old, same⟩ := mem_map.mp member
      exact first vote old (Prod.ext_iff.mp same)
    · simpa [or_imp, forall_and, authorized] using kept.signed
    · simpa [or_imp, forall_and, sensible] using kept.sensible
    · funext a
      simp only [kept.tally]
      by_cases here : a = address
      · subst here
        simp only [update_self, tallied, votesOn_append, votesOn_cons, if_true, sensible]
        by_cases fresh : votesOn s.votes a = 0
        · simp [fresh]
        · simp [fresh]
      · simp [update_of_ne here, tallied, votesOn_append, votesOn_cons, Ne.symm here]

theorem Bookkept.congr {t : Poll} (signers : t.signers = s.signers)
    (votes : t.votes = s.votes) (tally : t.tally = s.tally) : t.Bookkept := by
  constructor
  · rw [votes]
    exact kept.once
  · rw [votes, signers]
    exact kept.signed
  · rw [votes, signers]
    exact kept.sensible
  · rw [votes, signers, tally]
    exact kept.tally

theorem Bookkept.dropped (address : Address) :
    (((s.dropSigner address).silence address).close address).Bookkept := by
  have shrunk : ∀ a ≠ address, a ∈ s.signers.erase address ↔ a ∈ s.signers := by
    intro a apart
    rw [s.distinct.mem_erase_iff]
    simp [apart]
  have gone := @foldl_uncast s.signers (votesOn (s.votes.filter fun vote => vote.signer ≠ address))
    (s.votes.filter fun vote => vote.signer = address)
    fun vote member => kept.sensible vote (mem_of_mem_filter member)
  rw [← funext (votesOn_split address s.votes), ← kept.tally] at gone
  have left (vote : Vote) (member : vote ∈ (s.votes.filter fun vote => vote.signer ≠ address).filter
      fun vote => vote.address ≠ address) :
      vote ∈ s.votes ∧ vote.signer ≠ address ∧ vote.address ≠ address := by
    obtain ⟨inner, apart⟩ := mem_filter.mp member
    obtain ⟨old, other⟩ := mem_filter.mp inner
    exact ⟨old, of_decide_eq_true other, of_decide_eq_true apart⟩
  simp only [Poll.close, Poll.silence, Poll.dropSigner, gone]
  refine ⟨kept.once.sublist (((filter_sublist ..).trans (filter_sublist ..)).map _), ?_, ?_, ?_⟩
  · intro vote member
    obtain ⟨old, other, -⟩ := left vote member
    exact (shrunk _ other).mpr (kept.signed vote old)
  · intro vote member
    obtain ⟨old, -, apart⟩ := left vote member
    rw [kept.sensible vote old]
    exact decide_eq_decide.mpr (not_congr (shrunk _ apart).symm)
  · obtain ⟨closed, others⟩ :=
      @votesOn_close address (s.votes.filter fun vote => vote.signer ≠ address)
    exact update_tallied closed others shrunk

theorem Bookkept.settle (number : UInt64) (address : Address) :
    (s.settle number address).Bookkept := by
  unfold Poll.settle
  split
  case h_1 => exact kept
  case h_2 tally counted =>
    split
    case isFalse => exact kept
    case isTrue passed =>
      obtain ⟨closed, others⟩ := @votesOn_close address s.votes
      split
      case isTrue =>
        have grown : ∀ a ≠ address, a ∈ addSigner s.signers address ↔ a ∈ s.signers := by
          intro a apart
          simp [apart]
        refine ⟨kept.once.sublist ((filter_sublist ..).map _), ?_, ?_, ?_⟩
        · intro vote member
          exact mem_addSigner.mpr (.inr (kept.signed vote (mem_of_mem_filter member)))
        · intro vote member
          obtain ⟨old, apart⟩ := mem_filter.mp member
          rw [kept.sensible vote old]
          exact decide_eq_decide.mpr (not_congr (grown _ (of_decide_eq_true apart)).symm)
        · simp only [Poll.close, Poll.admitSigner, kept.tally]
          exact update_tallied closed others grown
      case isFalse =>
        -- `forget` changes the recent signers only
        refine (kept.dropped address).congr ?_ ?_ ?_
        · simp [Poll.close, Poll.silence, Poll.dropSigner]
        · simp [Poll.close, Poll.silence, Poll.dropSigner]
        · simp [Poll.close, Poll.silence, Poll.dropSigner]

theorem Bookkept.expire (epoch number : UInt64) : (s.expire epoch number).Bookkept := by
  unfold Poll.expire
  split
  · exact ⟨nodup_nil, by simp, by simp, rfl⟩
  · exact kept

end

theorem settle_signers {number : UInt64} {address a : Address}
    (moved : ¬ (a ∈ (s.settle number address).signers ↔ a ∈ s.signers)) :
    a = address ∧ ∃ tally, s.tally a = some tally ∧ s.signers.length / 2 < tally.votes := by
  unfold Poll.settle at moved
  split at moved
  case h_1 => exact absurd Iff.rfl moved
  case h_2 tally counted =>
    split at moved
    case isFalse => exact absurd Iff.rfl moved
    case isTrue passed =>
      have here : a = address := by
        by_contra apart
        apply moved
        split
        · simp [Poll.close, Poll.admitSigner, apart]
        · simp [Poll.close, Poll.silence, Poll.dropSigner, s.distinct.mem_erase_iff, apart]
      subst here
      exact ⟨rfl, tally, counted, passed⟩

end Poll

theorem newSnapshot_bookkept (number : UInt64) (hash : Hash) (signers : List Address) :
    (newSnapshot number hash signers).Bookkept :=
  ⟨nodup_nil, nofun, nofun, rfl⟩

section Heights
variable {crypto : Crypto} {c : Poa} {header : Header}

theorem Poll.Bookkept.ready {s : Poll} (kept : s.Bookkept) (epoch number : UInt64) (signer : Address) :
    (((s.expire epoch number).forget number).remember number signer).Bookkept :=
  (kept.expire epoch number).congr (by simp [remember]) (by simp [remember]) (by simp [remember])

theorem Poll.Bookkept.ballot {s voted : Poll} (kept : s.Bookkept)
    (cast : c.ballot crypto s header = .ok voted) : voted.Bookkept ∧ voted.signers = s.signers := by
  obtain ⟨signer, -, authorized, -, -, rfl⟩ := Poa.ballot_ok_iff.mp cast
  obtain ⟨withdrawn, first⟩ :=
    (kept.ready c.epoch (UInt64.ofNat header.number) signer).withdraw signer header.coinbase
  exact ⟨withdrawn.cast (by simpa [remember] using authorized) first _ _, by simp [remember]⟩

/-- At every height of a chain the votes and their tally are in order, and the next header can
move no address but its coinbase, and that only if more than half of the signers voted so. -/
theorem reached_bookkept {signers : List Address} {n : ℕ} {s : VotingSnapshot}
    (reached : Reached crypto c signers n s) :
    s.Bookkept ∧ ∀ sigcache header t, { c with sigcache }.apply crypto s [header] = .ok t →
      ∃ voted : Poll, { c with sigcache }.ballot crypto s.toPoll header = .ok voted ∧ voted.Bookkept ∧
        voted.signers = s.signers ∧ ∀ a, ¬ (a ∈ t.signers ↔ a ∈ s.signers) →
          a = header.coinbase ∧
            ∃ tally, voted.tally a = some tally ∧ s.signers.length / 2 < tally.votes := by
  have step (s t : VotingSnapshot) (header : Header) (c : Poa) (kept : s.Bookkept)
      (applied : c.apply crypto s [header] = .ok t) :
      ∃ voted : Poll, c.ballot crypto s.toPoll header = .ok voted ∧ voted.Bookkept ∧
        voted.signers = s.signers ∧
        t.toPoll = voted.settle (UInt64.ofNat header.number) header.coinbase := by
    obtain ⟨-, poll, stepped, rfl⟩ := Poa.apply_one.mp applied
    obtain ⟨voted, cast, rfl⟩ := Poa.applyHeader_ok_iff.mp stepped
    exact ⟨voted, cast, (kept.ballot cast).1, (kept.ballot cast).2, rfl⟩
  have kept : s.Bookkept := by
    have keeps (sigcache : Hash → Option Address) (n : ℕ) (s : VotingSnapshot) (header : Header)
        (t : VotingSnapshot) (kept : s.Bookkept) (_ : s.number = UInt64.ofNat n)
        (applied : { c with sigcache }.apply crypto s [header] = .ok t) : t.Bookkept := by
      obtain ⟨voted, -, counted, -, settled⟩ := step s t header _ kept applied
      rw [settled]
      exact counted.settle _ _
    exact (Reached.induct (fun hash => newSnapshot_bookkept 0 hash signers) keeps reached).1
  refine ⟨kept, ?_⟩
  intro sigcache header t applied
  obtain ⟨voted, cast, counted, same, settled⟩ := step s t header _ kept applied
  refine ⟨voted, cast, counted, same, ?_⟩
  intro a moved
  rw [settled, ← same] at moved
  rw [← same]
  exact Poll.settle_signers moved

def sampleVoteHeaders : List Header := [sampleVoteHeader 1 1 9 nonceAuthVote, sampleVoteHeader 2 2 9 nonceAuthVote]

theorem sampleVoteHeaders_bookkept : ∃ s : VotingSnapshot, (samplePoa .clique).apply sampleCrypto
    (newSnapshot 0 0 [1, 2, 3]) sampleVoteHeaders = .ok s ∧ s.Bookkept := by
  have accepted : ((samplePoa .clique).apply sampleCrypto (newSnapshot 0 0 [1, 2, 3])
      sampleVoteHeaders).toBool = true := by decide +kernel
  obtain ⟨s, applied⟩ := exists_ok_of_toBool accepted
  have reached : Reached sampleCrypto (samplePoa .clique) [1, 2, 3] (0 + sampleVoteHeaders.length) s :=
    .apply (samplePoa .clique).sigcache sampleVoteHeaders (.genesis 0) applied
  exact ⟨s, applied, (reached_bookkept reached).1⟩

end Heights

end Anduschain
