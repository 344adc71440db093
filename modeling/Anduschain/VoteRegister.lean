import Anduschain.LeagueSteps

/-! The register of votes that `Vote` and `SaveVote` build: where its votes come
from, how often an address is in it, whether the address belongs to the league, and
whether the tally depends on the order in which the register is read. -/
namespace Anduschain
open ByteOrder FiniteRun OrderedChoice List

section Register
variable {env : FairnodeEnv} {s t : Fairnode}

theorem tick_votes {order : List (Header × ℕ)} (next : tick env s order = some t) :
    t.db.voteList = s.db.voteList := by
  rcases tick_effect next with rfl | ⟨ref, l, -, -, effect⟩
  · rfl
  · rcases effect.db with same | ⟨hash, removed⟩
    · rw [same]
    · obtain ⟨blockChain, frame⟩ := s.db.removeBlock_frame env.crypto env.backend hash
      rw [removed, frame]

theorem makeOtprn_votes {fresh : Otprn} (next : makeOtprn env s fresh = some t) :
    t.db.voteList = s.db.voteList := by
  obtain ⟨-, -, -, same | ⟨otprn, -, saved⟩⟩ := makeOtprn_effect next
  · rw [same]
  · obtain ⟨otprnList, frame⟩ := s.db.saveOtprn_frame env.crypto env.backend otprn
    rw [saved, frame]

theorem step_votes {a : Action} (next : step env s a = some t) :
    t.db.voteList = s.db.voteList ∨ ∃ i otprnHash number voter, a = .perform i ∧
      s.writes[i]? = some (.saveVote otprnHash number voter) ∧
      t.db = s.db.saveVote env.backend otprnHash number voter := by
  cases a with
  | tick order => exact .inl (tick_votes next)
  | resume => exact .inl (by rw [(resume_cases next).frame.2.2.1])
  | makeOtprn fresh => exact .inl (makeOtprn_votes next)
  | call ref req => exact .inl (by rw [call_db next])
  | removeActiveNode enode =>
    cases next
    exact .inl rfl
  | perform i =>
    obtain ⟨w, found, rfl⟩ := Option.map_eq_some_iff.mp next
    cases w with
    | saveActiveNode node => exact .inl rfl
    | saveLeague otprn enode caller =>
      obtain ⟨leagueList, frame⟩ :=
        s.db.saveLeague_frame env.backend (otprn.hashOtprn env.crypto) enode
      exact .inl (by simp only [perform, frame])
    | saveVote otprnHash number voter =>
      exact .inr ⟨i, otprnHash, number, voter, rfl, found, rfl⟩
    | saveFinalBlock block =>
      obtain ⟨blockChain, frame⟩ := s.db.saveFinalBlock_frame env.crypto block
      exact .inl (by simp only [perform, frame])

end Register

def OneVoteEach (s : Fairnode) : Prop :=
  ∀ key, ((s.db.getVoters key).map Voter.voter).Nodup

/-- A vote that is saved is its address's first under the key, or it is one that MongoDB
has already. -/
def FirstVote (env : FairnodeEnv) (db : FairnodeDB) : DbWrite → Prop
  | .saveVote otprnHash number v =>
    v.voter ∈ (db.getVoters (makeVoteKey otprnHash number)).map Voter.voter →
      env.backend = .mongo ∧ v ∈ db.getVoters (makeVoteKey otprnHash number)
  | _ => True

instance (env : FairnodeEnv) (db : FairnodeDB) : ∀ w, Decidable (FirstVote env db w)
  | .saveVote otprnHash number v => inferInstanceAs (Decidable
      (v.voter ∈ (db.getVoters (makeVoteKey otprnHash number)).map Voter.voter →
        env.backend = .mongo ∧ v ∈ db.getVoters (makeVoteKey otprnHash number)))
  | .saveActiveNode _ | .saveLeague _ _ _ | .saveFinalBlock _ => inferInstanceAs (Decidable True)

def VoteGuard (env : FairnodeEnv) (s : Fairnode) : Action → Prop
  | .perform i => ∀ w ∈ s.writes[i]?, FirstVote env s.db w
  | _ => True

instance (env : FairnodeEnv) (s : Fairnode) : ∀ a, Decidable (VoteGuard env s a)
  | .perform i => inferInstanceAs (Decidable (∀ w ∈ s.writes[i]?, FirstVote env s.db w))
  | .tick _ | .resume | .makeOtprn _ | .call _ _ | .removeActiveNode _ =>
    inferInstanceAs (Decidable True)

section OneVoteEach
variable {env : FairnodeEnv} {s t : Fairnode}

theorem nodup_voters_append {voters : List Voter} {v : Voter} (once : (voters.map Voter.voter).Nodup) :
    ((voters ++ [v]).map Voter.voter).Nodup ↔ v.voter ∉ voters.map Voter.voter := by
  rw [map_append, nodup_append]
  constructor
  · rintro ⟨-, -, apart⟩ member
    exact apart _ member v.voter (by simp) rfl
  · intro fresh
    refine ⟨once, by simp, ?_⟩
    rintro a member b isNew rfl
    obtain rfl : a = v.voter := by simpa using isNew
    exact fresh member

theorem saveVote_once_iff (db : FairnodeDB) (otprnHash : Hash) (number : ℕ) (v : Voter)
    (once : ∀ key, ((db.getVoters key).map Voter.voter).Nodup) :
    (∀ key, (((db.saveVote env.backend otprnHash number v).getVoters key).map Voter.voter).Nodup) ↔
      FirstVote env db (.saveVote otprnHash number v) := by
  simp only [FairnodeDB.getVoters_saveVote, FirstVote]
  constructor
  · intro after member
    by_contra stays
    have own := after (makeVoteKey otprnHash number)
    rw [if_pos ⟨rfl, stays⟩, nodup_voters_append (once _)] at own
    exact own member
  · intro first key
    split
    · rename_i added
      obtain ⟨rfl, stays⟩ := added
      rw [nodup_voters_append (once _)]
      exact fun member => stays (first member)
    · exact once key

theorem oneVoteEach_step (s : Fairnode) (a : Action) (t : Fairnode) (once : OneVoteEach s) (_ : True)
    (next : step env s a = some t) : OneVoteEach t ↔ VoteGuard env s a := by
  have unchanged : t.db.voteList = s.db.voteList → OneVoteEach t := by
    intro same key
    have voters : t.db.getVoters key = s.db.getVoters key := by simp only [FairnodeDB.getVoters, same]
    rw [voters]
    exact once key
  cases a with
  | perform i =>
    obtain ⟨w, found, rfl⟩ := Option.map_eq_some_iff.mp next
    have guard : VoteGuard env s (.perform i) ↔ FirstVote env s.db w := by
      simp [VoteGuard, found]
    rw [guard]
    cases w with
    | saveVote otprnHash number v => exact saveVote_once_iff s.db otprnHash number v once
    | saveActiveNode node => exact iff_of_true once trivial
    | saveLeague otprn enode caller =>
      obtain ⟨leagueList, frame⟩ :=
        s.db.saveLeague_frame env.backend (otprn.hashOtprn env.crypto) enode
      exact iff_of_true (unchanged (by simp only [perform, frame])) trivial
    | saveFinalBlock block =>
      obtain ⟨blockChain, frame⟩ := s.db.saveFinalBlock_frame env.crypto block
      exact iff_of_true (unchanged (by simp only [perform, frame])) trivial
  | tick order => exact iff_of_true (unchanged (tick_votes next)) trivial
  | resume => exact iff_of_true (unchanged (by rw [(resume_cases next).frame.2.2.1])) trivial
  | makeOtprn fresh => exact iff_of_true (unchanged (makeOtprn_votes next)) trivial
  | call ref req => exact iff_of_true (unchanged (by rw [call_db next])) trivial
  | removeActiveNode enode =>
    cases next
    exact iff_of_true once trivial

end OneVoteEach

/-- Along a run every address keeps at most one vote under each key exactly when every
`SaveVote` that is performed brings an address's first vote. -/
theorem oneVoteEach_always_iff (env : FairnodeEnv) (s : Fairnode) (once : OneVoteEach s)
    (acts : List Action) :
    Always (step env) OneVoteEach s acts ↔ Guarded (step env) (VoteGuard env) s acts :=
  always_iff_guarded oneVoteEach_step once (guarded_true s acts)

def sampleBallot (first second : UInt8 × Header) : List Action :=
  sampleCall 0 (sampleBeat [1] 5) ++ sampleMake (sampleLeague 7 1 sampleConfig) ++
    sampleCall 0 (sampleVote first.2 first.1) ++ sampleCall 0 (sampleVote second.2 second.1)

def sampleCandidate (extra : Bytes) : Header := sampleBlock (sampleLeague 7 1 sampleConfig) extra

theorem sampleBallot_one_each :
    OneVoteEach sampleStart ∧ Always (step (sampleNode .mongo)) OneVoteEach sampleStart
      (sampleBallot (5, sampleCandidate []) (6, sampleCandidate [])) := by
  have once : OneVoteEach sampleStart := by
    intro key
    simp [sampleStart, Fairnode.start, FairnodeDB.new, FairnodeDB.getVoters]
  exact ⟨once, (oneVoteEach_always_iff (sampleNode .mongo) sampleStart once _).mpr (by decide +kernel)⟩

/-- One address votes for two blocks of a round, and both votes are kept. -/
theorem sampleBallot_two_of_one :
    ∃ s, run (step (sampleNode .mongo)) sampleStart
        (sampleBallot (5, sampleCandidate []) (5, sampleCandidate [1])) = some s ∧
      (s.db.getVoters (makeVoteKey ((sampleLeague 7 1 sampleConfig).hashOtprn sampleCrypto) 1)).map
        Voter.voter = [5, 5] := by
  have voters : (run (step (sampleNode .mongo)) sampleStart
      (sampleBallot (5, sampleCandidate []) (5, sampleCandidate [1]))).map (fun s =>
      (s.db.getVoters (makeVoteKey ((sampleLeague 7 1 sampleConfig).hashOtprn sampleCrypto) 1)).map
        Voter.voter) = some [5, 5] := by decide +kernel
  exact Option.map_eq_some_iff.mp voters

/-- A call of `Vote` in the run has accepted the vote for the round of the key. -/
def CastIn (env : FairnodeEnv) (s : Fairnode) (acts : List Action) (key : Hash) (v : Voter) : Prop :=
  ∃ before ref req after u otprnHash number, acts = before ++ .call ref (.vote req) :: after ∧
    run (step env) s before = some u ∧
    vote env (held env u ref) req = .ok (otprnHash, number, v) ∧ key = makeVoteKey otprnHash number

/-- A vote that a handler has decided to save for the round of the key. -/
def OnTheWay (s : Fairnode) (key : Hash) (v : Voter) : Prop :=
  ∃ otprnHash number, DbWrite.saveVote otprnHash number v ∈ s.writes ∧
    key = makeVoteKey otprnHash number

section Provenance
variable {env : FairnodeEnv} {s t : Fairnode} {a : Action} {rest : List Action}
  {key : Hash} {v : Voter}

theorem step_stored (next : step env s a = some t) (key : Hash) :
    ∃ cast, t.db.getVoters key = s.db.getVoters key ++ cast ∧ ∀ v ∈ cast, OnTheWay s key v := by
  rcases step_votes next with same | ⟨i, otprnHash, number, voter, -, found, saved⟩
  · exact ⟨[], by rw [FairnodeDB.getVoters, same, append_nil]; rfl, by simp⟩
  · rw [saved, FairnodeDB.getVoters_saveVote]
    split
    · rename_i added
      exact ⟨[voter], rfl, by simpa using ⟨otprnHash, number, mem_of_getElem? found, added.1⟩⟩
    · exact ⟨[], (append_nil _).symm, by simp⟩

theorem Decides.vote {ref : ℕ} {req : Request} {otprnHash : Hash} {number : ℕ}
    (decides : Decides env s ref req (.saveVote otprnHash number v)) :
    ∃ sent, req = .vote sent ∧
      Anduschain.vote env (held env s ref) sent = .ok (otprnHash, number, v) := by
  cases req <;> simp_all [Decides]

theorem OnTheWay.of_step (waits : OnTheWay t key v) (next : step env s a = some t) :
    OnTheWay s key v ∨ CastIn env s (a :: rest) key v := by
  obtain ⟨otprnHash, number, waits, named⟩ := waits
  rcases step_writes next waits with old | ⟨ref, req, rfl, decides⟩
  · exact .inl ⟨otprnHash, number, old, named⟩
  · obtain ⟨req, rfl, accepted⟩ := decides.vote
    exact .inr ⟨[], ref, req, rest, s, otprnHash, number, rfl, rfl, accepted, named⟩

theorem CastIn.cons (cast : CastIn env t rest key v) (next : step env s a = some t) :
    CastIn env s (a :: rest) key v := by
  obtain ⟨before, ref, req, after, u, otprnHash, number, rfl, ran, accepted⟩ := cast
  exact ⟨a :: before, ref, req, after, u, otprnHash, number, rfl, run_cons.mpr ⟨t, next, ran⟩,
    accepted⟩

end Provenance

/-- Over a run of the leader and its handlers, in any order, the stored votes of a round only
grow, and each new one was accepted by a call of `Vote` for that round. -/
theorem stored_votes_cast (env : FairnodeEnv) (s t : Fairnode) (acts : List Action)
    (ran : run (step env) s acts = some t) (key : Hash) :
    ∃ cast, t.db.getVoters key = s.db.getVoters key ++ cast ∧
      ∀ v ∈ cast, OnTheWay s key v ∨ CastIn env s acts key v := by
  induction acts generalizing s with
  | nil =>
    cases ran
    exact ⟨[], (append_nil _).symm, by simp⟩
  | cons a rest ih =>
    obtain ⟨u, next, ran⟩ := run_cons.mp ran
    obtain ⟨cast, stored, waited⟩ := step_stored next key
    obtain ⟨later, grown, traced⟩ := ih u ran
    refine ⟨cast ++ later, by rw [grown, stored, append_assoc], fun v member => ?_⟩
    rcases mem_append.mp member with first | second
    · exact .inl (waited v first)
    · rcases traced v second with waits | cast
      · exact waits.of_step next
      · exact .inr (cast.cons next)

theorem sampleBallot_cast :
    ∃ t, run (step (sampleNode .mongo)) sampleStart
        (sampleBallot (5, sampleCandidate []) (6, sampleCandidate [])) = some t ∧
      ∀ key, ∀ v ∈ t.db.getVoters key, CastIn (sampleNode .mongo) sampleStart
        (sampleBallot (5, sampleCandidate []) (6, sampleCandidate [])) key v := by
  obtain ⟨t, ran⟩ := Option.isSome_iff_exists.mp (show (run (step (sampleNode .mongo)) sampleStart
    (sampleBallot (5, sampleCandidate []) (6, sampleCandidate []))).isSome by decide +kernel)
  refine ⟨t, ran, fun key v member => ?_⟩
  obtain ⟨cast, stored, traced⟩ := stored_votes_cast _ _ t _ ran key
  rw [stored] at member
  refine (traced v member).resolve_left ?_
  rintro ⟨_, _, waits, -⟩
  exact not_mem_nil waits

/-- The tally is independent of the order of the votes and of the map iteration
exactly when all leading headers have one hash. -/
theorem validationFinalBlockHash_order_iff (crypto : Crypto) (voters : List Voter)
    (free : CollisionFree crypto {h | h ∈ votedHeaders voters}) :
    (∀ v₁ v₂ o₁ o₂, v₁.Perm voters → v₂.Perm voters → MapOrder crypto v₁ o₁ → MapOrder crypto v₂ o₂ →
        validationFinalBlockHash crypto v₁ o₁ = validationFinalBlockHash crypto v₂ o₂) ↔
      ∀ a b, Leading crypto voters a → Leading crypto voters b → a.hash crypto = b.hash crypto := by
  constructor
  · intro same a b leadA leadB
    have nonempty : voters ≠ [] := by
      rintro rfl
      simp [Leading, votedHeaders] at leadA
    have best := (argmax_perm_iff rank (fun vs : Header × ℕ => vs.1.hash crypto)
      ((voteResult crypto voters).map Prod.snd)).mp (by
        intro o₁ o₂ perm₁ perm₂
        have result := same voters voters o₁ o₂ (.refl _) (.refl _) perm₁ perm₂
        simpa only [validationFinalBlockHash, if_neg nonempty, foldl_keepTop] using result)
    obtain ⟨repA, hashA, bestA⟩ := isBest_of_leading free leadA
    obtain ⟨repB, hashB, bestB⟩ := isBest_of_leading free leadB
    have chosen : repA.hash crypto = repB.hash crypto := best (repA, _) (repB, _) bestA bestB
    rw [← hashA, ← hashB, chosen]
  · intro unique v₁ v₂ o₁ o₂ perm₁ perm₂ iter₁ iter₂
    by_cases empty : voters = []
    · subst empty
      simp [validationFinalBlockHash, perm_nil.mp perm₁, perm_nil.mp perm₂]
    · have cases₁ := validationFinalBlockHash_cases free empty perm₁ iter₁
      have cases₂ := validationFinalBlockHash_cases free empty perm₂ iter₂
      rcases cases₁ with ⟨undecodable, none₁⟩ | ⟨a, leadA, some₁⟩
      · rcases cases₂ with ⟨-, none₂⟩ | ⟨b, leadB, -⟩
        · rw [none₁, none₂]
        · have voted := leadB.1
          rw [undecodable] at voted
          cases voted
      · rcases cases₂ with ⟨undecodable, -⟩ | ⟨b, leadB, some₂⟩
        · have voted := leadA.1
          rw [undecodable] at voted
          cases voted
        · rw [some₁, some₂, unique a b leadA leadB]

def sampleVoter (header : Header) (d : UInt8) : Voter where
  header := header.byte
  voter := hexToAddress (sampleText d)
  voteSign := sampleDigest [.bytes header.byte, .str (sampleText d)] d

def sampleSlate (rival : Header) : List Voter :=
  [sampleVoter (sampleCandidate []) 5, sampleVoter rival 6]

/-- A rival with a larger nonce wins in every order. -/
theorem sampleSlate_in_every_order :
    (sampleSlate { sampleCandidate [] with nonce := 1 }).length = 2 ∧
      ∀ v₁ v₂ o₁ o₂, v₁.Perm (sampleSlate { sampleCandidate [] with nonce := 1 }) →
        v₂.Perm (sampleSlate { sampleCandidate [] with nonce := 1 }) →
        MapOrder sampleCrypto v₁ o₁ → MapOrder sampleCrypto v₂ o₂ →
        validationFinalBlockHash sampleCrypto v₁ o₁ = validationFinalBlockHash sampleCrypto v₂ o₂ := by
  have decoded : votedHeaders (sampleSlate { sampleCandidate [] with nonce := 1 }) =
      [sampleCandidate [], { sampleCandidate [] with nonce := 1 }] := by decide +kernel
  have free : CollisionFree sampleCrypto
      {h | h ∈ votedHeaders (sampleSlate { sampleCandidate [] with nonce := 1 })} := by
    rw [decoded]
    exact collisionFree_of_nodup (by decide +kernel)
  refine ⟨rfl, (validationFinalBlockHash_order_iff sampleCrypto _ free).mpr ?_⟩
  have leads : ∀ a, Leading sampleCrypto (sampleSlate { sampleCandidate [] with nonce := 1 }) a →
      a = { sampleCandidate [] with nonce := 1 } := by
    rintro a ⟨voted, best⟩
    rw [decoded] at voted best
    rcases mem_cons.mp voted with rfl | other
    · exact absurd (best _ (mem_cons_of_mem _ (mem_singleton_self _))) (by decide +kernel)
    · exact mem_singleton.mp other
  intro a b leadA leadB
  rw [leads a leadA, leads b leadB]

/-- Two blocks that differ only in their extra data are voted for in one round; the tally
takes whichever the map yields first. -/
theorem sampleSlate_depends_on_order :
    (∃ s, run (step (sampleNode .mongo)) sampleStart
        (sampleBallot (5, sampleCandidate []) (6, sampleCandidate [1])) = some s ∧
      s.db.getVoters (makeVoteKey ((sampleLeague 7 1 sampleConfig).hashOtprn sampleCrypto) 1) =
        sampleSlate (sampleCandidate [1])) ∧
    MapOrder sampleCrypto (sampleSlate (sampleCandidate [1]))
      [(sampleCandidate [], 1), (sampleCandidate [1], 1)] ∧
    MapOrder sampleCrypto (sampleSlate (sampleCandidate [1]))
      [(sampleCandidate [1], 1), (sampleCandidate [], 1)] ∧
    validationFinalBlockHash sampleCrypto (sampleSlate (sampleCandidate [1]))
        [(sampleCandidate [], 1), (sampleCandidate [1], 1)] ≠
      validationFinalBlockHash sampleCrypto (sampleSlate (sampleCandidate [1]))
        [(sampleCandidate [1], 1), (sampleCandidate [], 1)] := by
  refine ⟨?_, by decide +kernel, by decide +kernel, by decide +kernel⟩
  have voters : (run (step (sampleNode .mongo)) sampleStart
      (sampleBallot (5, sampleCandidate []) (6, sampleCandidate [1]))).map (fun s =>
      s.db.getVoters (makeVoteKey ((sampleLeague 7 1 sampleConfig).hashOtprn sampleCrypto) 1)) =
      some (sampleSlate (sampleCandidate [1])) := by decide +kernel
  exact Option.map_eq_some_iff.mp voters

end Anduschain
