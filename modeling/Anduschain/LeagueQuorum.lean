import Anduschain.LeagueFaults

/-! The quorum behind VOTE_COMPLETE. The guard of VOTE_COUNTING compares the number
of votes with `MinMiner - 1`, so a league that needs one miner is counted without
a vote; every other count that is not rejected elects a block that was voted for. -/
namespace Anduschain
open ByteOrder FiniteRun List

structure Quorum (env : FairnodeEnv) (s : Fairnode) (l : League) : Prop where
  elected : ∃ h ∈ votedHeaders (roundVoters env s l), l.blockHash = some (h.hash env.crypto)
  enough : ∃ config, s.config = some config ∧
    config.minMiner.toNat - 1 ≤ (roundVoters env s l).length
  voted : 1 ≤ (roundVoters env s l).length

def CountedQuorum (env : FairnodeEnv) (s : Fairnode) : Prop :=
  ∀ (ref : ℕ) (l : League), s.loop = .sleeping ref .voteComplete → s.heap[ref]? = some l → Quorum env s l

def EntersVoteComplete (s t : Fairnode) (ref : ℕ) (l : League) : Prop :=
  t.heap[ref]? = some l ∧ l.status = .voteComplete ∧
    ∀ was : League, s.heap[ref]? = some was → was.status ≠ .voteComplete

section Guard
variable (env : FairnodeEnv) (s : Fairnode)

def CountGuard : Action → Prop
  | .tick _ => s.loop = .idle → ∀ ref ∈ s.active, ∀ l ∈ s.heap[ref]?, l.status = .voteCounting →
      ∀ config ∈ s.config, config.minMiner = 1 → roundVoters env s l ≠ []
  | _ => True

instance : ∀ a, Decidable (CountGuard env s a)
  | .tick _ => inferInstanceAs (Decidable (s.loop = .idle → ∀ ref ∈ s.active, ∀ l ∈ s.heap[ref]?,
      l.status = .voteCounting → ∀ config ∈ s.config, config.minMiner = 1 → roundVoters env s l ≠ []))
  | .resume | .makeOtprn _ | .call _ _ | .perform _ | .removeActiveNode _ =>
    inferInstanceAs (Decidable True)

end Guard

section Votes
variable {env : FairnodeEnv} {s t : Fairnode}

theorem step_voters_grow {a : Action} (next : step env s a = some t) (key : Hash) :
    ∃ more, t.db.getVoters key = s.db.getVoters key ++ more := by
  rcases step_votes next with same | ⟨i, otprnHash, number, voter, -, -, saved⟩
  · exact ⟨[], by rw [FairnodeDB.getVoters, same, append_nil]; rfl⟩
  · rw [saved, FairnodeDB.getVoters_saveVote]
    split
    · exact ⟨[voter], rfl⟩
    · exact ⟨[], (append_nil _).symm⟩

theorem Quorum.mono {l l' : League} (quorum : Quorum env s l) (otprn : l'.otprn = l.otprn)
    (current : l'.current = l.current) (blockHash : l'.blockHash = l.blockHash)
    (config : t.config = s.config)
    (votes : ∀ key, ∃ more, t.db.getVoters key = s.db.getVoters key ++ more) : Quorum env t l' := by
  obtain ⟨more, grown⟩ : ∃ more, roundVoters env t l' = roundVoters env s l ++ more := by
    unfold roundVoters
    rw [otprn, current]
    exact votes _
  obtain ⟨⟨h, member, elected⟩, ⟨inForce, isConfig, enough⟩, voted⟩ := quorum
  refine ⟨⟨h, ?_, blockHash.trans elected⟩, ⟨inForce, config.trans isConfig, ?_⟩, ?_⟩
  · rw [grown, votedHeaders, filterMap_append]
    exact mem_append_left _ member
  · rw [grown, length_append]
    omega
  · rw [grown, length_append]
    omega

theorem enough_of_guard {votes : ℕ} {minMiner : UInt64}
    (passes : ¬ UInt64.ofNat votes < minMiner - 1) (voted : minMiner = 1 → votes ≠ 0) :
    minMiner.toNat - 1 ≤ votes ∧ 1 ≤ votes := by
  rw [UInt64.lt_iff_toNat_lt, UInt64.toNat_ofNat', UInt64.toNat_sub] at passes
  have bound := minMiner.toNat_lt
  have one : minMiner = 1 ↔ minMiner.toNat = 1 := by
    rw [← UInt64.toNat_inj]
    rfl
  have less := Nat.mod_le votes (2 ^ 64)
  rw [one] at voted
  have literal : (1 : UInt64).toNat = 1 := rfl
  rw [literal] at passes
  by_cases zero : minMiner.toNat = 0
  · rw [zero] at passes
    omega
  · omega

end Votes

def League.SameRound (l' l : League) : Prop :=
  l'.otprn = l.otprn ∧ l'.current = l.current ∧ l'.blockHash = l.blockHash ∧ l'.votehash = l.votehash

section Sleep
variable {env : FairnodeEnv} {s t : Fairnode} {ref : ℕ} {status : FnStatus}

theorem asleep_frame {a : Action} (kept : HashesKept s) (asleep : s.loop = .sleeping ref status)
    (next : step env s a = some t) {l' : League} (found : t.heap[ref]? = some l') :
    ∃ l : League, s.heap[ref]? = some l ∧ l'.SameRound l := by
  cases step_league next found with
  | turned ticks isIdle => cases asleep.symm.trans isIdle
  | adopted was _ _ _ rejecting => cases asleep.symm.trans rejecting
  | kept was | woken was | set was => exact ⟨_, was, rfl, rfl, rfl, rfl⟩
  | added point index => exact absurd (kept.inRange ref status asleep) (by omega)

theorem step_config {a : Action} (next : step env s a = some t) (awake : s.loop ≠ .idle) :
    t.config = s.config := by
  cases step_cases next with
  | still built => rw [built]
  | ticked ticks isIdle => exact absurd isIdle awake
  | resumed resumed => exact resumed.frame.2.2.2.2
  | made made => exact made.loop_config.2
  | outside outside => exact outside.config

end Sleep

section Counts
variable {env : FairnodeEnv} {s t : Fairnode}

theorem countedQuorum_tick {order : List (Header × ℕ)} (next : tick env s order = some t)
    (counted : CountedQuorum env s) (guard : CountGuard env s (.tick order)) : CountedQuorum env t := by
  rcases tick_turn next with rfl | ⟨ref, l, l', isIdle, isActive, was, ticked⟩
  · exact counted
  intro r x asleep found
  have turn := ticked.turn
  rw [asleep] at turn
  cases turn with
  | sleep follows =>
    generalize l.status = status at follows
    cases follows
  | @count order config hash status inForce passes iter tallied =>
    have bound := (List.getElem?_eq_some_iff.mp was).1
    rw [ticked.heap, getElem?_set_self bound] at found
    cases found
    have voters (blockHash votehash : Option Hash) :
        roundVoters env t { l with blockHash, votehash } = roundVoters env s l := by
      unfold roundVoters
      rw [ticked.db]
    have inForce' : t.config = some config := by
      rcases ticked.config with same | ⟨pending, -⟩
      · exact same.trans inForce
      · cases status.symm.trans pending
    obtain ⟨enough, voted⟩ := enough_of_guard passes fun one =>
      length_eq_zero_iff.not.mpr (guard isIdle ref isActive l was status config inForce one)
    refine ⟨?_, ⟨config, inForce', by rwa [voters]⟩, by rwa [voters]⟩
    rw [voters]
    rcases voted_of_validationFinalBlockHash iter tallied with ⟨empty, -⟩ | ⟨h, member, rfl⟩
    · rw [empty] at voted
      cases voted
    · exact ⟨h, member, rfl⟩

theorem tick_counts_nothing {order : List (Header × ℕ)} (next : tick env s order = some t) {ref : ℕ}
    {l : League} {config : ChainConfig} (isIdle : s.loop = .idle) (isActive : s.active = some ref)
    (was : s.heap[ref]? = some l) (status : l.status = .voteCounting) (inForce : s.config = some config)
    (one : config.minMiner = 1) (none : roundVoters env s l = []) :
    t.loop = .sleeping ref .voteComplete ∧ t.db = s.db ∧
      t.heap[ref]? = some { l with blockHash := some 0, votehash := some (env.votersHash []) } := by
  obtain ⟨cur, isCurrent, found⟩ := Option.bind_eq_some_iff.mp isActive
  have bound := (List.getElem?_eq_some_iff.mp was).1
  have counts : tick env s order = countVotes env s ref l order := by
    simp [tick, isIdle, isCurrent, found, was, manage, status]
  unfold roundVoters at none
  rw [counts, countVotes] at next
  have passes : ¬ UInt64.ofNat ([] : List Voter).length < (1 : UInt64) - 1 := by decide
  simp only [none, inForce, one, if_neg passes] at next
  split at next
  · cases next
    exact ⟨rfl, rfl, getElem?_set_self bound⟩
  · cases next

theorem countedQuorum_step_iff {a : Action} (kept : HashesKept s) (counted : CountedQuorum env s)
    (next : step env s a = some t) : CountedQuorum env t ↔ CountGuard env s a := by
  by_cases ticks : ∃ order, a = .tick order
  · obtain ⟨order, rfl⟩ := ticks
    refine ⟨fun quorum isIdle ref isActive l was status config inForce one none => ?_,
      countedQuorum_tick next counted⟩
    obtain ⟨asleep, db, found⟩ :=
      tick_counts_nothing next isIdle isActive was status inForce one none
    have voted := (quorum ref _ asleep found).voted
    have voters (blockHash votehash : Option Hash) :
        roundVoters env t { l with blockHash, votehash } = [] := by
      rw [← none]
      unfold roundVoters
      rw [db]
    rw [voters] at voted
    cases voted
  · have other : ∀ order, a ≠ .tick order := fun order same => ticks ⟨order, same⟩
    have guard : CountGuard env s a := by
      cases a with
      | tick order => exact absurd rfl (other order)
      | resume | makeOtprn | call | perform | removeActiveNode => trivial
    refine iff_of_true ?_ guard
    intro ref l' asleep found
    have before : s.loop = .sleeping ref .voteComplete := by
      rcases step_asleep next asleep with before | ⟨⟨order, ticks⟩, -⟩
      · exact before
      · exact absurd ticks (other order)
    have config := step_config next (by simp [before])
    obtain ⟨l, was, otprn, current, blockHash, -⟩ := asleep_frame kept before next found
    exact (counted ref l before was).mono otprn current blockHash config (step_voters_grow next)

end Counts

section Entries
variable {env : FairnodeEnv} {s t : Fairnode} {ref : ℕ}

theorem Turn.status {l l' : League} {point : LoopPoint} (turn : Turn env s ref l l' point) :
    l'.status = l.status ∨ l'.status ≠ .voteComplete := by
  cases turn with
  | gather | reject | store => exact .inr (by simp)
  | wait | sleep | join | count | finish | leave => exact .inl rfl

theorem asleep_of_enters {a : Action} (kept : HashesKept s) (next : step env s a = some t) {l' : League}
    (enters : EntersVoteComplete s t ref l') : s.loop = .sleeping ref .voteComplete := by
  obtain ⟨found, status, fresh⟩ := enters
  cases step_league next found with
  | turned ticks isIdle isActive was ticked =>
    rcases ticked.turn.status with same | other
    · exact absurd (same.symm.trans status) (fresh _ was)
    · exact absurd status other
  | woken was loop => exact status ▸ loop
  | kept was => exact absurd status (fresh _ was)
  | adopted was =>
    have other := fresh _ was
    exact absurd status other
  | set was point =>
    rcases kept.decided _ _ _ point with joins | rejects
    · cases joins.symm.trans status
    · cases rejects.symm.trans status
  | added => cases status

end Entries

/-- A run elects every block by a quorum exactly when it counts no round for one miner without
a vote; a league then enters VOTE_COMPLETE with the hash of a stored vote's header and with
enough votes, one at least. -/
theorem voteComplete_quorum_iff (env : FairnodeEnv) (db : FairnodeDB) (acts : List Action) :
    (Always (step env) (CountedQuorum env) (Fairnode.start env.backend db) acts ↔
      Guarded (step env) (CountGuard env) (Fairnode.start env.backend db) acts) ∧
    (Guarded (step env) (CountGuard env) (Fairnode.start env.backend db) acts →
      ∀ s, run (step env) (Fairnode.start env.backend db) acts = some s →
      ∀ a t, step env s a = some t → ∀ ref l, EntersVoteComplete s t ref l → Quorum env t l) := by
  have start : CountedQuorum env (Fairnode.start env.backend db) := by
    intro ref l asleep
    cases asleep
  have exact_guard : Always (step env) (CountedQuorum env) (Fairnode.start env.backend db) acts ↔
      Guarded (step env) (CountGuard env) (Fairnode.start env.backend db) acts :=
    always_iff_guarded_within (fun _ _ _ kept _ next => HashesKept.step kept next)
      (fun _ _ _ kept counted _ next => countedQuorum_step_iff kept counted next)
      (hashesKept_start env.backend db) start (guarded_true _ acts)
  refine ⟨exact_guard, ?_⟩
  intro guarded s ran a t next ref l enters
  have kept : HashesKept s := run_keeps (fun _ _ _ kept _ next => kept.step next)
    (hashesKept_start env.backend db) (guarded_true _ acts) ran
  have counted : CountedQuorum env s :=
    exact_guard.mpr guarded acts [] s (append_nil acts).symm ran
  have asleep := asleep_of_enters kept next enters
  have config := step_config next (by simp [asleep])
  obtain ⟨was, found, otprn, current, blockHash, -⟩ := asleep_frame kept asleep next enters.1
  exact (counted ref was asleep found).mono otprn current blockHash config (step_voters_grow next)

def sampleCount (votes : List Request) (order : List (Header × ℕ)) : List Action :=
  sampleCall 0 (sampleBeat [1] 5) ++ sampleMake (sampleLeague 7 1 sampleConfig) ++
    sampleCall 0 (sampleJoin [1] 5) ++ sampleRound ++ votes.flatMap (sampleCall 0) ++ [.tick order]

theorem sampleCount_with_vote :
    ∃ s t l, run (step (sampleNode .mongo)) sampleStart
        (sampleCount [sampleVote (sampleCandidate []) 5] [(sampleCandidate [], 1)]) = some s ∧
      step (sampleNode .mongo) s .resume = some t ∧ t.heap[0]? = some l ∧
      l.status = .voteComplete ∧ Quorum (sampleNode .mongo) t l := by
  have enters : (run (step (sampleNode .mongo)) sampleStart
      (sampleCount [sampleVote (sampleCandidate []) 5] [(sampleCandidate [], 1)])).map (fun s =>
        ((s.heap[0]?).map League.status, (step (sampleNode .mongo) s .resume).map fun t =>
          (t.heap[0]?).map League.status)) =
      some (some .voteCounting, some (some .voteComplete)) := by decide +kernel
  obtain ⟨s, ran, both⟩ := Option.map_eq_some_iff.mp enters
  obtain ⟨before, after⟩ := Prod.mk.inj both
  obtain ⟨t, next, entered⟩ := Option.map_eq_some_iff.mp after
  obtain ⟨l, found, status⟩ := Option.map_eq_some_iff.mp entered
  obtain ⟨was, wasFound, wasStatus⟩ := Option.map_eq_some_iff.mp before
  refine ⟨s, t, l, ran, next, found, status,
    (voteComplete_quorum_iff (sampleNode .mongo) (.new [sampleConfig]) _).2 (by decide +kernel) s ran
      .resume t next 0 l ⟨found, status, ?_⟩⟩
  intro other isOther
  cases wasFound.symm.trans isOther
  rw [wasStatus]
  simp

/-- A league that needs one miner completes its vote without a vote, on the hash zero. -/
theorem sampleCount_without_vote :
    ∃ s t l, run (step (sampleNode .mongo)) sampleStart (sampleCount [] []) = some s ∧
      step (sampleNode .mongo) s .resume = some t ∧ t.heap[0]? = some l ∧
      l.status = .voteComplete ∧ l.blockHash = some 0 ∧ roundVoters (sampleNode .mongo) t l = [] ∧
      ¬ Quorum (sampleNode .mongo) t l := by
  have enters : ((run (step (sampleNode .mongo)) sampleStart (sampleCount [] [])).bind fun s =>
      (step (sampleNode .mongo) s .resume).bind fun t => (t.heap[0]?).map fun l =>
        (l.status, l.blockHash, roundVoters (sampleNode .mongo) t l)) =
      some (.voteComplete, some 0, []) := by decide +kernel
  obtain ⟨s, ran, enters⟩ := Option.bind_eq_some_iff.mp enters
  obtain ⟨t, next, enters⟩ := Option.bind_eq_some_iff.mp enters
  obtain ⟨l, found, enters⟩ := Option.map_eq_some_iff.mp enters
  obtain ⟨status, enters⟩ := Prod.mk.inj enters
  obtain ⟨blockHash, none⟩ := Prod.mk.inj enters
  refine ⟨s, t, l, ran, next, found, status, blockHash, none, fun quorum => ?_⟩
  have voted := quorum.voted
  rw [none] at voted
  cases voted

end Anduschain
