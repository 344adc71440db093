import Anduschain.VoteRegister

/-! Where the leader's machine can fail: pointers that may be nil and divisors that
may be zero. The statuses after VOTE_COUNTING carry their hashes and a pending
league has a block behind it, so the chain configuration and the stored votes
alone decide. -/
namespace Anduschain
open ByteOrder CheckedSteps FiniteRun List

inductive Fault where
  | nilBlockHash
  | nilCurrentInfo
  | nilHeader
  | divideByZero
  deriving DecidableEq

section Faults
variable (env : FairnodeEnv) (s : Fairnode)

def tickFault (l : League) : Option Fault :=
  match l.status with
  | .sendBlock => if l.blockHash = none then some .nilBlockHash else none
  | .finalize =>
    if s.db.currentBlock env.backend = none ∧ l.blockHash = none then some .nilBlockHash else none
  | .voteCounting =>
    -- the tally reads the header of its result, which is nil when no vote decodes
    if (∃ config ∈ s.config, ¬ UInt64.ofNat (roundVoters env s l).length < config.minMiner - 1) ∧
        roundVoters env s l ≠ [] ∧ votedHeaders (roundVoters env s l) = [] then
      some .nilHeader
    else none
  | _ => none

def changeFault : Option Fault :=
  s.currentLeague.bind fun cur =>
    s.pendingLeague.bind fun pending =>
      ((s.leagues.erase cur).lookup pending).bind fun _ =>
        if (s.db.currentInfo env.crypto env.backend).isNone then some .nilCurrentInfo else none

def epochFault (l : League) : Option Fault :=
  if l.otprn.data.epoch ≠ 0 ∧ l.current % 2 ^ 64 ≠ 0 ∧ (asInt64 l.otprn.data.epoch.toNat).tdiv 2 = 0
  then some .divideByZero
  else none

def fault : Action → Option Fault
  | .tick _ =>
    if s.loop = .idle then (s.active.bind fun ref => s.heap[ref]?).bind (tickFault env s) else none
  | .resume => if s.loop = .rejecting then changeFault env s else none
  | .makeOtprn _ =>
    if s.maker = .handling then (s.active.bind fun ref => s.heap[ref]?).bind epochFault else none
  | .call ref (.sendBlock req) =>
    if sendBlock env (held env s ref) req = .error .crash then some .nilBlockHash else none
  | .call _ _ | .perform _ | .removeActiveNode _ => none

end Faults

/-- Neither 1 nor the largest number, whose `int64` is -1. -/
def SafeEpoch (config : ChainConfig) : Prop := config.epoch ≠ 1 ∧ config.epoch ≠ -1

structure SafeContent (db : FairnodeDB) : Prop where
  epochs : ∀ config ∈ db.configs, SafeEpoch config
  votes : ∀ key, ∀ v ∈ db.getVoters key, (decodeHeader v.header).isSome

def FnStatus.elected : FnStatus → Bool
  | .voteComplete | .sendBlock | .reqFairnodeSign => true
  | _ => false

def League.HasHashes (l : League) : Prop := l.blockHash ≠ none ∧ l.votehash ≠ none

def MakerPoint.answers : MakerPoint → Bool
  | .handling | .writing _ _ _ | .preparing false | .assigning false _ => true
  | _ => false

def Begun (s : Fairnode) : Prop := s.loop = .sending ∨ s.pendingLeague ≠ none ∨ s.maker.answers

def MakerPoint.otprn? : MakerPoint → Option Otprn
  | .assigning _ otprn | .adding otprn => some otprn
  | _ => none

structure HashesKept (s : Fairnode) : Prop where
  elected : ∀ (ref : ℕ) (l : League), s.heap[ref]? = some l → l.status.elected → l.HasHashes
  finalized : ∀ (ref : ℕ) (l : League), s.heap[ref]? = some l → l.status = .finalize →
    l.HasHashes ∨ s.db.blockChain ≠ []
  asleep : ∀ ref next, s.loop = .sleeping ref next → next.elected ∨ next = .finalize →
    ∀ l : League, s.heap[ref]? = some l → l.HasHashes
  inRange : ∀ ref next, s.loop = .sleeping ref next → ref < s.heap.length
  decided : ∀ ref status pend, s.maker = .writing ref status pend →
    status = .makeJoinTx ∨ status = .reject
  begun : Begun s → s.db.blockChain ≠ []

section Hashes
variable {env : FairnodeEnv} {s t : Fairnode} {ref : ℕ} {l l' : League}

theorem Turn.hashes {point : LoopPoint} (turn : Turn env s ref l l' point)
    (elected : l.status.elected → l.HasHashes)
    (finalized : l.status = .finalize → l.HasHashes ∨ s.db.blockChain ≠ []) :
    (l'.status.elected → l'.HasHashes) ∧
      (l'.status = .finalize → l'.HasHashes ∨ s.db.blockChain ≠ []) ∧
      ∀ r next, point = .sleeping r next → next.elected ∨ next = .finalize → l'.HasHashes := by
  cases turn with
  | wait => exact ⟨elected, finalized, by simp⟩
  | gather status => simp [FnStatus.elected]
  | reject => simp [FnStatus.elected]
  | sleep follows =>
    refine ⟨elected, finalized, ?_⟩
    rintro _ _ ⟨⟩ awaits
    generalize l.status = status at follows elected
    cases follows <;> simp_all [FnStatus.elected]
  | join status last => simp [status, FnStatus.elected]
  | count status => simp [status, FnStatus.elected, League.HasHashes]
  | store status => exact ⟨fun _ => elected (by simp [status, FnStatus.elected]), by simp, by simp⟩
  | finish status current =>
    have block : s.db.blockChain ≠ [] := ne_nil_of_mem (FairnodeDB.mem_of_currentBlock current)
    exact ⟨by simp [status, FnStatus.elected], fun _ => .inr block, by simp⟩
  | leave status => exact ⟨elected, finalized, by simp⟩

theorem step_chain {a : Action} (next : step env s a = some t) (chain : s.db.blockChain ≠ []) :
    t.db.blockChain ≠ [] := by
  cases step_cases next with
  | still built => rwa [built]
  | ticked ticks isIdle isActive was ticked => rwa [ticked.db]
  | resumed resumed => rwa [resumed.frame.2.2.1]
  | made made =>
    cases made with
    | @save otprn point built =>
      obtain ⟨otprnList, frame⟩ := s.db.saveOtprn_frame env.crypto env.backend otprn
      rwa [built, frame]
    | _ => rename_i built; rw [built]; exact chain
  | outside outside =>
    obtain ⟨more, grown⟩ := outside.blockChain
    intro empty
    rw [grown, append_eq_nil_iff] at empty
    exact chain empty.1

theorem step_writing {a : Action} (next : step env s a = some t) {status : FnStatus} {pend : Bool}
    (writing : t.maker = .writing ref status pend) : s.maker = .writing ref status pend ∨
      s.maker = .handling ∧ s.active = some ref ∧
        ∃ l : League, s.heap[ref]? = some l ∧ epochStatus l = some (status, pend) := by
  cases step_cases next with
  | still built => exact .inl (built ▸ writing)
  | ticked ticks isIdle isActive was ticked => exact .inl (ticked.maker.symm.trans writing)
  | resumed resumed =>
    rcases resumed.maker with same | ⟨-, handling⟩
    · exact .inl (same.symm.trans writing)
    · cases handling.symm.trans writing
  | made made =>
    cases made with
    | rest idle built => rw [built] at writing; exact .inl writing
    | decide point isActive was decided built =>
      rw [built] at writing
      cases writing
      exact .inr ⟨point, isActive, _, was, decided⟩
    | @write ref l status pend point was built =>
      rw [built] at writing
      cases pend <;> cases writing
    | _ => rename_i built; rw [built] at writing; cases writing
  | outside outside => exact .inl (outside.maker.symm.trans writing)

theorem step_begun {a : Action} (next : step env s a = some t) (begun : Begun t) :
    Begun s ∨ s.db.blockChain ≠ [] := by
  rcases begun with sending | pending | answers
  · cases step_cases next with
    | still built => exact .inl (.inl (built ▸ sending))
    | ticked ticks isIdle isActive was ticked =>
      have turn := ticked.turn
      rw [sending] at turn
      cases turn with
      | finish status current =>
        exact .inr (ne_nil_of_mem (FairnodeDB.mem_of_currentBlock current))
    | resumed resumed => cases resumed <;> (rename_i built; rw [built] at sending; cases sending)
    | made made => exact .inl (.inl (made.loop_config.1.symm.trans sending))
    | outside outside => exact .inl (.inl (outside.loop.symm.trans sending))
  · left
    cases step_cases next with
    | still built => exact .inr (.inl (built ▸ pending))
    | ticked ticks isIdle isActive was ticked => exact .inr (.inl (ticked.pendingLeague ▸ pending))
    | resumed resumed =>
      cases resumed with
      | change loop changed built =>
        obtain ⟨cur, -, changed⟩ := changeLeague_cases changed
        cases changed <;> (rename_i made; rw [built, made] at pending)
        · exact .inr (.inl pending)
        · exact .inr (.inl pending)
        · exact absurd rfl pending
      | wake loop was built => rw [built] at pending; exact .inr (.inl pending)
      | signal loop idle built => rw [built] at pending; exact .inr (.inl pending)
      | refresh loop built => rw [built] at pending; exact .inr (.inl pending)
    | made made =>
      cases made with
      | pending point none built => exact .inr (.inr (by rw [point]; rfl))
      | _ => rename_i built; rw [built] at pending; exact .inr (.inl pending)
    | outside outside => exact .inr (.inl (outside.pendingLeague ▸ pending))
  · left
    cases step_cases next with
    | still built => exact .inr (.inr (built ▸ answers))
    | ticked ticks isIdle isActive was ticked => exact .inr (.inr (ticked.maker ▸ answers))
    | resumed resumed =>
      rcases resumed.maker with same | ⟨sending, -⟩
      · exact .inr (.inr (same ▸ answers))
      · exact .inl sending
    | made made =>
      cases made with
      | rest idle built => rw [built] at answers; exact .inr (.inr answers)
      | @prepare isCur config otprn point stored fresh built =>
        rw [built] at answers
        rw [Begun, point]
        cases isCur with
        | true => cases answers
        | false => exact .inr (.inr rfl)
      | decide point isActive was decided built => exact .inr (.inr (by rw [point]; rfl))
      | write point was built => exact .inr (.inr (by rw [point]; rfl))
      | _ => rename_i built; rw [built] at answers; cases answers
    | outside outside => exact .inr (.inr (outside.maker ▸ answers))

theorem HashesKept.step {a : Action} (kept : HashesKept s) (next : step env s a = some t) :
    HashesKept t where
  elected r x found status := by
    cases step_league next found with
    | turned ticks isIdle isActive was ticked =>
      exact (ticked.turn.hashes (kept.elected r _ was) (kept.finalized r _ was)).1 status
    | kept was => exact kept.elected r x was status
    | woken was loop =>
      have hashes := kept.asleep r _ loop (.inl status) _ was
      exact hashes
    | adopted was =>
      have hashes := kept.elected r _ was
      exact hashes status
    | set was point =>
      rcases kept.decided _ _ _ point with rfl | rfl <;> cases status
    | added => cases status
  finalized r x found status := by
    have grows := step_chain next
    cases step_league next found with
    | turned ticks isIdle isActive was ticked =>
      have hashes := ticked.turn.hashes (kept.elected r _ was) (kept.finalized r _ was)
      exact (hashes.2.1 status).imp_right grows
    | kept was => exact (kept.finalized r x was status).imp_right grows
    | woken was loop =>
      have hashes := kept.asleep r _ loop (.inr status) _ was
      exact .inl hashes
    | adopted was =>
      have hashes := kept.finalized r _ was
      exact (hashes status).imp_right grows
    | set was point =>
      rcases kept.decided _ _ _ point with rfl | rfl <;> cases status
    | added => cases status
  asleep r awaited loop awaits x found := by
    cases step_league next found with
    | turned ticks isIdle isActive was ticked =>
      have hashes := ticked.turn.hashes (kept.elected r _ was) (kept.finalized r _ was)
      exact hashes.2.2 r awaited loop awaits
    | kept was asleep => exact kept.asleep r awaited (asleep awaited loop) awaits x was
    | woken was asleep idle => cases idle.symm.trans loop
    | adopted was _ _ _ _ refreshing => cases refreshing.symm.trans loop
    | set was point same =>
      have hashes := kept.asleep r awaited (same.symm.trans loop) awaits _ was
      exact hashes
    | added point index same =>
      exact absurd (kept.inRange r awaited (same.symm.trans loop)) (by omega)
  inRange r status loop := by
    rcases step_asleep next loop with before | ⟨-, -, bound⟩
    · exact (kept.inRange r status before).trans_le (step_heap_length next)
    · exact bound.trans_le (step_heap_length next)
  decided r status pend writing := by
    rcases step_writing next writing with before | ⟨-, -, l, -, decided⟩
    · exact kept.decided r status pend before
    · exact epochStatus_cases decided
  begun begun := by
    rcases step_begun next begun with before | chain
    · exact step_chain next (kept.begun before)
    · exact step_chain next chain

theorem hashesKept_start (backend : Backend) (db : FairnodeDB) : HashesKept (.start backend db) := by
  refine ⟨by simp [Fairnode.start], by simp [Fairnode.start], by simp [Fairnode.start],
    by simp [Fairnode.start], by simp [Fairnode.start], ?_⟩
  simp [Begun, Fairnode.start, MakerPoint.answers]

end Hashes

def Served (db : FairnodeDB) (config : ChainConfig) : Prop :=
  config ∈ db.configs ∨ config = memChainConfig

/-- Every configuration in use is one of the database, and every stored vote decodes or was
there from the start. -/
structure Stocked (db : FairnodeDB) (s : Fairnode) : Prop where
  configs : s.db.configs = db.configs
  leagues : ∀ (ref : ℕ) (l : League), s.heap[ref]? = some l → Served db l.otprn.data
  maker : ∀ otprn ∈ s.maker.otprn?, Served db otprn.data
  votes : ∀ key, ∀ v ∈ s.db.getVoters key, v ∈ db.getVoters key ∨ (decodeHeader v.header).isSome
  writes : ∀ otprnHash number v, DbWrite.saveVote otprnHash number v ∈ s.writes →
    (decodeHeader v.header).isSome

section Stock
variable {env : FairnodeEnv} {db : FairnodeDB} {s t : Fairnode}

theorem served_of_getChainConfig {crypto : Crypto} {backend : Backend} {config : ChainConfig}
    (stored : db.getChainConfig crypto backend = some config) : Served db config := by
  cases backend with
  | mem =>
    cases stored
    exact .inr rfl
  | mongo => exact .inl (mem_of_mem_filter (argmax_mem stored))

theorem step_holds {a : Action} (next : step env s a = some t) {otprn : Otprn}
    (holds : t.maker.otprn? = some otprn) : s.maker.otprn? = some otprn ∨
      s.db.getChainConfig env.crypto env.backend = some otprn.data := by
  cases step_cases next with
  | still built =>
    rw [built] at holds
    exact .inl holds
  | ticked ticks isIdle isActive was ticked =>
    rw [ticked.maker] at holds
    exact .inl holds
  | resumed resumed =>
    rcases resumed.maker with same | ⟨-, handling⟩
    · rw [same] at holds
      exact .inl holds
    · rw [handling] at holds
      cases holds
  | made made =>
    cases made with
    | rest idle built =>
      rw [built] at holds
      exact .inl holds
    | prepare point stored fresh built =>
      rw [built] at holds
      cases holds
      exact .inr (stored.trans (congrArg some fresh.2.2.1.symm))
    | current point none built =>
      rw [built] at holds
      rw [point]
      exact .inl holds
    | pending point none built =>
      rw [built] at holds
      rw [point]
      exact .inl holds
    | @write ref l status pend point was built =>
      rw [built] at holds
      cases pend <;> cases holds
    | begin idle none built =>
      rw [built] at holds
      cases holds
    | scarce point stored few built =>
      rw [built] at holds
      cases holds
    | taken point exist built =>
      rw [built] at holds
      cases holds
    | add point built =>
      rw [built] at holds
      cases holds
    | save point built =>
      rw [built] at holds
      cases holds
    | ignore point none built =>
      rw [built] at holds
      cases holds
    | decide point isActive was decided built =>
      rw [built] at holds
      cases holds
  | outside outside =>
    rw [outside.maker] at holds
    exact .inl holds

theorem step_configs {a : Action} (next : step env s a = some t) : t.db.configs = s.db.configs := by
  cases a with
  | tick order =>
    rcases tick_turn next with rfl | ⟨ref, l, l', -, -, -, ticked⟩
    · rfl
    · rw [ticked.db]
  | resume => rw [(resume_cases next).frame.2.2.1]
  | makeOtprn fresh =>
    obtain ⟨-, -, -, same | ⟨otprn, -, saved⟩⟩ := makeOtprn_effect next
    · rw [same]
    · obtain ⟨otprnList, frame⟩ := s.db.saveOtprn_frame env.crypto env.backend otprn
      rw [saved, frame]
  | call ref req => exact (call_outside next).configs
  | perform i =>
    obtain ⟨w, -, rfl⟩ := Option.map_eq_some_iff.mp next
    exact (perform_outside s i w).configs
  | removeActiveNode enode =>
    cases next
    rfl

theorem Stocked.step {a : Action} (stocked : Stocked db s) (next : step env s a = some t) :
    Stocked db t where
  configs := (step_configs next).trans stocked.configs
  leagues := by
    intro ref l' found
    cases step_league next found with
    | turned ticks isIdle isActive was ticked =>
      rw [ticked.turn.otprn]
      exact stocked.leagues ref _ was
    | kept was | woken was | adopted was | set was =>
      have served := stocked.leagues ref _ was
      exact served
    | added point => exact stocked.maker _ (by rw [point]; rfl)
  maker := by
    intro otprn holds
    rcases step_holds next holds with held | stored
    · exact stocked.maker otprn held
    · have served := served_of_getChainConfig stored
      rwa [Served, stocked.configs] at served
  votes := by
    intro key v member
    rcases step_votes next with same | ⟨i, otprnHash, number, voter, -, found, saved⟩
    · refine stocked.votes key v ?_
      rwa [FairnodeDB.getVoters, ← same]
    · rw [saved, FairnodeDB.getVoters_saveVote] at member
      split at member
      · rw [mem_append, mem_singleton] at member
        rcases member with old | rfl
        · exact stocked.votes key v old
        · exact .inr (stocked.writes otprnHash number v (mem_of_getElem? found))
      · exact stocked.votes key v member
  writes := by
    intro otprnHash number v member
    rcases step_writes next member with old | ⟨ref, req, rfl, decides⟩
    · exact stocked.writes otprnHash number v old
    · cases req with
      | vote req =>
        obtain ⟨_, _, _, accepted, same⟩ := decides
        cases same
        obtain ⟨rfl, header, -, decoded, -⟩ := vote_ok accepted
        simp [decoded]
      | heartBeat peer now req =>
        obtain ⟨node, -, same⟩ := decides
        cases same
      | requestOtprn req =>
        obtain ⟨otprn, -, same⟩ := decides
        cases same
      | sendBlock req =>
        obtain ⟨block, -, same⟩ := decides
        cases same
      | requestFairnodeSign req => exact decides.elim

theorem stocked_start (backend : Backend) (db : FairnodeDB) : Stocked db (.start backend db) := by
  refine ⟨rfl, by simp [Fairnode.start], by simp [Fairnode.start, MakerPoint.otprn?], ?_,
    by simp [Fairnode.start]⟩
  intro key v member
  exact .inl member

end Stock

section NoFault
variable {env : FairnodeEnv} {db : FairnodeDB} {s : Fairnode}

theorem sendBlock_crash {find : Hash → Option League} {req : ReqBlock}
    (crash : sendBlock env find req = .error .crash) :
    ∃ hash clg, find hash = some clg ∧ clg.status = .sendBlock ∧ ¬ clg.HasHashes := by
  unfold sendBlock checkSign at crash
  simp only [bind_eq_error, rejectIf_eq_error, orReject_eq_error, mapError_eq_error,
    orReject_eq_ok, rejectIf_eq_ok, exists_unit, reduceCtorEq, and_false, exists_const, false_or,
    exists_false, and_true, not_not] at crash
  obtain ⟨-, -, -, -, block, -, otprn, -, clg, found, status, crash⟩ := crash
  refine ⟨_, clg, found, status, fun hashes => ?_⟩
  rcases crash with none | ⟨_, -, -, none | ⟨_, -, -, returned⟩⟩
  · exact hashes.1 none
  · exact hashes.2 none
  · cases returned

theorem epochFault_some {l : League} {f : Fault} (faulty : epochFault l = some f) :
    f = .divideByZero ∧ ¬ SafeEpoch l.otprn.data := by
  unfold epochFault at faulty
  split at faulty
  · rename_i zero
    cases faulty
    refine ⟨rfl, fun safe => ?_⟩
    rcases halfEpoch_eq_zero.mp (Int.natAbs_eq_zero.mpr zero.2.2) with none | one | most
    · exact zero.1 none
    · exact safe.1 one
    · exact safe.2 most
  · cases faulty

theorem tickFault_some (kept : HashesKept s) {ref : ℕ} {l : League} (was : s.heap[ref]? = some l)
    {f : Fault} (faulty : tickFault env s l = some f) :
    f = .nilHeader ∧ ∃ v ∈ roundVoters env s l, decodeHeader v.header = none := by
  unfold tickFault at faulty
  cases status : l.status with
  | sendBlock =>
    have hashes := kept.elected ref l was (by rw [status]; rfl)
    rw [status] at faulty
    simp [hashes.1] at faulty
  | finalize =>
    rw [status] at faulty
    dsimp only at faulty
    split at faulty
    · rename_i nil
      rcases kept.finalized ref l was status with hashes | chain
      · exact absurd nil.2 hashes.1
      · exact absurd (FairnodeDB.currentBlock_eq_none.mp nil.1) chain
    · cases faulty
  | voteCounting =>
    rw [status] at faulty
    dsimp only at faulty
    split at faulty
    · rename_i nil
      cases faulty
      obtain ⟨-, some, none⟩ := nil
      obtain ⟨v, member⟩ := exists_mem_of_ne_nil _ some
      exact ⟨rfl, v, member, filterMap_eq_nil_iff.mp none v member⟩
    · cases faulty
  | pending | saveOtprn | makeLeague | makeJoinTx | makeBlock | leagueBroadcasting | voteStart
  | voteComplete | makePendingLeague | sendBlockWait | reqFairnodeSign | reject =>
    rw [status] at faulty
    cases faulty

theorem changeFault_eq_none (kept : HashesKept s) : changeFault env s = none := by
  unfold changeFault
  cases isCurrent : s.currentLeague with
  | none => rfl
  | some cur =>
    cases isPending : s.pendingLeague with
    | none => rfl
    | some pending =>
      have chain : s.db.blockChain ≠ [] := kept.begun (.inr (.inl (by simp [isPending])))
      have stored : (s.db.currentInfo env.crypto env.backend).isNone = false := by
        rw [FairnodeDB.currentInfo, Option.isNone_map, Option.isNone_eq_false_iff,
          Option.isSome_iff_ne_none]
        exact fun none => chain (FairnodeDB.currentBlock_eq_none.mp none)
      simp [stored]

theorem fault_some (kept : HashesKept s) (stocked : Stocked db s) {a : Action} {f : Fault}
    (faulty : fault env s a = some f) :
    (f = .divideByZero ∧ ∃ config ∈ db.configs, ¬ SafeEpoch config) ∨
      (f = .nilHeader ∧ ∃ key, ∃ v ∈ db.getVoters key, decodeHeader v.header = none) := by
  cases a with
  | tick order =>
    simp only [fault] at faulty
    split at faulty
    · obtain ⟨l, current, faulty⟩ := Option.bind_eq_some_iff.mp faulty
      obtain ⟨ref, -, was⟩ := Option.bind_eq_some_iff.mp current
      obtain ⟨rfl, v, member, undecoded⟩ := tickFault_some kept was faulty
      rcases stocked.votes _ v member with old | decoded
      · exact .inr ⟨rfl, _, v, old, undecoded⟩
      · rw [undecoded] at decoded
        cases decoded
    · cases faulty
  | resume =>
    simp only [fault, changeFault_eq_none kept, ite_self] at faulty
    cases faulty
  | makeOtprn fresh =>
    simp only [fault] at faulty
    split at faulty
    · obtain ⟨l, current, faulty⟩ := Option.bind_eq_some_iff.mp faulty
      obtain ⟨ref, -, was⟩ := Option.bind_eq_some_iff.mp current
      obtain ⟨rfl, unsafeEpoch⟩ := epochFault_some faulty
      rcases stocked.leagues ref l was with stored | mem
      · exact .inl ⟨rfl, l.otprn.data, stored, unsafeEpoch⟩
      · rw [mem] at unsafeEpoch
        exact absurd ⟨by decide, by decide⟩ unsafeEpoch
    · cases faulty
  | call ref req =>
    cases req with
    | sendBlock req =>
      simp only [fault] at faulty
      split at faulty
      · rename_i crash
        obtain ⟨hash, clg, found, status, missing⟩ := sendBlock_crash crash
        have was : s.heap[ref]? = some clg := (held_eq_some.mp found).1
        exact absurd (kept.elected ref clg was (by rw [status]; rfl)) missing
      · cases faulty
    | heartBeat | requestOtprn | vote | requestFairnodeSign => cases faulty
  | perform | removeActiveNode => cases faulty

end NoFault

section Stops
variable {env : FairnodeEnv} {s : Fairnode} {l : League} {f : Fault}

end Stops

/-- From a database with safe epochs and votes that decode, no step of the leader's machine
dereferences a nil hash, block or header or divides by zero. -/
theorem leader_never_faults (env : FairnodeEnv) (db : FairnodeDB) (safe : SafeContent db)
    (acts : List Action) (s : Fairnode)
    (ran : run (step env) (Fairnode.start env.backend db) acts = some s) (a : Action) :
    fault env s a = none := by
  have kept : HashesKept s := run_keeps (fun _ _ _ kept _ next => kept.step next)
    (hashesKept_start env.backend db) (guarded_true _ acts) ran
  have stocked : Stocked db s := run_keeps (fun _ _ _ stocked _ next => stocked.step next)
    (stocked_start env.backend db) (guarded_true _ acts) ran
  cases faulty : fault env s a with
  | none => rfl
  | some f =>
    rcases fault_some kept stocked faulty with ⟨-, config, stored, bad⟩ | ⟨-, key, v, stored, bad⟩
    · exact absurd (safe.epochs config stored) bad
    · have decoded := safe.votes key v stored
      rw [bad] at decoded
      cases decoded

def sampleFirstRound (config : ChainConfig) : List Action :=
  let otprn := sampleLeague 7 1 config
  let block := sampleBlock otprn []
  sampleCall 0 (sampleBeat [1] 5) ++ sampleElection 0 otprn block 5 ++
    [.resume, .tick [], .resume] ++ sampleCall 0 (sampleSend block 5) ++
    [.tick [], .tick [], .resume, .tick [], .resume]

def samplePeriod (epoch : UInt64) : ChainConfig := { sampleConfig with epoch }

def samplePeriodStart (epoch : UInt64) : Fairnode := .start .mongo (.new [samplePeriod epoch])

theorem sampleFirstRound_no_fault :
    SafeContent (.new [samplePeriod 10]) ∧ ∃ s, run (step (sampleNode .mongo))
      (samplePeriodStart 10) (sampleFirstRound (samplePeriod 10)) = some s ∧ s.maker = .handling ∧
      fault (sampleNode .mongo) s (.makeOtprn (sampleLeague 7 1 sampleConfig)) = none := by
  have safe : SafeContent (.new [samplePeriod 10]) := by
    refine ⟨?_, by simp [FairnodeDB.new, FairnodeDB.getVoters]⟩
    intro config member
    rw [mem_singleton.mp member]
    exact ⟨by decide, by decide⟩
  have signalled : (run (step (sampleNode .mongo)) (samplePeriodStart 10)
      (sampleFirstRound (samplePeriod 10))).map Fairnode.maker = some .handling := by decide +kernel
  obtain ⟨s, ran, handling⟩ := Option.map_eq_some_iff.mp signalled
  exact ⟨safe, s, ran, handling, leader_never_faults (sampleNode .mongo) _ safe _ s ran _⟩

def sampleScrap : FairnodeDB :=
  (FairnodeDB.new [sampleConfig]).saveVote .mongo
    ((sampleLeague 7 1 sampleConfig).hashOtprn sampleCrypto) 1 ⟨[], 5, []⟩

/-- With an epoch of one the signal after the first block divides by zero, and a round with
undecodable votes alone reads the header of no result. -/
theorem sampleFirstRound_divides_by_zero :
    (run (step (sampleNode .mongo)) (samplePeriodStart 1) (sampleFirstRound (samplePeriod 1))).map
        (fun s => (fault (sampleNode .mongo) s (.makeOtprn (sampleLeague 7 1 sampleConfig)),
          (step (sampleNode .mongo) s (.makeOtprn (sampleLeague 7 1 sampleConfig))).isSome)) =
      some (some .divideByZero, false) ∧
    (run (step (sampleNode .mongo)) (.start .mongo sampleScrap)
        (sampleCall 0 (sampleBeat [1] 5) ++ sampleMake (sampleLeague 7 1 sampleConfig) ++
          sampleCall 0 (sampleJoin [1] 5) ++ sampleRound)).map (fun s => (fault (sampleNode .mongo) s (.tick []),
          (step (sampleNode .mongo) s (.tick [])).isSome)) =
      some (some .nilHeader, false) := by
  exact ⟨by decide +kernel, by decide +kernel⟩

end Anduschain
