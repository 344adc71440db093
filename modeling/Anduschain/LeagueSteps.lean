import Anduschain.LeagueMachine

/-! What each step of the leader's machine can do to the leagues, said once: a tick
turns the current league, a wake-up sets the status it slept on, the REJECT
branch changes the league, and `makeOtprn` adds leagues and sets statuses. -/
namespace Anduschain
open List
open Option (map_eq_some_iff bind_eq_some_iff)

inductive Follows : FnStatus → FnStatus → Prop
  | makeJoinTx : Follows .makeLeague .makeJoinTx
  | leagueBroadcasting : Follows .makeBlock .leagueBroadcasting
  | voteStart : Follows .leagueBroadcasting .voteStart
  | voteCounting : Follows .voteStart .voteCounting
  | sendBlock : Follows .voteComplete .sendBlock
  | finalize : Follows .reqFairnodeSign .finalize

def roundVoters (env : FairnodeEnv) (s : Fairnode) (l : League) : List Voter :=
  s.db.getVoters (makeVoteKey (l.otprn.hashOtprn env.crypto) (l.current + 1))

inductive Turn (env : FairnodeEnv) (s : Fairnode) (ref : ℕ) (l : League) : League → LoopPoint → Prop
  | wait : Turn env s ref l l .idle
  | gather (status : l.status = .pending) : Turn env s ref l { l with status := .makeLeague } .idle
  | reject : Turn env s ref l { l with status := .reject } .idle
  | sleep {next : FnStatus} (follows : Follows l.status next) : Turn env s ref l l (.sleeping ref next)
  | join {current : ℕ} (status : l.status = .makeJoinTx)
      (last : current = (s.lastBlock.map Header.number).getD l.current) :
      Turn env s ref l { l with current } (.sleeping ref .makeBlock)
  | count {order : List (Header × ℕ)} {config : ChainConfig} {hash : Hash}
      (status : l.status = .voteCounting) (inForce : s.config = some config)
      (quorum : ¬ UInt64.ofNat (roundVoters env s l).length < config.minMiner - 1)
      (iter : MapOrder env.crypto (roundVoters env s l) order)
      (tallied : validationFinalBlockHash env.crypto (roundVoters env s l) order = some hash) :
      Turn env s ref l
        { l with blockHash := some hash, votehash := some (env.votersHash (roundVoters env s l)) }
        (.sleeping ref .voteComplete)
  | store {hash : Hash} (status : l.status = .sendBlock) (blockHash : l.blockHash = some hash) :
      Turn env s ref l { l with status := .reqFairnodeSign } .idle
  | finish {block : Header} (status : l.status = .finalize)
      (current : s.db.currentBlock env.backend = some block) :
      Turn env s ref l { l with current := block.number, votehash := none, blockHash := none } .sending
  | leave (status : l.status = .reject) : Turn env s ref l l .rejecting

structure Ticked (env : FairnodeEnv) (s t : Fairnode) (ref : ℕ) (l l' : League) : Prop where
  heap : t.heap = s.heap.set ref l'
  leagues : t.leagues = s.leagues
  currentLeague : t.currentLeague = s.currentLeague
  pendingLeague : t.pendingLeague = s.pendingLeague
  maker : t.maker = s.maker
  writes : t.writes = s.writes
  db : t.db = s.db
  config : t.config = s.config ∨ l.status = .pending ∧ t.config = some l.otprn.data
  turn : Turn env s ref l l' t.loop

section Ticks
variable {env : FairnodeEnv} {s t : Fairnode} {ref : ℕ} {l : League}

theorem Ticked.same (was : s.heap[ref]? = some l) {point : LoopPoint}
    (turn : Turn env s ref l l point) : Ticked env s { s with loop := point } ref l l :=
  ⟨(heap_set_self was).symm, rfl, rfl, rfl, rfl, rfl, rfl, .inl rfl, turn⟩

theorem removeBlock_of_none {db : FairnodeDB} {backend : Backend} (crypto : Crypto) (hash : Hash)
    (none : db.currentBlock backend = none) : db.removeBlock crypto backend hash = db := by
  have empty := FairnodeDB.currentBlock_eq_none.mp none
  cases backend with
  | mem => simp [FairnodeDB.removeBlock, empty]
  | mongo =>
    rw [FairnodeDB.removeBlock, empty, filter_nil, ← empty]

theorem awaitNodes_turn (isIdle : s.loop = .idle) (was : s.heap[ref]? = some l)
    (status : l.status = .pending) (cur : Hash) :
    ∃ l', Ticked env s (awaitNodes s cur ref l) ref l l' := by
  unfold awaitNodes
  dsimp only
  split
  · exact ⟨_, rfl, rfl, rfl, rfl, rfl, rfl, rfl, .inr ⟨status, rfl⟩, isIdle ▸ .gather status⟩
  · split
    · exact ⟨_, rfl, rfl, rfl, rfl, rfl, rfl, rfl, .inr ⟨status, rfl⟩, isIdle ▸ .reject⟩
    · exact ⟨l, (heap_set_self was).symm, rfl, rfl, rfl, rfl, rfl, rfl, .inr ⟨status, rfl⟩,
        isIdle ▸ .wait⟩

theorem makeJoinTx_turn (status : l.status = .makeJoinTx) :
    ∃ l', Ticked env s (makeJoinTx s ref l) ref l l' := by
  unfold makeJoinTx
  cases last : s.lastBlock with
  | none =>
    exact ⟨{ l with current := l.current }, rfl, rfl, rfl, rfl, rfl, rfl, rfl, .inl rfl,
      .join status (by rw [last]; rfl)⟩
  | some block =>
    exact ⟨_, rfl, rfl, rfl, rfl, rfl, rfl, rfl, .inl rfl, .join status (by rw [last]; rfl)⟩

variable {order : List (Header × ℕ)}

theorem countVotes_turn (isIdle : s.loop = .idle) (status : l.status = .voteCounting)
    (next : countVotes env s ref l order = some t) : ∃ l', Ticked env s t ref l l' := by
  unfold countVotes at next
  dsimp only at next
  split at next
  · cases next
  · rename_i config inForce
    split at next
    · cases next
      exact ⟨_, rfl, rfl, rfl, rfl, rfl, rfl, rfl, .inl rfl, isIdle ▸ .reject⟩
    · rename_i quorum
      split at next
      · rename_i iter
        obtain ⟨hash, tallied, rfl⟩ := map_eq_some_iff.mp next
        exact ⟨_, rfl, rfl, rfl, rfl, rfl, rfl, rfl, .inl rfl,
          .count status inForce quorum iter tallied⟩
      · cases next

theorem awaitBlock_turn (isIdle : s.loop = .idle) (was : s.heap[ref]? = some l)
    (status : l.status = .sendBlock) (next : awaitBlock env s ref l = some t) :
    ∃ l', Ticked env s t ref l l' := by
  unfold awaitBlock at next
  split at next
  · cases next
  · rename_i hash blockHash
    split at next
    · cases next
      exact ⟨_, rfl, rfl, rfl, rfl, rfl, rfl, rfl, .inl rfl, isIdle ▸ .store status blockHash⟩
    · split at next
      · cases next
        exact ⟨_, rfl, rfl, rfl, rfl, rfl, rfl, rfl, .inl rfl, isIdle ▸ .reject⟩
      · cases next
        exact ⟨l, (heap_set_self was).symm, rfl, rfl, rfl, rfl, rfl, rfl, .inl rfl, isIdle ▸ .wait⟩

theorem finalizeRound_turn (isIdle : s.loop = .idle) (status : l.status = .finalize)
    (next : finalizeRound env s ref l = some t) : ∃ l', Ticked env s t ref l l' := by
  unfold finalizeRound at next
  split at next
  · rename_i block current
    cases next
    exact ⟨_, rfl, rfl, rfl, rfl, rfl, rfl, rfl, .inl rfl, .finish status current⟩
  · rename_i none
    obtain ⟨hash, -, rfl⟩ := map_eq_some_iff.mp next
    exact ⟨_, rfl, rfl, rfl, rfl, rfl, rfl, removeBlock_of_none env.crypto hash none, .inl rfl,
      isIdle ▸ .reject⟩

theorem manage_turn (isIdle : s.loop = .idle) (was : s.heap[ref]? = some l) {cur : Hash}
    (next : manage env s cur ref l order = some t) : ∃ l', Ticked env s t ref l l' := by
  have sleeps {point : LoopPoint} (turn : Turn env s ref l l point)
      (built : some { s with loop := point } = some t) : ∃ l', Ticked env s t ref l l' := by
    cases built
    exact ⟨l, .same was turn⟩
  unfold manage at next
  cases status : l.status with
  | pending =>
    rw [status] at next
    cases next
    exact awaitNodes_turn isIdle was status cur
  | makeJoinTx =>
    rw [status] at next
    cases next
    exact makeJoinTx_turn status
  | voteCounting =>
    rw [status] at next
    exact countVotes_turn isIdle status next
  | sendBlock =>
    rw [status] at next
    exact awaitBlock_turn isIdle was status next
  | finalize =>
    rw [status] at next
    exact finalizeRound_turn isIdle status next
  | makeLeague =>
    rw [status] at next
    exact sleeps (.sleep (status ▸ .makeJoinTx)) next
  | makeBlock =>
    rw [status] at next
    exact sleeps (.sleep (status ▸ .leagueBroadcasting)) next
  | leagueBroadcasting =>
    rw [status] at next
    exact sleeps (.sleep (status ▸ .voteStart)) next
  | voteStart =>
    rw [status] at next
    exact sleeps (.sleep (status ▸ .voteCounting)) next
  | voteComplete =>
    rw [status] at next
    exact sleeps (.sleep (status ▸ .sendBlock)) next
  | reqFairnodeSign =>
    rw [status] at next
    exact sleeps (.sleep (status ▸ .finalize)) next
  | reject =>
    rw [status] at next
    exact sleeps (.leave status) next
  | saveOtprn | makePendingLeague | sendBlockWait =>
    rw [status] at next
    cases next
    exact ⟨l, (heap_set_self was).symm, rfl, rfl, rfl, rfl, rfl, rfl, .inl rfl, isIdle ▸ .wait⟩

theorem tick_turn (next : tick env s order = some t) :
    t = s ∨ ∃ ref l l', s.loop = .idle ∧ s.active = some ref ∧ s.heap[ref]? = some l ∧
      Ticked env s t ref l l' := by
  obtain same | ⟨cur, ref, l, isIdle, isActive, was, managed⟩ := tick_manages next
  · exact .inl same
  · obtain ⟨l', ticked⟩ := manage_turn isIdle was managed
    exact .inr ⟨ref, l, l', isIdle, isActive, was, ticked⟩

end Ticks

inductive Resumed (env : FairnodeEnv) (s t : Fairnode) : Prop
  | wake {ref : ℕ} {next : FnStatus} {l : League} (loop : s.loop = .sleeping ref next)
      (was : s.heap[ref]? = some l)
      (built : t = { s.setLeague ref { l with status := next } with loop := .idle })
  | signal (loop : s.loop = .sending) (idle : s.maker = .idle)
      (built : t = { s with loop := .idle, maker := .handling })
  | change {u : Fairnode} (loop : s.loop = .rejecting) (changed : changeLeague env s = some u)
      (built : t = { u with loop := .refreshing })
  | refresh (loop : s.loop = .refreshing)
      (built : t = { s with lastBlock := (s.db.currentBlock env.backend).or s.lastBlock, loop := .idle })

inductive Changed (env : FairnodeEnv) (s u : Fairnode) (cur : Hash) : Prop
  | drop (pending : s.pendingLeague = none)
      (built : u = { s with leagues := s.leagues.erase cur, currentLeague := none })
  | lost {pending : Hash} (isPending : s.pendingLeague = some pending)
      (built : u = { s with leagues := s.leagues.erase cur })
  | adopt {pending : Hash} {ref : ℕ} {pl : League} {info : CurrentInfo}
      (isPending : s.pendingLeague = some pending)
      (found : (s.leagues.erase cur).lookup pending = some ref) (was : s.heap[ref]? = some pl)
      (current : s.db.currentInfo env.crypto env.backend = some info)
      (built : u = { s.setLeague ref { pl with current := info.number } with
        leagues := s.leagues.erase cur, currentLeague := some pending, pendingLeague := none })

inductive Made (env : FairnodeEnv) (s t : Fairnode) : Prop
  | rest (idle : s.maker = .idle) (built : t = s)
  | begin (idle : s.maker = .idle) (none : s.currentLeague = none)
      (built : t = { s with maker := .preparing true })
  | prepare {isCur : Bool} {config : ChainConfig} {otprn : Otprn} (point : s.maker = .preparing isCur)
      (stored : s.db.getChainConfig env.crypto env.backend = some config)
      (fresh : IsNewOtprn env config s.db.getActiveNode.length otprn)
      (built : t = { s with maker := .assigning isCur otprn })
  | scarce {isCur : Bool} {config : ChainConfig} (point : s.maker = .preparing isCur)
      (stored : s.db.getChainConfig env.crypto env.backend = some config)
      (few : ¬ config.minMiner ≤ UInt64.ofNat s.db.getActiveNode.length)
      (built : t = { s with maker := .idle })
  | current {otprn : Otprn} (point : s.maker = .assigning true otprn) (none : s.currentLeague = none)
      (built : t = { s with currentLeague := some (otprn.hashOtprn env.crypto), maker := .adding otprn })
  | pending {otprn : Otprn} (point : s.maker = .assigning false otprn) (none : s.pendingLeague = none)
      (built : t = { s with pendingLeague := some (otprn.hashOtprn env.crypto), maker := .adding otprn })
  | taken {isCur : Bool} {otprn : Otprn} (point : s.maker = .assigning isCur otprn)
      (exist : isCur = false → s.pendingLeague ≠ none) (built : t = { s with maker := .idle })
  | add {otprn : Otprn} (point : s.maker = .adding otprn)
      (built : t = { addLeague env s otprn with maker := .saving otprn })
  | save {otprn : Otprn} (point : s.maker = .saving otprn)
      (built : t = { s with db := s.db.saveOtprn env.crypto env.backend otprn, maker := .idle })
  | ignore (point : s.maker = .handling) (none : s.active = none)
      (built : t = { s with maker := .idle })
  | decide {ref : ℕ} {l : League} {status : FnStatus} {pend : Bool} (point : s.maker = .handling)
      (isActive : s.active = some ref) (was : s.heap[ref]? = some l)
      (decided : epochStatus l = some (status, pend))
      (built : t = { s with maker := .writing ref status pend })
  | write {ref : ℕ} {l : League} {status : FnStatus} {pend : Bool}
      (point : s.maker = .writing ref status pend) (was : s.heap[ref]? = some l)
      (built : t = { s.setLeague ref { l with status } with
        maker := if pend then .preparing false else .idle })

structure Outside (s t : Fairnode) : Prop where
  heap : t.heap = s.heap
  leagues : t.leagues = s.leagues
  currentLeague : t.currentLeague = s.currentLeague
  pendingLeague : t.pendingLeague = s.pendingLeague
  lastBlock : t.lastBlock = s.lastBlock
  config : t.config = s.config
  loop : t.loop = s.loop
  maker : t.maker = s.maker
  configs : t.db.configs = s.db.configs
  blockChain : ∃ more, t.db.blockChain = s.db.blockChain ++ more

inductive Stepped (env : FairnodeEnv) (s : Fairnode) (a : Action) (t : Fairnode) : Prop
  | still (built : t = s)
  | ticked {order : List (Header × ℕ)} {ref : ℕ} {l l' : League} (ticks : a = .tick order)
      (isIdle : s.loop = .idle) (isActive : s.active = some ref) (was : s.heap[ref]? = some l)
      (ticked : Ticked env s t ref l l')
  | resumed (resumed : Resumed env s t)
  | made (made : Made env s t)
  | outside (outside : Outside s t)

/-- How the league object `r` came to be what it is after a step. -/
inductive LeagueStep (env : FairnodeEnv) (s : Fairnode) (a : Action) (t : Fairnode) (r : ℕ) :
    League → Prop
  | turned {order : List (Header × ℕ)} {l l' : League} (ticks : a = .tick order)
      (isIdle : s.loop = .idle) (isActive : s.active = some r) (was : s.heap[r]? = some l)
      (ticked : Ticked env s t r l l') : LeagueStep env s a t r l'
  | kept {l : League} (was : s.heap[r]? = some l)
      (asleep : ∀ next, t.loop = .sleeping r next → s.loop = .sleeping r next) :
      LeagueStep env s a t r l
  | woken {l : League} {next : FnStatus} (was : s.heap[r]? = some l) (loop : s.loop = .sleeping r next)
      (idle : t.loop = .idle) : LeagueStep env s a t r { l with status := next }
  | adopted {l : League} {cur pending : Hash} {current : ℕ} (was : s.heap[r]? = some l)
      (isCurrent : s.currentLeague = some cur) (isPending : s.pendingLeague = some pending)
      (found : (s.leagues.erase cur).lookup pending = some r) (loop : s.loop = .rejecting)
      (refreshing : t.loop = .refreshing) : LeagueStep env s a t r { l with current }
  | set {l : League} {status : FnStatus} {pend : Bool} (was : s.heap[r]? = some l)
      (point : s.maker = .writing r status pend) (loop : t.loop = s.loop) :
      LeagueStep env s a t r { l with status }
  | added {otprn : Otprn} (point : s.maker = .adding otprn) (index : r = s.heap.length)
      (loop : t.loop = s.loop) : LeagueStep env s a t r {
        otprn, status := .pending, current := s.lastNumber, blockHash := none, votehash := none }

section Steps
variable {env : FairnodeEnv} {s t : Fairnode}

theorem resume_cases (next : resume env s = some t) : Resumed env s t := by
  unfold resume at next
  split at next
  · cases next
  · rename_i ref status loop
    obtain ⟨l, was, rfl⟩ := map_eq_some_iff.mp next
    exact .wake loop was rfl
  · rename_i loop
    split at next
    · rename_i idle
      cases next
      exact .signal loop idle rfl
    · cases next
  · rename_i loop
    obtain ⟨u, changed, rfl⟩ := map_eq_some_iff.mp next
    exact .change loop changed rfl
  · rename_i loop
    cases next
    exact .refresh loop rfl

theorem changeLeague_cases {u : Fairnode} (changed : changeLeague env s = some u) :
    ∃ cur, s.currentLeague = some cur ∧ Changed env s u cur := by
  unfold changeLeague at changed
  obtain ⟨cur, isCurrent, changed⟩ := bind_eq_some_iff.mp changed
  refine ⟨cur, isCurrent, ?_⟩
  dsimp only at changed
  split at changed
  · rename_i none
    cases changed
    exact .drop none rfl
  · rename_i pending isPending
    split at changed
    · cases changed
      exact .lost isPending rfl
    · rename_i ref found
      obtain ⟨pl, was, changed⟩ := bind_eq_some_iff.mp changed
      obtain ⟨info, current, rfl⟩ := map_eq_some_iff.mp changed
      exact .adopt isPending found was current rfl

theorem makeOtprn_cases {fresh : Otprn} (next : makeOtprn env s fresh = some t) : Made env s t := by
  unfold makeOtprn at next
  split at next
  · rename_i idle
    cases next
    split
    · rename_i none
      exact .begin idle none rfl
    · exact .rest idle rfl
  · rename_i isCur point
    obtain ⟨config, stored, next⟩ := bind_eq_some_iff.mp next
    dsimp only at next
    split at next
    · split at next
      · rename_i isNew
        cases next
        exact .prepare point stored isNew rfl
      · cases next
    · rename_i few
      cases next
      exact .scarce point stored few rfl
  · rename_i isCur otprn point
    dsimp only at next
    cases isCur with
    | true =>
      simp only [if_true] at next
      split at next
      · rename_i none
        cases next
        exact .current point none rfl
      · cases next
        exact .taken point (by simp) rfl
    | false =>
      simp only [Bool.false_eq_true, if_false] at next
      split at next
      · rename_i none
        cases next
        exact .pending point none rfl
      · rename_i some
        cases next
        exact .taken point (fun _ => some) rfl
  · rename_i otprn point
    cases next
    exact .add point rfl
  · rename_i otprn point
    cases next
    exact .save point rfl
  · rename_i point
    split at next
    · rename_i none
      cases next
      exact .ignore point none rfl
    · rename_i ref isActive
      obtain ⟨l, was, next⟩ := bind_eq_some_iff.mp next
      obtain ⟨⟨status, pend⟩, decided, rfl⟩ := map_eq_some_iff.mp next
      exact .decide point isActive was decided rfl
  · rename_i ref status pend point
    obtain ⟨l, was, rfl⟩ := map_eq_some_iff.mp next
    exact .write point was rfl

theorem makeOtprn_effect {fresh : Otprn} (next : makeOtprn env s fresh = some t) :
    t.writes = s.writes ∧ t.joined = s.joined ∧ t.counted = s.counted ∧
      (t.db = s.db ∨ ∃ otprn, s.maker = .saving otprn ∧
        t.db = s.db.saveOtprn env.crypto env.backend otprn) := by
  cases makeOtprn_cases next with
  | save point built =>
    subst built
    exact ⟨rfl, rfl, rfl, .inr ⟨_, point, rfl⟩⟩
  | rest _ built | begin _ _ built | prepare _ _ _ built | scarce _ _ _ built | current _ _ built
  | pending _ _ built | taken _ _ built | add _ built | ignore _ _ built | decide _ _ _ _ built
  | write _ _ built =>
    subst built
    exact ⟨rfl, rfl, rfl, .inl rfl⟩

variable {ref r : ℕ} {a : Action} {l' x : League}

theorem call_outside {req : Request} (next : call env s ref req = some t) : Outside s t := by
  rw [(call_effect next).1]
  exact ⟨rfl, rfl, rfl, rfl, rfl, rfl, rfl, rfl, rfl, [], (append_nil _).symm⟩

theorem perform_outside (s : Fairnode) (i : ℕ) (w : DbWrite) :
    Outside s (perform env { s with writes := s.writes.eraseIdx i } w) := by
  cases w with
  | saveActiveNode node =>
    exact ⟨rfl, rfl, rfl, rfl, rfl, rfl, rfl, rfl, rfl, [], (append_nil _).symm⟩
  | saveLeague otprn enode caller =>
    obtain ⟨leagueList, frame⟩ :=
      s.db.saveLeague_frame env.backend (otprn.hashOtprn env.crypto) enode
    exact ⟨rfl, rfl, rfl, rfl, rfl, rfl, rfl, rfl, by simp only [perform, frame],
      [], by simp only [perform, frame, append_nil]⟩
  | saveVote otprnHash number voter =>
    obtain ⟨voteList, frame⟩ := s.db.saveVote_frame env.backend otprnHash number voter
    exact ⟨rfl, rfl, rfl, rfl, rfl, rfl, rfl, rfl, by simp only [perform, frame],
      [], by simp only [perform, frame, append_nil]⟩
  | saveFinalBlock block =>
    obtain ⟨blockChain, frame⟩ := s.db.saveFinalBlock_frame env.crypto block
    exact ⟨rfl, rfl, rfl, rfl, rfl, rfl, rfl, rfl, by simp only [perform, frame],
      s.db.saveFinalBlock_appends env.crypto block⟩

theorem step_cases (next : step env s a = some t) : Stepped env s a t := by
  cases a with
  | tick order =>
    rcases tick_turn next with same | ⟨ref, l, l', isIdle, isActive, was, ticked⟩
    · exact .still same
    · exact .ticked rfl isIdle isActive was ticked
  | resume => exact .resumed (resume_cases next)
  | makeOtprn fresh => exact .made (makeOtprn_cases next)
  | call ref req => exact .outside (call_outside next)
  | perform i =>
    obtain ⟨w, -, rfl⟩ := map_eq_some_iff.mp next
    exact .outside (perform_outside s i w)
  | removeActiveNode enode =>
    cases next
    exact .outside ⟨rfl, rfl, rfl, rfl, rfl, rfl, rfl, rfl, rfl, [], (append_nil _).symm⟩

theorem heap_set_cases {heap : List League}
    (found : (heap.set ref l')[r]? = some x) : r = ref ∧ x = l' ∨ r ≠ ref ∧ heap[r]? = some x := by
  rw [getElem?_set] at found
  split at found
  · rename_i same
    split at found
    · exact .inl ⟨same.symm, (Option.some.inj found).symm⟩
    · cases found
  · rename_i other
    exact .inr ⟨Ne.symm other, found⟩

theorem Turn.sleeps_on {l : League} {next : FnStatus}
    (turn : Turn env s ref l l' (.sleeping r next)) : r = ref := by
  cases turn <;> rfl

theorem Resumed.awake (resumed : Resumed env s t) (r : ℕ) (next : FnStatus) :
    t.loop ≠ .sleeping r next := by
  cases resumed <;> (rename_i built; rw [built]; simp)

theorem Made.loop_config (made : Made env s t) : t.loop = s.loop ∧ t.config = s.config := by
  cases made <;> (rename_i built; subst built; exact ⟨rfl, rfl⟩)

theorem changeLeague_frame {u : Fairnode} (changed : changeLeague env s = some u) :
    u = { s with
      heap := u.heap, leagues := u.leagues, currentLeague := u.currentLeague
      pendingLeague := u.pendingLeague } := by
  obtain ⟨cur, -, changed⟩ := changeLeague_cases changed
  cases changed <;> (rename_i built; subst built; rfl)

theorem Resumed.frame (resumed : Resumed env s t) : t.writes = s.writes ∧ t.joined = s.joined ∧
    t.db = s.db ∧ t.counted = s.counted ∧ t.config = s.config := by
  cases resumed with
  | change loop changed built =>
    rw [built, changeLeague_frame changed]
    exact ⟨rfl, rfl, rfl, rfl, rfl⟩
  | wake _ _ built | signal _ _ built | refresh _ built =>
    subst built
    exact ⟨rfl, rfl, rfl, rfl, rfl⟩

theorem Resumed.maker (resumed : Resumed env s t) :
    t.maker = s.maker ∨ s.loop = .sending ∧ t.maker = .handling := by
  cases resumed with
  | change loop changed built =>
    rw [built, changeLeague_frame changed]
    exact .inl rfl
  | signal loop idle built => exact .inr ⟨loop, by rw [built]⟩
  | wake _ _ built | refresh _ built => subst built; exact .inl rfl

theorem step_league (next : step env s a = some t)
    (found : t.heap[r]? = some x) : LeagueStep env s a t r x := by
  have same (heap : t.heap = s.heap)
      (asleep : ∀ next, t.loop = .sleeping r next → s.loop = .sleeping r next) :
      LeagueStep env s a t r x := .kept (heap ▸ found) asleep
  cases step_cases next with
  | still built => exact same (by rw [built]) (by rw [built]; exact fun _ loop => loop)
  | ticked ticks isIdle isActive was ticked =>
    rw [ticked.heap] at found
    rcases heap_set_cases found with ⟨rfl, rfl⟩ | ⟨other, old⟩
    · exact .turned ticks isIdle isActive was ticked
    · refine .kept old fun next loop => ?_
      have turn := ticked.turn
      rw [loop] at turn
      exact absurd turn.sleeps_on other
  | resumed resumed =>
    have asleep (next : FnStatus) (loop : t.loop = .sleeping r next) :
        s.loop = .sleeping r next := absurd loop (resumed.awake r next)
    cases resumed with
    | wake loop was built =>
      subst built
      rcases heap_set_cases found with ⟨rfl, rfl⟩ | ⟨-, old⟩
      · exact .woken was loop rfl
      · exact .kept old asleep
    | signal loop idle built => exact same (by rw [built]) asleep
    | change loop changed built =>
      obtain ⟨cur, isCurrent, changed⟩ := changeLeague_cases changed
      cases changed with
      | drop pending dropped => exact same (by rw [built, dropped]) asleep
      | lost isPending lost => exact same (by rw [built, lost]) asleep
      | adopt isPending lookup was current adopted =>
        subst built adopted
        rcases heap_set_cases found with ⟨rfl, rfl⟩ | ⟨-, old⟩
        · exact .adopted was isCurrent isPending lookup loop rfl
        · exact .kept old asleep
    | refresh loop built => exact same (by rw [built]) asleep
  | made made =>
    have loop := made.loop_config.1
    have asleep (next : FnStatus) (now : t.loop = .sleeping r next) : s.loop = .sleeping r next :=
      loop.symm.trans now
    cases made with
    | @add otprn point built =>
      subst built
      have found : (s.heap ++ _)[r]? = some x := found
      rcases Nat.lt_or_ge r s.heap.length with old | new
      · rw [getElem?_append_left old] at found
        exact .kept found asleep
      · rw [getElem?_append_right new, getElem?_singleton] at found
        split at found
        · cases found
          exact .added point (by omega) loop
        · cases found
    | write point was built =>
      subst built
      rcases heap_set_cases found with ⟨rfl, rfl⟩ | ⟨-, old⟩
      · exact .set was point loop
      · exact .kept old asleep
    | rest idle built => exact same (by rw [built]) asleep
    | begin idle none built => exact same (by rw [built]) asleep
    | prepare point stored fresh built => exact same (by rw [built]) asleep
    | scarce point stored few built => exact same (by rw [built]) asleep
    | current point none built => exact same (by rw [built]) asleep
    | pending point none built => exact same (by rw [built]) asleep
    | taken point exist built => exact same (by rw [built]) asleep
    | save point built => exact same (by rw [built]) asleep
    | ignore point none built => exact same (by rw [built]) asleep
    | decide point isActive was decided built => exact same (by rw [built]) asleep
  | outside outside =>
    exact same outside.heap fun next loop => outside.loop.symm.trans loop

theorem step_asleep (next : step env s a = some t) {status : FnStatus}
    (asleep : t.loop = .sleeping r status) :
    s.loop = .sleeping r status ∨
      (∃ order, a = .tick order) ∧ s.active = some r ∧ r < s.heap.length := by
  cases step_cases next with
  | still built => exact .inl (built ▸ asleep)
  | ticked ticks isIdle isActive was ticked =>
    have turn := ticked.turn
    rw [asleep] at turn
    rw [turn.sleeps_on]
    exact .inr ⟨⟨_, ticks⟩, isActive, (List.getElem?_eq_some_iff.mp was).1⟩
  | resumed resumed => exact absurd asleep (resumed.awake r status)
  | made made => exact .inl (made.loop_config.1.symm.trans asleep)
  | outside outside => exact .inl (outside.loop.symm.trans asleep)

theorem step_heap_length (next : step env s a = some t) : s.heap.length ≤ t.heap.length := by
  cases step_cases next with
  | still built => rw [built]
  | ticked ticks isIdle isActive was ticked => rw [ticked.heap, length_set]
  | resumed resumed =>
    cases resumed with
    | wake loop was built => simp [built, Fairnode.setLeague]
    | signal loop idle built => rw [built]
    | change loop changed built =>
      obtain ⟨cur, -, changed⟩ := changeLeague_cases changed
      cases changed <;> (rename_i made; simp [built, made, Fairnode.setLeague])
    | refresh loop built => rw [built]
  | made made => cases made <;> (rename_i built; simp [built, Fairnode.setLeague, addLeague])
  | outside outside => rw [outside.heap]

theorem Turn.otprn {l : League} {point : LoopPoint} (turn : Turn env s ref l l' point) :
    l'.otprn = l.otprn := by
  cases turn <;> rfl

theorem lookup_of_erase {leagues : AList fun _ : Hash => ℕ} {cur p : Hash}
    (found : (leagues.erase cur).lookup p = some r) : p ≠ cur ∧ leagues.lookup p = some r := by
  have other : p ≠ cur := by
    rintro rfl
    rw [AList.lookup_erase] at found
    cases found
  rw [AList.lookup_erase_ne other] at found
  exact ⟨other, found⟩

theorem step_lookup (next : step env s a = some t) {p : Hash}
    (found : t.leagues.lookup p = some r) :
    (s.leagues.lookup p = some r ∧ (s.currentLeague = some p → t.currentLeague = some p)) ∨
      ∃ otprn, s.maker = .adding otprn ∧ p = otprn.hashOtprn env.crypto ∧ r = s.heap.length ∧
        t.heap[r]? = some {
          otprn, status := .pending, current := s.lastNumber, blockHash := none, votehash := none } := by
  have same (leagues : t.leagues = s.leagues) (current : t.currentLeague = s.currentLeague) :
      s.leagues.lookup p = some r ∧ (s.currentLeague = some p → t.currentLeague = some p) :=
    ⟨leagues ▸ found, fun isCurrent => current.trans isCurrent⟩
  cases step_cases next with
  | still built => exact .inl (same (by rw [built]) (by rw [built]))
  | ticked ticks isIdle isActive was ticked => exact .inl (same ticked.leagues ticked.currentLeague)
  | resumed resumed =>
    left
    cases resumed with
    | wake loop was built => exact same (by rw [built]; rfl) (by rw [built]; rfl)
    | signal loop idle built => exact same (by rw [built]) (by rw [built])
    | change loop changed built =>
      obtain ⟨cur, isCurrent, changed⟩ := changeLeague_cases changed
      have erased : t.leagues = s.leagues.erase cur := by
        cases changed <;> (rename_i made; rw [built, made])
      rw [erased] at found
      obtain ⟨other, found⟩ := lookup_of_erase found
      exact ⟨found, fun same => absurd (Option.some.inj (same.symm.trans isCurrent)) other⟩
    | refresh loop built => exact same (by rw [built]) (by rw [built])
  | made made =>
    cases made with
    | @add otprn point built =>
      subst built
      by_cases own : p = otprn.hashOtprn env.crypto
      · subst own
        have found : (s.leagues.insert (otprn.hashOtprn env.crypto) s.heap.length).lookup
            (otprn.hashOtprn env.crypto) = some r := found
        rw [AList.lookup_insert] at found
        cases found
        refine .inr ⟨otprn, point, rfl, rfl, ?_⟩
        simp [addLeague]
      · have found : (s.leagues.insert (otprn.hashOtprn env.crypto) s.heap.length).lookup p =
            some r := found
        rw [AList.lookup_insert_ne own] at found
        exact .inl ⟨found, id⟩
    | current point none built =>
      refine .inl ⟨?_, fun isCurrent => absurd (none.symm.trans isCurrent) (by simp)⟩
      rw [built] at found
      exact found
    | write point was built => exact .inl (same (by rw [built]; rfl) (by rw [built]; rfl))
    | _ => rename_i built; exact .inl (same (by rw [built]) (by rw [built]))
  | outside outside => exact .inl (same outside.leagues outside.currentLeague)

theorem LeagueStep.otprn (led : LeagueStep env s a t r x) :
    (∃ l : League, s.heap[r]? = some l ∧ x.otprn = l.otprn) ∨ r = s.heap.length := by
  cases led with
  | turned ticks isIdle isActive was ticked => exact .inl ⟨_, was, ticked.turn.otprn⟩
  | kept was | woken was | adopted was | set was => exact .inl ⟨_, was, rfl⟩
  | added point index => exact .inr index

theorem step_writes (next : step env s a = some t) {w : DbWrite} (member : w ∈ t.writes) :
    w ∈ s.writes ∨ ∃ ref req, a = .call ref req ∧ Decides env s ref req w := by
  cases a with
  | tick order =>
    rcases tick_effect next with rfl | ⟨ref, l, -, -, effect⟩
    · exact .inl member
    · rw [effect.writes] at member
      exact .inl member
  | resume =>
    rw [(resume_cases next).frame.1] at member
    exact .inl member
  | makeOtprn fresh =>
    rw [(makeOtprn_effect next).1] at member
    exact .inl member
  | call ref req =>
    obtain ⟨-, same | ⟨added, appended, decides⟩⟩ := call_effect next
    · rw [same] at member
      exact .inl member
    · rw [appended, mem_append, mem_singleton] at member
      rcases member with old | rfl
      · exact .inl old
      · exact .inr ⟨ref, req, rfl, decides⟩
  | perform i =>
    obtain ⟨performed, -, rfl⟩ := map_eq_some_iff.mp next
    have fewer : w ∈ s.writes.eraseIdx i := by cases performed <;> exact member
    exact .inl (mem_of_mem_eraseIdx fewer)
  | removeActiveNode enode =>
    cases next
    exact .inl member

end Steps

/-- The period after which a pending league is made, `epoch.Int64() / 2` without its sign. -/
def halfEpoch (epoch : UInt64) : ℕ := ((asInt64 epoch.toNat).tdiv 2).natAbs

section Epoch

theorem halfEpoch_eq (epoch : UInt64) : halfEpoch epoch =
    if epoch.toNat < 2 ^ 63 then epoch.toNat / 2 else (2 ^ 64 - epoch.toNat) / 2 := by
  have bound := epoch.toNat_lt
  have value : (asInt64 epoch.toNat).natAbs =
      if epoch.toNat < 2 ^ 63 then epoch.toNat else 2 ^ 64 - epoch.toNat := by
    rw [asInt64, BitVec.toInt_eq_toNat_cond, BitVec.toNat_ofNat, Nat.mod_eq_of_lt bound]
    split <;> split <;> omega
  have halves : halfEpoch epoch = (asInt64 epoch.toNat).natAbs / 2 := Int.natAbs_tdiv _ _
  rw [halves, value]
  split <;> rfl

theorem halfEpoch_eq_zero {epoch : UInt64} :
    halfEpoch epoch = 0 ↔ epoch = 0 ∨ epoch = 1 ∨ epoch = -1 := by
  have ends : epoch = 0 ∨ epoch = 1 ∨ epoch = -1 ↔
      epoch.toNat = 0 ∨ epoch.toNat = 1 ∨ epoch.toNat = 2 ^ 64 - 1 := by
    simp only [← UInt64.toNat_inj]
    rfl
  have bound := epoch.toNat_lt
  rw [ends, halfEpoch_eq]
  split <;> omega

theorem epochStatus_eq (l : League) : epochStatus l =
    if l.otprn.data.epoch = 0 ∨ l.current % 2 ^ 64 = 0 then some (.makeJoinTx, false)
    else if halfEpoch l.otprn.data.epoch = 0 then none
    else if halfEpoch l.otprn.data.epoch ∣ l.current then
      if l.otprn.data.epoch.toNat ∣ l.current then some (.reject, false) else some (.makeJoinTx, true)
    else some (.makeJoinTx, false) := by
  have zero : l.otprn.data.epoch.toNat = 0 ↔ l.otprn.data.epoch = 0 := by
    rw [← UInt64.toNat_inj]
    rfl
  have half : (asInt64 l.otprn.data.epoch.toNat).tdiv 2 = 0 ↔ halfEpoch l.otprn.data.epoch = 0 :=
    Int.natAbs_eq_zero.symm
  have small : halfEpoch l.otprn.data.epoch < 2 ^ 64 := by
    have bound := l.otprn.data.epoch.toNat_lt
    rw [halfEpoch_eq]
    split <;> omega
  have divides (pos : halfEpoch l.otprn.data.epoch ≠ 0) :
      ((l.current : Int) % (asInt64 l.otprn.data.epoch.toNat).tdiv 2).toNat % 2 ^ 64 = 0 ↔
        halfEpoch l.otprn.data.epoch ∣ l.current := by
    have rest : ((l.current : Int) % (asInt64 l.otprn.data.epoch.toNat).tdiv 2).toNat =
        l.current % halfEpoch l.otprn.data.epoch := by
      rw [← Int.emod_abs, ← Int.natCast_natAbs, ← halfEpoch, ← Int.natCast_mod, Int.toNat_natCast]
    have less := Nat.mod_lt l.current (Nat.pos_of_ne_zero pos)
    rw [rest, Nat.mod_eq_of_lt (less.trans small), Nat.dvd_iff_mod_eq_zero]
  unfold epochStatus
  dsimp only
  simp only [zero, half]
  split
  · rfl
  · split
    · rfl
    · rename_i pos
      simp only [divides pos, Nat.dvd_iff_mod_eq_zero]

end Epoch

end Anduschain
