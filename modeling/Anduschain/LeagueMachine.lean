import Anduschain.FairnodeRpc
import Anduschain.FinalBlockTally
import Anduschain.FiniteRun

/-! The leader fairnode as a transition system (fairnode/fairnode.go). Two loops
share the leagues: `processManageLoop`, cut where it sleeps or blocks, and
`makeOtprn`, cut at its assignments. RPC handlers interleave with both; each
holds the league it looked up, which may have left the map since, and hands its
database write over to be performed later. -/
namespace Anduschain
open ByteOrder

inductive LoopPoint where
  | idle
  /-- Asleep, about to set the league's status. -/
  | sleeping (ref : ℕ) (next : FnStatus)
  /-- About to send on `makePendingLeagueCh`. -/
  | sending
  /-- Asleep in the REJECT branch. -/
  | rejecting
  /-- Between the league change of the REJECT branch and its read of the last block. -/
  | refreshing
  deriving DecidableEq

inductive MakerPoint where
  | idle
  | preparing (isCur : Bool)
  | assigning (isCur : Bool) (otprn : Otprn)
  | adding (otprn : Otprn)
  | saving (otprn : Otprn)
  /-- A signal came in on `makePendingLeagueCh`. -/
  | handling
  /-- About to set a league's status, and then perhaps to make a pending league. -/
  | writing (ref : ℕ) (status : FnStatus) (pend : Bool)
  deriving DecidableEq

inductive DbWrite where
  | saveActiveNode (node : HeartBeat)
  | saveLeague (otprn : Otprn) (enode : Bytes) (caller : Address)
  | saveVote (otprnHash : Hash) (number : ℕ) (voter : Voter)
  | saveFinalBlock (block : Header)
  deriving DecidableEq

structure Fairnode where
  /-- The league objects; `leagues` and the loops refer to them by index. -/
  heap : List League
  leagues : AList fun _ : Hash => ℕ
  currentLeague : Option Hash
  pendingLeague : Option Hash
  lastBlock : Option Header
  config : Option ChainConfig
  sendBlockAttampt : ℕ
  leageuWaitAttampt : ℕ
  loop : LoopPoint
  maker : MakerPoint
  db : FairnodeDB
  writes : List DbWrite
  signed : List (Hash × Hash)
  /-- The OTPRN hashes and callers of the joins recorded by `SaveLeague`. -/
  joined : List (Hash × Address)
  counted : List (Hash × Voter)
  deriving DecidableEq

def sendBlockTimeOut : ℕ := 10 * 5

def leagueWaitTimeOut : ℕ := 5 * 5

namespace Fairnode

def start (backend : Backend) (db : FairnodeDB) : Fairnode where
  heap := []
  leagues := ∅
  currentLeague := none
  pendingLeague := none
  lastBlock := db.currentBlock backend
  config := none
  sendBlockAttampt := 0
  leageuWaitAttampt := 0
  loop := .idle
  maker := .preparing true
  db := db
  writes := []
  signed := []
  joined := []
  counted := []

def active (s : Fairnode) : Option ℕ := s.currentLeague.bind fun cur => s.leagues.lookup cur

def setLeague (s : Fairnode) (ref : ℕ) (l : League) : Fairnode := { s with heap := s.heap.set ref l }

def enqueue (s : Fairnode) (w : DbWrite) : Fairnode := { s with writes := s.writes ++ [w] }

def lastNumber (s : Fairnode) : ℕ := (s.lastBlock.map Header.number).getD 0

end Fairnode

instance (crypto : Crypto) (voters : List Voter) (order : List (Header × ℕ)) :
    Decidable (MapOrder crypto voters order) := inferInstanceAs (Decidable (List.Perm _ _))

section Loops
variable (env : FairnodeEnv) (s : Fairnode)

def countVotes (ref : ℕ) (l : League) (order : List (Header × ℕ)) : Option Fairnode :=
  let otprnHash := l.otprn.hashOtprn env.crypto
  let voters := s.db.getVoters (makeVoteKey otprnHash (l.current + 1))
  let s := { s with counted := s.counted ++ voters.map fun v => (otprnHash, v) }
  match s.config with
  | none => none
  | some config =>
    if UInt64.ofNat voters.length < config.minMiner - 1 then
      some (s.setLeague ref { l with status := .reject })
    else if MapOrder env.crypto voters order then
      (validationFinalBlockHash env.crypto voters order).map fun finalBlockHash =>
        { s.setLeague ref { l with
            blockHash := some finalBlockHash
            votehash := some (env.votersHash voters) } with
          loop := .sleeping ref .voteComplete }
    else none

/-- The SEND_BLOCK branch; the hash is dereferenced before it is compared with nil. -/
def awaitBlock (ref : ℕ) (l : League) : Option Fairnode :=
  match l.blockHash with
  | none => none
  | some hash =>
    match s.db.getBlock env.crypto hash with
    | some _ =>
      some { s.setLeague ref { l with status := .reqFairnodeSign } with sendBlockAttampt := 0 }
    | none =>
      if sendBlockTimeOut < s.sendBlockAttampt + 1 then
        some { s.setLeague ref { l with status := .reject } with sendBlockAttampt := 0 }
      else some { s with sendBlockAttampt := s.sendBlockAttampt + 1 }

def finalizeRound (ref : ℕ) (l : League) : Option Fairnode :=
  match s.db.currentBlock env.backend with
  | some block =>
    some { s.setLeague ref { l with
        current := block.number
        votehash := none
        blockHash := none } with
      lastBlock := some block
      loop := .sending }
  | none =>
    l.blockHash.map fun hash =>
      { s.setLeague ref { l with status := .reject } with
        db := s.db.removeBlock env.crypto env.backend hash }

def awaitNodes (cur : Hash) (ref : ℕ) (l : League) : Fairnode :=
  let s := { s with config := some l.otprn.data }
  if l.otprn.data.minMiner ≤ UInt64.ofNat (s.db.getLeagueList cur).length then
    { s.setLeague ref { l with status := .makeLeague } with leageuWaitAttampt := 0 }
  else if leagueWaitTimeOut < s.leageuWaitAttampt + 1 then
    { s.setLeague ref { l with status := .reject } with leageuWaitAttampt := 0 }
  else { s with leageuWaitAttampt := s.leageuWaitAttampt + 1 }

def makeJoinTx (ref : ℕ) (l : League) : Fairnode :=
  let l := match s.lastBlock with
    | some block => { l with current := block.number }
    | none => l
  { s.setLeague ref l with loop := .sleeping ref .makeBlock }

/-- One tick of `processManageLoop` on a league, up to the first sleep; `none` is a panic. -/
def manage (cur : Hash) (ref : ℕ) (l : League) (order : List (Header × ℕ)) : Option Fairnode :=
  match l.status with
  | .pending => some (awaitNodes s cur ref l)
  | .makeLeague => some { s with loop := .sleeping ref .makeJoinTx }
  | .makeJoinTx => some (makeJoinTx s ref l)
  | .makeBlock => some { s with loop := .sleeping ref .leagueBroadcasting }
  | .leagueBroadcasting => some { s with loop := .sleeping ref .voteStart }
  | .voteStart => some { s with loop := .sleeping ref .voteCounting }
  | .voteCounting => countVotes env s ref l order
  | .voteComplete => some { s with loop := .sleeping ref .sendBlock }
  | .sendBlock => awaitBlock env s ref l
  | .reqFairnodeSign => some { s with loop := .sleeping ref .finalize }
  | .finalize => finalizeRound env s ref l
  | .reject => some { s with loop := .rejecting }
  | .saveOtprn | .makePendingLeague | .sendBlockWait => some s

def tick (order : List (Header × ℕ)) : Option Fairnode :=
  if s.loop = .idle then
    match s.currentLeague with
    | none => some s
    | some cur =>
      match s.leagues.lookup cur with
      | none => some s
      | some ref => (s.heap[ref]?).bind fun l => manage env s cur ref l order
  else none

def changeLeague : Option Fairnode :=
  s.currentLeague.bind fun cur =>
    let leagues := s.leagues.erase cur
    match s.pendingLeague with
    | none => some { s with leagues, currentLeague := none }
    | some pending =>
      match leagues.lookup pending with
      | none => some { s with leagues }
      | some ref =>
        (s.heap[ref]?).bind fun pl =>
          (s.db.currentInfo env.crypto env.backend).map fun info =>
            { s.setLeague ref { pl with current := info.number } with
              leagues, currentLeague := some pending, pendingLeague := none }

/-- The rest of `processManageLoop` after a sleep, or its next part. -/
def resume : Option Fairnode :=
  match s.loop with
  | .idle => none
  | .sleeping ref next =>
    (s.heap[ref]?).map fun l => { s.setLeague ref { l with status := next } with loop := .idle }
  | .sending =>
    if s.maker = .idle then some { s with loop := .idle, maker := .handling } else none
  | .rejecting => (changeLeague env s).map fun s => { s with loop := .refreshing }
  | .refreshing =>
    some { s with lastBlock := (s.db.currentBlock env.backend).or s.lastBlock, loop := .idle }

/-- What `NewOtprn` and `SignOtprn` can yield; the 20 random bytes are free. -/
def IsNewOtprn (config : ChainConfig) (nodes : ℕ) (otprn : Otprn) : Prop :=
  otprn.fnAddr = env.address ∧ otprn.cminer = UInt64.ofNat nodes ∧ otprn.data = config ∧
    otprn.validateSignature env.crypto = .ok ()

instance (config : ChainConfig) (nodes : ℕ) (otprn : Otprn) :
    Decidable (IsNewOtprn env config nodes otprn) := inferInstanceAs (Decidable (_ ∧ _))

def addLeague (otprn : Otprn) : Fairnode :=
  { s with
    heap := s.heap ++ [{
      otprn, status := .pending, current := s.lastNumber, blockHash := none, votehash := none }]
    leagues := s.leagues.insert (otprn.hashOtprn env.crypto) s.heap.length }

/-- The status a signal gives the current league, and whether a pending league follows; `none` is
the division by zero for an epoch of one. -/
def epochStatus (l : League) : Option (FnStatus × Bool) :=
  let epoch := l.otprn.data.epoch.toNat
  if epoch = 0 ∨ l.current % 2 ^ 64 = 0 then some (.makeJoinTx, false)
  else
    let half := (asInt64 epoch).tdiv 2
    if half = 0 then none
    else if ((l.current : Int) % half).toNat % 2 ^ 64 = 0 then
      if l.current % epoch = 0 then some (.reject, false) else some (.makeJoinTx, true)
    else some (.makeJoinTx, false)

/-- One step of `makeOtprn`; `fresh` is the OTPRN that is made, where one is. -/
def makeOtprn (fresh : Otprn) : Option Fairnode :=
  match s.maker with
  | .idle => some (if s.currentLeague = none then { s with maker := .preparing true } else s)
  | .preparing isCur =>
    (s.db.getChainConfig env.crypto env.backend).bind fun config =>
      let nodes := s.db.getActiveNode
      if config.minMiner ≤ UInt64.ofNat nodes.length then
        if IsNewOtprn env config nodes.length fresh then
          some { s with maker := .assigning isCur fresh }
        else none
      else some { s with maker := .idle }
  | .assigning isCur otprn =>
    let hash := otprn.hashOtprn env.crypto
    if isCur then
      if s.currentLeague = none then
        some { s with currentLeague := some hash, maker := .adding otprn }
      else some { s with maker := .idle }
    else if s.pendingLeague = none then
      some { s with pendingLeague := some hash, maker := .adding otprn }
    else some { s with maker := .idle }
  | .adding otprn => some { addLeague env s otprn with maker := .saving otprn }
  | .saving otprn =>
    some { s with db := s.db.saveOtprn env.crypto env.backend otprn, maker := .idle }
  | .handling =>
    match s.active with
    | none => some { s with maker := .idle }
    | some ref =>
      (s.heap[ref]?).bind fun l =>
        (epochStatus l).map fun next => { s with maker := .writing ref next.1 next.2 }
  | .writing ref status pend =>
    (s.heap[ref]?).map fun l =>
      { s.setLeague ref { l with status } with
        maker := if pend then .preparing false else .idle }

end Loops

inductive Request where
  | heartBeat (peer : Option Bytes) (now : Int) (req : HeartBeatRequest)
  | requestOtprn (req : ReqOtprn)
  | vote (req : VoteRequest)
  | sendBlock (req : ReqBlock)
  | requestFairnodeSign (req : ReqFairnodeSign)

inductive Action where
  | tick (order : List (Header × ℕ))
  | resume
  | makeOtprn (fresh : Otprn)
  /-- A handler reaches its decision; `ref` is the league object it has looked up. -/
  | call (ref : ℕ) (req : Request)
  /-- A decided database write is performed. -/
  | perform (i : ℕ)
  | removeActiveNode (enode : Bytes)

section Step
variable (env : FairnodeEnv) (s : Fairnode)

def held (ref : ℕ) (hash : Hash) : Option League :=
  (s.heap[ref]?).filter fun l => l.otprn.hashOtprn env.crypto = hash

/-- A refused call changes nothing; a panic ends the run. -/
def settle (result : Except RpcError Fairnode) : Option Fairnode :=
  match result with
  | .ok t => some t
  | .error .crash => none
  | .error _ => some s

def call (ref : ℕ) : Request → Option Fairnode
  | .heartBeat peer now req =>
    settle s ((heartBeat env s.db peer now req).map fun node => s.enqueue (.saveActiveNode node))
  | .requestOtprn req =>
    settle s ((requestOtprn env s.db (held env s ref) req).map fun reply =>
      match reply with
      | .joined otprn => s.enqueue (.saveLeague otprn req.enode (hexToAddress req.minerAddress))
      | .notEligible | .fail => s)
  | .vote req =>
    settle s ((vote env (held env s ref) req).map fun (otprnHash, number, voter) =>
      s.enqueue (.saveVote otprnHash number voter))
  | .sendBlock req =>
    settle s ((sendBlock env (held env s ref) req).map fun block =>
      { s.enqueue (.saveFinalBlock block) with
        signed := s.signed ++ [(block.hash env.crypto, block.voteHash)] })
  | .requestFairnodeSign req =>
    settle s ((requestFairnodeSign env (held env s ref) req).map fun hashes =>
      { s with signed := s.signed ++ [hashes] })

def perform : DbWrite → Fairnode
  | .saveActiveNode node => { s with db := s.db.saveActiveNode node }
  | .saveLeague otprn enode caller =>
    { s with
      db := s.db.saveLeague env.backend (otprn.hashOtprn env.crypto) enode
      joined := s.joined ++ [(otprn.hashOtprn env.crypto, caller)] }
  | .saveVote otprnHash number voter =>
    { s with db := s.db.saveVote env.backend otprnHash number voter }
  | .saveFinalBlock block =>
    { s with db := (s.db.saveFinalBlock env.crypto block).getD s.db }

def step : Action → Option Fairnode
  | .tick order => tick env s order
  | .resume => resume env s
  | .makeOtprn fresh => makeOtprn env s fresh
  | .call ref req => call env s ref req
  | .perform i =>
    (s.writes[i]?).map fun w => perform env { s with writes := s.writes.eraseIdx i } w
  | .removeActiveNode enode => some { s with db := s.db.removeActiveNode enode }

end Step

section Effects
variable {env : FairnodeEnv} {s t : Fairnode} {ref : ℕ} {l : League} {order : List (Header × ℕ)}

theorem held_eq_some {hash : Hash} :
    held env s ref hash = some l ↔ s.heap[ref]? = some l ∧ l.otprn.hashOtprn env.crypto = hash := by
  simp [held, Option.filter_eq_some_iff]

theorem heap_set_self (was : s.heap[ref]? = some l) : s.heap.set ref l = s.heap := by
  obtain ⟨bound, rfl⟩ := List.getElem?_eq_some_iff.mp was
  exact List.set_getElem_self bound

theorem epochStatus_cases {next : FnStatus × Bool} (h : epochStatus l = some next) :
    next.1 = .makeJoinTx ∨ next.1 = .reject := by
  unfold epochStatus at h
  dsimp only at h
  split at h
  · cases h
    exact .inl rfl
  · split at h
    · cases h
    · split at h
      · split at h
        · cases h
          exact .inr rfl
        · cases h
          exact .inl rfl
      · cases h
        exact .inl rfl

def votesOf (env : FairnodeEnv) (s : Fairnode) (l : League) : List (Hash × Voter) :=
  let otprnHash := l.otprn.hashOtprn env.crypto
  (s.db.getVoters (makeVoteKey otprnHash (l.current + 1))).map fun v => (otprnHash, v)

theorem countVotes_effect (next : countVotes env s ref l order = some t) :
    t.writes = s.writes ∧ t.joined = s.joined ∧ t.db = s.db ∧
      t.counted = s.counted ++ votesOf env s l := by
  unfold countVotes at next
  dsimp only at next
  split at next
  · cases next
  · split at next
    · cases next
      exact ⟨rfl, rfl, rfl, rfl⟩
    · split at next
      · obtain ⟨hash, -, rfl⟩ := Option.map_eq_some_iff.mp next
        exact ⟨rfl, rfl, rfl, rfl⟩
      · cases next

/-- What a tick may do besides moving leagues: count the current league's votes, or remove a
block. -/
structure TickEffect (env : FairnodeEnv) (s t : Fairnode) (l : League) : Prop where
  writes : t.writes = s.writes
  joined : t.joined = s.joined
  db : t.db = s.db ∨ ∃ hash, t.db = s.db.removeBlock env.crypto env.backend hash
  counted : t.counted = s.counted ∨
    l.status = .voteCounting ∧ t.counted = s.counted ++ votesOf env s l

theorem manage_effect {cur : Hash}
    (next : manage env s cur ref l order = some t) : TickEffect env s t l := by
  unfold manage at next
  cases status : l.status with
  | voteCounting =>
    rw [status] at next
    obtain ⟨writes, joined, db, counted⟩ := countVotes_effect next
    exact ⟨writes, joined, .inl db, .inr ⟨status, counted⟩⟩
  | pending =>
    rw [status] at next
    cases next
    unfold awaitNodes
    dsimp only
    split
    · exact ⟨rfl, rfl, .inl rfl, .inl rfl⟩
    · split <;> exact ⟨rfl, rfl, .inl rfl, .inl rfl⟩
  | sendBlock =>
    rw [status] at next
    simp only [awaitBlock] at next
    split at next
    · cases next
    · split at next
      · cases next
        exact ⟨rfl, rfl, .inl rfl, .inl rfl⟩
      · split at next <;> cases next <;> exact ⟨rfl, rfl, .inl rfl, .inl rfl⟩
  | finalize =>
    rw [status] at next
    simp only [finalizeRound] at next
    split at next
    · cases next
      exact ⟨rfl, rfl, .inl rfl, .inl rfl⟩
    · obtain ⟨hash, -, rfl⟩ := Option.map_eq_some_iff.mp next
      exact ⟨rfl, rfl, .inr ⟨hash, rfl⟩, .inl rfl⟩
  | saveOtprn | makeLeague | makeJoinTx | makeBlock | leagueBroadcasting | voteStart | voteComplete
  | makePendingLeague | sendBlockWait | reqFairnodeSign | reject =>
    rw [status] at next
    cases next
    exact ⟨rfl, rfl, .inl rfl, .inl rfl⟩

theorem tick_manages (next : tick env s order = some t) :
    t = s ∨ ∃ cur ref l, s.loop = .idle ∧ s.active = some ref ∧ s.heap[ref]? = some l ∧
      manage env s cur ref l order = some t := by
  unfold tick at next
  split at next
  · rename_i isIdle
    split at next
    · cases next
      exact .inl rfl
    · rename_i cur isCurrent
      split at next
      · cases next
        exact .inl rfl
      · rename_i ref found
        obtain ⟨l, was, next⟩ := Option.bind_eq_some_iff.mp next
        have isActive : s.active = some ref := by simp [Fairnode.active, isCurrent, found]
        exact .inr ⟨cur, ref, l, isIdle, isActive, was, next⟩
  · cases next

theorem tick_effect (next : tick env s order = some t) :
    t = s ∨ ∃ ref l, s.active = some ref ∧ s.heap[ref]? = some l ∧ TickEffect env s t l :=
  (tick_manages next).imp_right fun ⟨_, ref, l, _, isActive, was, managed⟩ =>
    ⟨ref, l, isActive, was, manage_effect managed⟩

theorem settle_cases {result : Except RpcError Fairnode} (h : settle s result = some t) :
    t = s ∨ result = .ok t := by
  unfold settle at h
  split at h
  · cases h
    exact .inr rfl
  · cases h
  · cases h
    exact .inl rfl

def Decides (env : FairnodeEnv) (s : Fairnode) (ref : ℕ) : Request → DbWrite → Prop
  | .heartBeat peer now req, w =>
    ∃ node, heartBeat env s.db peer now req = .ok node ∧ w = .saveActiveNode node
  | .requestOtprn req, w =>
    ∃ otprn, requestOtprn env s.db (held env s ref) req = .ok (.joined otprn) ∧
      w = .saveLeague otprn req.enode (hexToAddress req.minerAddress)
  | .vote req, w =>
    ∃ otprnHash number voter, vote env (held env s ref) req = .ok (otprnHash, number, voter) ∧
      w = .saveVote otprnHash number voter
  | .sendBlock req, w =>
    ∃ block, sendBlock env (held env s ref) req = .ok block ∧ w = .saveFinalBlock block
  | .requestFairnodeSign _, _ => False

theorem call_effect {req : Request} (next : call env s ref req = some t) :
    t = { s with writes := t.writes, signed := t.signed } ∧
      (t.writes = s.writes ∨ ∃ w, t.writes = s.writes ++ [w] ∧ Decides env s ref req w) := by
  by_cases same : t = s
  · subst same
    exact ⟨rfl, .inl rfl⟩
  cases req with
  | heartBeat peer now req =>
    obtain ⟨node, beat, rfl⟩ := CheckedSteps.map_eq_ok.mp ((settle_cases next).resolve_left same)
    exact ⟨rfl, .inr ⟨_, rfl, node, beat, rfl⟩⟩
  | requestOtprn req =>
    obtain ⟨reply, replied, built⟩ :=
      CheckedSteps.map_eq_ok.mp ((settle_cases next).resolve_left same)
    cases reply with
    | joined otprn =>
      rw [← built]
      exact ⟨rfl, .inr ⟨_, rfl, otprn, replied, rfl⟩⟩
    | fail | notEligible => exact absurd built.symm same
  | vote req =>
    obtain ⟨⟨otprnHash, number, voter⟩, voted, rfl⟩ :=
      CheckedSteps.map_eq_ok.mp ((settle_cases next).resolve_left same)
    exact ⟨rfl, .inr ⟨_, rfl, otprnHash, number, voter, voted, rfl⟩⟩
  | sendBlock req =>
    obtain ⟨block, sent, rfl⟩ := CheckedSteps.map_eq_ok.mp ((settle_cases next).resolve_left same)
    exact ⟨rfl, .inr ⟨_, rfl, block, sent, rfl⟩⟩
  | requestFairnodeSign req =>
    obtain ⟨hashes, -, rfl⟩ := CheckedSteps.map_eq_ok.mp ((settle_cases next).resolve_left same)
    exact ⟨rfl, .inl rfl⟩

theorem call_db {req : Request} (next : call env s ref req = some t) : t.db = s.db := by
  rw [(call_effect next).1]

end Effects

/-! A league of one node to evaluate the machine with: blocks are given by their headers,
and a vote list has the root zero. -/

def sampleNode (backend : Backend) : FairnodeEnv where
  crypto := sampleCrypto
  backend := backend
  int63 seed := seed.toNat
  address := 0xfa
  signHash hash := sampleSign hash 0xfa
  decodeBlock := decodeHeader
  votersHash _ := 0

def sampleStart : Fairnode := .start .mongo (.new [sampleConfig])

def sampleLeague (rand : BitVec 160) (cminer : UInt64) (data : ChainConfig) : Otprn :=
  let o : Otprn := { rand, fnAddr := 0xfa, cminer, data, sign := [] }
  { o with sign := sampleSign (o.hashOtprn sampleCrypto) 0xfa }

def sampleBlock (otprn : Otprn) (extra : Bytes) : Header :=
  let h : Header := { sampleHeader with number := 1, otprn := otprn.encodeOtprn, extra }
  { h with difficulty := (h.calcDifficulty sampleCrypto).toNat }

def sampleText (d : UInt8) : Bytes := [0x30 + d]

def sampleDigest (fields : List GoValue) (d : UInt8) : Bytes :=
  sampleSign (rlpHash sampleCrypto (.list fields)) (hexToAddress (sampleText d))

def sampleBeat (enode : Bytes) (d : UInt8) : Request :=
  let req : HeartBeatRequest := {
    enode, minerAddress := sampleText d, chainID := [1], nodeVersion := [1], ip := [], port := 2000,
    head := sampleText 0, sign := [] }
  .heartBeat (some [1]) 0 { req with sign := sampleDigest (heartBeatFields req) d }

def sampleJoin (enode : Bytes) (d : UInt8) : Request :=
  .requestOtprn {
    enode, minerAddress := sampleText d
    sign := sampleDigest [.str enode, .str (sampleText d)] d }

def sampleVote (header : Header) (d : UInt8) : Request :=
  .vote {
    header := header.byte, voterAddress := sampleText d
    voterSign := sampleDigest [.bytes header.byte, .str (sampleText d)] d }

def sampleSend (block : Header) (d : UInt8) : Request :=
  .sendBlock {
    block := block.byte, address := sampleText d
    sign := sampleDigest [.bytes block.byte, .str (sampleText d)] d }

def sampleCall (ref : ℕ) (req : Request) : List Action := [.call ref req, .perform 0]

def sampleMake (otprn : Otprn) : List Action := List.replicate 4 (.makeOtprn otprn)

def sampleRound : List Action := .tick [] :: (List.replicate 5 [.tick [], .resume]).flatten

def sampleElection (ref : ℕ) (otprn : Otprn) (block : Header) (voter : UInt8) : List Action :=
  sampleMake otprn ++ sampleCall ref (sampleJoin [1] 5) ++ sampleRound ++
    sampleCall ref (sampleVote block voter) ++ [.tick [(block, 1)]]

end Anduschain
