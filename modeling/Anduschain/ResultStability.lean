import Anduschain.LeagueQuorum
import Anduschain.VoteResult

/-! The vote result after the count. `RequestVoteResult` tallies the stored votes
again, while `Vote` still takes votes and the tally may depend on the order of a
map; a guard on late votes and on ties keeps the answer equal to what the leader
has stored, and then `SealConfirm` and `SendBlock` accept what a miner makes of it. -/
namespace Anduschain
open ByteOrder CheckedSteps FiniteRun OrderedChoice List

structure ReqConfirmSeal where
  otprnHash : Bytes
  blockHash : Bytes
  voteHash : Bytes
  address : Bytes
  sign : Bytes

def sealConfirm (env : FairnodeEnv) (find : Hash → Option League) (reqSeal : ReqConfirmSeal) :
    Except RpcError League := do
  rejectIf (reqSeal.address = []) (.empty "address")
  rejectIf (reqSeal.otprnHash = []) (.empty "otprn hash")
  rejectIf (reqSeal.blockHash = []) (.empty "block hash")
  rejectIf (reqSeal.voteHash = []) (.empty "vote hash")
  rejectIf (reqSeal.sign = []) (.empty "sign")
  checkSign env reqSeal.sign
    [.bytes reqSeal.otprnHash, .bytes reqSeal.blockHash, .bytes reqSeal.voteHash, .str reqSeal.address]
    (hexToAddress reqSeal.address)
  let otprnHash := bytesToHash reqSeal.otprnHash
  let clg ← orReject (find otprnHash) (.noLeague otprnHash)
  let votehash ← orReject clg.votehash .hashNil
  let blockHash ← orReject clg.blockHash .hashNil
  let voteHash := bytesToHash reqSeal.voteHash
  rejectIf (votehash ≠ voteHash) (.voteHash votehash voteHash)
  rejectIf (blockHash ≠ bytesToHash reqSeal.blockHash)
    (.blockHash blockHash (bytesToHash reqSeal.blockHash))
  pure clg

def TieFree (crypto : Crypto) (voters : List Voter) : Prop :=
  ∀ a ∈ (voteResult crypto voters).map Prod.snd, ∀ b ∈ (voteResult crypto voters).map Prod.snd,
    IsBest rank ((voteResult crypto voters).map Prod.snd) a →
    IsBest rank ((voteResult crypto voters).map Prod.snd) b → a.1.hash crypto = b.1.hash crypto

instance (l : List (Header × ℕ)) (a : Header × ℕ) : Decidable (IsBest rank l a) :=
  inferInstanceAs (Decidable (_ ∧ _))

instance (crypto : Crypto) (voters : List Voter) : Decidable (TieFree crypto voters) :=
  inferInstanceAs (Decidable (∀ a ∈ _, ∀ b ∈ _, _))

/-- Asleep on the league before a status that rests on its count. -/
def LoopPoint.pins (ref : ℕ) : LoopPoint → Bool
  | .sleeping r next => r = ref && (next.elected || next = .finalize)
  | _ => false

open LoopPoint (pins)
open FnStatus (elected)

def Pinned (s : Fairnode) (ref : ℕ) (l : League) : Prop :=
  l.status.elected ∨ (l.status = .finalize ∧ l.blockHash ≠ none) ∨ s.loop.pins ref

instance (s : Fairnode) (ref : ℕ) (l : League) : Decidable (Pinned s ref l) :=
  inferInstanceAs (Decidable (_ ∨ _ ∨ _))

section Guard
variable (env : FairnodeEnv) (s : Fairnode)

/-- A vote that is new in its round does not come after the count. -/
def InTime : DbWrite → Prop
  | .saveVote otprnHash number v => ∀ p ∈ s.heap.zipIdx, Pinned s p.2 p.1 →
      makeVoteKey (p.1.otprn.hashOtprn env.crypto) (p.1.current + 1) = makeVoteKey otprnHash number →
      env.backend = .mongo ∧ v ∈ roundVoters env s p.1
  | _ => True

instance : ∀ w, Decidable (InTime env s w)
  | .saveVote otprnHash number v => inferInstanceAs (Decidable (∀ p ∈ s.heap.zipIdx, Pinned s p.2 p.1 →
      makeVoteKey (p.1.otprn.hashOtprn env.crypto) (p.1.current + 1) = makeVoteKey otprnHash number →
      env.backend = .mongo ∧ v ∈ roundVoters env s p.1))
  | .saveActiveNode _ | .saveLeague _ _ _ | .saveFinalBlock _ => inferInstanceAs (Decidable True)

/-- No vote is written after the count of its round, and no count ends in a tie. -/
def ResultGuard : Action → Prop
  | .tick _ => s.loop = .idle → ∀ ref ∈ s.active, ∀ l ∈ s.heap[ref]?, l.status = .voteCounting →
      TieFree env.crypto (roundVoters env s l)
  | .perform i => ∀ w ∈ s.writes[i]?, InTime env s w
  | _ => True

instance : ∀ a, Decidable (ResultGuard env s a)
  | .tick _ => inferInstanceAs (Decidable (s.loop = .idle → ∀ ref ∈ s.active, ∀ l ∈ s.heap[ref]?,
      l.status = .voteCounting → TieFree env.crypto (roundVoters env s l)))
  | .perform i => inferInstanceAs (Decidable (∀ w ∈ s.writes[i]?, InTime env s w))
  | .resume | .makeOtprn _ | .call _ _ | .removeActiveNode _ => inferInstanceAs (Decidable True)

end Guard

/-- Where the leagues are: a league that is not current has not begun. -/
structure Placed (env : FairnodeEnv) (s : Fairnode) : Prop where
  keyed : ∀ (p : Hash) (ref : ℕ), s.leagues.lookup p = some ref →
    ∃ l : League, s.heap[ref]? = some l ∧ l.otprn.hashOtprn env.crypto = p
  waiting : ∀ (p : Hash) (ref : ℕ) (l : League), s.leagues.lookup p = some ref →
    s.currentLeague ≠ some p → s.heap[ref]? = some l → l.status = .pending
  asleep : ∀ (p : Hash) (ref : ℕ) (next : FnStatus), s.loop = .sleeping ref next →
    s.leagues.lookup p = some ref → s.currentLeague = some p
  writing : ∀ (p : Hash) (ref : ℕ) (status : FnStatus) (pend : Bool),
    s.maker = .writing ref status pend → s.leagues.lookup p = some ref → s.currentLeague = some p

section Places
variable {env : FairnodeEnv} {s t : Fairnode}

theorem Placed.current_of_active (placed : Placed env s) {p : Hash} {ref : ℕ}
    (isActive : s.active = some ref) (found : s.leagues.lookup p = some ref) :
    s.currentLeague = some p := by
  obtain ⟨cur, isCurrent, foundCur⟩ := Option.bind_eq_some_iff.mp isActive
  obtain ⟨l, was, hash⟩ := placed.keyed p ref found
  obtain ⟨l', was', hash'⟩ := placed.keyed cur ref foundCur
  cases was.symm.trans was'
  rw [isCurrent, ← hash', hash]

theorem Placed.step {a : Action} (placed : Placed env s) (kept : HashesKept s)
    (next : step env s a = some t) : Placed env t where
  keyed p ref found := by
    rcases step_lookup next found with ⟨before, -⟩ | ⟨otprn, -, rfl, -, new⟩
    · obtain ⟨l, was, hash⟩ := placed.keyed p ref before
      have bound := (List.getElem?_eq_some_iff.mp was).1
      have now := getElem?_eq_getElem (bound.trans_le (step_heap_length next))
      rcases (step_league next now).otprn with ⟨l', was', same⟩ | beyond
      · cases was.symm.trans was'
        exact ⟨_, now, by rw [same, hash]⟩
      · omega
    · exact ⟨_, new, rfl⟩
  waiting p ref x found other now := by
    rcases step_lookup next found with ⟨before, stays⟩ | ⟨otprn, -, -, -, new⟩
    · have waits := placed.waiting p ref
      have apart : s.currentLeague ≠ some p := fun isCurrent => other (stays isCurrent)
      cases step_league next now with
      | turned ticks isIdle isActive => exact absurd (placed.current_of_active isActive before) apart
      | kept was => exact waits _ before apart was
      | woken was loop => exact absurd (placed.asleep p ref _ loop before) apart
      | adopted was =>
        have pending := waits _ before apart was
        exact pending
      | set was point => exact absurd (placed.writing p ref _ _ point before) apart
      | added => rfl
    · cases now.symm.trans new
      rfl
  asleep p ref status loop found := by
    rcases step_lookup next found with ⟨before, stays⟩ | ⟨otprn, -, -, beyond, -⟩
    · rcases step_asleep next loop with slept | ⟨-, isActive, -⟩
      · exact stays (placed.asleep p ref status slept before)
      · exact stays (placed.current_of_active isActive before)
    · rcases step_asleep next loop with slept | ⟨-, -, bound⟩
      · exact absurd (kept.inRange ref status slept) (by omega)
      · omega
  writing p ref status pend writes found := by
    rcases step_lookup next found with ⟨before, stays⟩ | ⟨otprn, adding, -⟩
    · rcases step_writing next writes with wrote | ⟨-, isActive, -⟩
      · exact stays (placed.writing p ref status pend wrote before)
      · exact stays (placed.current_of_active isActive before)
    · rcases step_writing next writes with wrote | ⟨handling, -⟩
      · cases adding.symm.trans wrote
      · cases adding.symm.trans handling

theorem placed_start (env : FairnodeEnv) (backend : Backend) (db : FairnodeDB) :
    Placed env (.start backend db) := by
  refine ⟨?_, ?_, ?_, ?_⟩ <;> simp [Fairnode.start]

end Places

structure Settled (env : FairnodeEnv) (s : Fairnode) (l : League) : Prop where
  tallied : ∃ order hash, MapOrder env.crypto (roundVoters env s l) order ∧
    validationFinalBlockHash env.crypto (roundVoters env s l) order = some hash ∧
    l.blockHash = some hash
  votehash : l.votehash = some (env.votersHash (roundVoters env s l))
  tieFree : TieFree env.crypto (roundVoters env s l)

def ResultsKept (env : FairnodeEnv) (s : Fairnode) : Prop :=
  ∀ (ref : ℕ) (l : League), s.heap[ref]? = some l → Pinned s ref l → Settled env s l

section Results
variable {env : FairnodeEnv} {s t : Fairnode} {ref : ℕ} {l l' : League}

theorem TieFree.unique {crypto : Crypto} {voters : List Voter} (tieFree : TieFree crypto voters)
    {o₁ o₂ : List (Header × ℕ)} (iter₁ : MapOrder crypto voters o₁) (iter₂ : MapOrder crypto voters o₂) :
    validationFinalBlockHash crypto voters o₁ = validationFinalBlockHash crypto voters o₂ := by
  unfold validationFinalBlockHash
  split
  · rfl
  · rw [foldl_keepTop, foldl_keepTop]
    refine (argmax_perm_iff rank (fun vs : Header × ℕ => vs.1.hash crypto) _).mpr ?_ o₁ o₂ iter₁ iter₂
    intro a b bestA bestB
    exact tieFree a bestA.1 b bestB.1 bestA bestB

theorem Settled.congr (settled : Settled env s l) (voters : roundVoters env t l' = roundVoters env s l)
    (blockHash : l'.blockHash = l.blockHash) (votehash : l'.votehash = l.votehash) :
    Settled env t l' := by
  obtain ⟨tallied, stored, tieFree⟩ := settled
  exact ⟨by rwa [voters, blockHash], by rwa [voters, votehash], by rwa [voters]⟩

theorem roundVoters_congr (otprn : l'.otprn = l.otprn) (current : l'.current = l.current) :
    roundVoters env s l' = roundVoters env s l := by
  rw [roundVoters, roundVoters, otprn, current]

theorem pins_iff {point : LoopPoint} : point.pins ref = true ↔
    ∃ next, point = .sleeping ref next ∧ (next.elected ∨ next = .finalize) := by
  cases point <;> simp [pins]

theorem Turn.settled {point : LoopPoint} (turn : Turn env s ref l l' point)
    (before : l.status.elected ∨ l.status = .finalize ∧ l.blockHash ≠ none → Settled env s l)
    (tieFree : l.status = .voteCounting → TieFree env.crypto (roundVoters env s l))
    (pinned : l'.status.elected ∨ (l'.status = .finalize ∧ l'.blockHash ≠ none) ∨ point.pins ref) :
    Settled env s l' := by
  cases turn with
  | wait =>
    simp only [pins, Bool.false_eq_true, or_false] at pinned
    exact before pinned
  | gather status => simp [elected, pins] at pinned
  | reject => simp [elected, pins] at pinned
  | sleep follows =>
    refine before ?_
    rcases pinned with elected | finalize | pins
    · exact .inl elected
    · exact .inr finalize
    · obtain ⟨next, same, awaits⟩ := pins_iff.mp pins
      cases same
      left
      generalize l.status = status at follows
      cases follows <;> simp_all [elected]
  | join status last => simp [status, elected, pins] at pinned
  | count status inForce quorum iter tallied =>
    exact ⟨⟨_, _, iter, tallied, rfl⟩, rfl, tieFree status⟩
  | store status => exact (before (.inl (by rw [status]; rfl))).congr rfl rfl rfl
  | finish status current => simp [status, elected, pins] at pinned
  | leave status => simp [status, elected, pins] at pinned

theorem step_roundVoters {a : Action} (next : step env s a = some t) (guard : ResultGuard env s a)
    (was : s.heap[ref]? = some l) (pinned : Pinned s ref l) :
    roundVoters env t l = roundVoters env s l := by
  rcases step_votes next with same | ⟨i, otprnHash, number, v, rfl, found, saved⟩
  · rw [roundVoters, roundVoters, FairnodeDB.getVoters, FairnodeDB.getVoters, same]
  · have inTime := guard _ found (l, ref) (mem_zipIdx_iff_getElem?.mpr was) pinned
    rw [roundVoters, saved, FairnodeDB.getVoters_saveVote]
    split
    · rename_i late
      exact absurd (inTime late.1) late.2
    · rfl

theorem ResultsKept.step {a : Action} (results : ResultsKept env s) (placed : Placed env s)
    (kept : HashesKept s) (guard : ResultGuard env s a) (next : step env s a = some t) :
    ResultsKept env t := by
  intro r x found pinned
  have carry {l : League} (was : s.heap[r]? = some l) (before : Pinned s r l)
      (otprn : x.otprn = l.otprn) (current : x.current = l.current)
      (blockHash : x.blockHash = l.blockHash) (votehash : x.votehash = l.votehash) :
      Settled env t x := by
    refine (results r l was before).congr ?_ blockHash votehash
    rw [roundVoters_congr otprn current, step_roundVoters next guard was before]
  cases step_league next found with
  | turned ticks isIdle isActive was ticked =>
    subst ticks
    have settled := ticked.turn.settled (fun counted => results r _ was (counted.imp_right .inl))
      (fun status => guard isIdle r isActive _ was status) pinned
    exact settled.congr (by rw [roundVoters, roundVoters, ticked.db]) rfl rfl
  | kept was asleep =>
    refine carry was (pinned.imp_right (.imp_right fun pins => ?_)) rfl rfl rfl rfl
    obtain ⟨next, loop, awaits⟩ := pins_iff.mp pins
    exact pins_iff.mpr ⟨next, asleep next loop, awaits⟩
  | woken was loop idle =>
    refine carry was (.inr (.inr (pins_iff.mpr ⟨_, loop, ?_⟩))) rfl rfl rfl rfl
    rcases pinned with elected | finalize | pins
    · exact .inl elected
    · exact .inr finalize.1
    · rw [idle] at pins
      cases pins
  | adopted was isCurrent isPending lookup loop refreshing =>
    obtain ⟨other, lookup⟩ := lookup_of_erase lookup
    have waits := placed.waiting _ r _ lookup
      (fun same => other (Option.some.inj (same.symm.trans isCurrent))) was
    simp [Pinned, waits, elected, refreshing, pins] at pinned
  | set was point loop =>
    refine carry was (.inr (.inr ?_)) rfl rfl rfl rfl
    rcases kept.decided _ _ _ point with rfl | rfl
    · simpa [Pinned, elected, loop] using pinned
    · simpa [Pinned, elected, loop] using pinned
  | added point index loop =>
    simp only [Pinned, elected, Bool.false_eq_true, reduceCtorEq, false_and,
      false_or] at pinned
    obtain ⟨next, sleeps, -⟩ := pins_iff.mp pinned
    exact absurd (kept.inRange r next (loop.symm.trans sleeps)) (by omega)

theorem resultsKept_start (env : FairnodeEnv) (backend : Backend) (db : FairnodeDB) :
    ResultsKept env (.start backend db) := by
  intro ref l found
  simp [Fairnode.start] at found

structure ResultInv (env : FairnodeEnv) (s : Fairnode) : Prop where
  hashes : HashesKept s
  placed : Placed env s
  results : ResultsKept env s

theorem ResultInv.step {a : Action} (inv : ResultInv env s) (guard : ResultGuard env s a)
    (next : step env s a = some t) : ResultInv env t :=
  ⟨inv.hashes.step next, inv.placed.step inv.hashes next,
    inv.results.step inv.placed inv.hashes guard next⟩

end Results

section Answers
variable {env : FairnodeEnv} {s : Fairnode} {ref : ℕ} {l : League}

theorem clientVotes_message {crypto : Crypto} {voters : List Voter}
    (valid : ∀ v ∈ voters, revalidate crypto v = .ok ()) :
    clientVotes crypto (voters.map (Voter.message crypto)) = .ok voters := by
  induction voters with
  | nil => rfl
  | cons v voters ih =>
    have first := clientVote_message.mpr (valid v mem_cons_self)
    have rest := ih fun v member => valid v (mem_cons_of_mem _ member)
    rw [clientVotes] at rest ⊢
    rw [map_cons, mapM_cons, first]
    simp only [bind_eq_ok]
    exact ⟨v, rfl, voters, rest, rfl⟩

theorem requestVoteResult_ok {order : List (Header × ℕ)} {req : ReqVoteResult} {res : VoteResult}
    (was : s.heap[ref]? = some l)
    (answered : requestVoteResult env s.db (held env s ref) order req = .ok res) :
    validationFinalBlockHash env.crypto (roundVoters env s l) order = some res.blockHash ∧
      clientVotes env.crypto res.voters = .ok (roundVoters env s l) := by
  unfold requestVoteResult at answered
  simp only [bind_eq_ok, exists_unit, rejectIf_eq_ok, orReject_eq_ok] at answered
  obtain ⟨-, -, -, -, clg, found, -, valid, hash, tallied, result⟩ := answered
  obtain ⟨was', key⟩ := held_eq_some.mp found
  cases was.symm.trans was'
  cases result
  rw [← key] at valid tallied
  refine ⟨by rw [roundVoters, ← key]; exact tallied, ?_⟩
  rw [← key]
  exact clientVotes_message fun v member => mapError_eq_ok.mp (forM_eq_ok.mp valid v member)

end Answers

/-- What a miner can do with a vote result: block hash and vote root are the ones the leader
compares with in `SealConfirm` and `SendBlock`. -/
structure Followable (env : FairnodeEnv) (s : Fairnode) (ref : ℕ) (l : League) (res : VoteResult)
    (voters : List Voter) : Prop where
  blockHash : l.blockHash = some res.blockHash
  votehash : l.votehash = some (env.votersHash voters)
  seal_confirmed : ∀ req : ReqConfirmSeal, req.address ≠ [] → req.otprnHash ≠ [] →
    req.blockHash ≠ [] → req.voteHash ≠ [] → req.sign ≠ [] →
    checkSign env req.sign [.bytes req.otprnHash, .bytes req.blockHash, .bytes req.voteHash,
      .str req.address] (hexToAddress req.address) = .ok () →
    bytesToHash req.otprnHash = l.otprn.hashOtprn env.crypto →
    bytesToHash req.blockHash = res.blockHash → bytesToHash req.voteHash = env.votersHash voters →
    sealConfirm env (held env s ref) req = .ok l
  block_taken : ∀ (req : ReqBlock) (block : Header) (otprn : Otprn), l.status = .sendBlock →
    req.address ≠ [] → req.block ≠ [] → req.sign ≠ [] →
    checkSign env req.sign [.bytes req.block, .str req.address] (hexToAddress req.address) = .ok () →
    env.decodeBlock req.block = some block → decodeOtprn block.otprn = some otprn →
    otprn.hashOtprn env.crypto = l.otprn.hashOtprn env.crypto →
    block.hash env.crypto = res.blockHash → block.voteHash = env.votersHash voters →
    sendBlock env (held env s ref) req = .ok (sealBlock env block)

theorem followable_of_hashes {env : FairnodeEnv} {s : Fairnode} {ref : ℕ} {l : League}
    {res : VoteResult} {voters : List Voter} (was : s.heap[ref]? = some l)
    (blockHash : l.blockHash = some res.blockHash)
    (votehash : l.votehash = some (env.votersHash voters)) : Followable env s ref l res voters where
  blockHash := blockHash
  votehash := votehash
  seal_confirmed := by
    intro req address otprnHash block vote sign signed own sameBlock sameVote
    have found := held_eq_some.mpr ⟨was, own.symm⟩
    simp only [sealConfirm, bind_eq_ok, exists_unit, rejectIf_eq_ok, orReject_eq_ok]
    exact ⟨address, otprnHash, block, vote, sign, signed, l, found, _, votehash, _, blockHash,
      not_not.mpr sameVote.symm, not_not.mpr sameBlock.symm, rfl⟩
  block_taken := by
    intro req block otprn status address nonempty sign signed decoded decodedOtprn own sameBlock sameVote
    have found := held_eq_some.mpr ⟨was, own.symm⟩
    simp only [sendBlock, bind_eq_ok, exists_unit, rejectIf_eq_ok, orReject_eq_ok]
    exact ⟨address, nonempty, sign, signed, block, decoded, otprn, decodedOtprn, l, found,
      not_not.mpr status, _, blockHash, not_not.mpr sameBlock.symm, _, votehash,
      not_not.mpr sameVote.symm, rfl⟩

/-- In a guarded run every vote result of a counted league is what the leader has stored, for
any order of the tally's map, until the league is finalized or rejected. -/
theorem voteResult_stable (env : FairnodeEnv) (db : FairnodeDB) (acts : List Action)
    (guarded : Guarded (step env) (ResultGuard env) (Fairnode.start env.backend db) acts)
    (s : Fairnode) (ran : run (step env) (Fairnode.start env.backend db) acts = some s)
    (ref : ℕ) (l : League) (found : s.heap[ref]? = some l)
    (counted : l.status.elected ∨ l.status = .finalize ∧ l.blockHash ≠ none)
    (order : List (Header × ℕ)) (iter : MapOrder env.crypto (roundVoters env s l) order)
    (req : ReqVoteResult) (res : VoteResult)
    (answered : requestVoteResult env s.db (held env s ref) order req = .ok res) :
    ∃ voters, clientVotes env.crypto res.voters = .ok voters ∧ Followable env s ref l res voters := by
  have inv : ResultInv env s := run_keeps (fun _ _ _ inv guard next => inv.step guard next)
    ⟨hashesKept_start _ db, placed_start env _ db, resultsKept_start env _ db⟩ guarded ran
  have settled := inv.results ref l found (counted.imp_right .inl)
  obtain ⟨order', hash, iter', tallied', stored⟩ := settled.tallied
  obtain ⟨tallied, votes⟩ := requestVoteResult_ok found answered
  have same : hash = res.blockHash := by
    rw [settled.tieFree.unique iter' iter, tallied] at tallied'
    exact (Option.some.inj tallied').symm
  exact ⟨_, votes, followable_of_hashes found (same ▸ stored) settled.votehash⟩

def sampleRoots : FairnodeEnv :=
  { sampleNode .mongo with votersHash := fun voters => BitVec.ofNat 256 voters.length }

def sampleSpelled (extra : Bytes) (voter : Address) : Request :=
  let header := (sampleCandidate extra).byte
  let text := addressText sampleCrypto voter
  .vote {
    header, voterAddress := text
    voterSign := sampleSign (voteDigest sampleCrypto header text) voter }

def sampleResultReq : ReqVoteResult :=
  let otprnHash := hashBytes ((sampleLeague 7 1 sampleConfig).hashOtprn sampleCrypto)
  { otprnHash, address := sampleText 5, sign := sampleDigest [.bytes otprnHash, .str (sampleText 5)] 5 }

def sampleLate (late : List Request) : List Action :=
  sampleCount [sampleSpelled [] 5] [(sampleCandidate [], 1)] ++ [.resume] ++
    late.flatMap (sampleCall 0)

def sampleAnswer (late : List Request) (order : List (Header × ℕ)) :
    Option (Fairnode × League × VoteResult) :=
  (run (step sampleRoots) sampleStart (sampleLate late)).bind fun s => (s.heap[0]?).bind fun l =>
    (requestVoteResult sampleRoots s.db (held sampleRoots s 0) order sampleResultReq).toOption.map
      fun res => (s, l, res)

theorem sampleAnswer_some {late : List Request} {order : List (Header × ℕ)} {s : Fairnode} {l : League}
    {res : VoteResult} (answer : sampleAnswer late order = some (s, l, res)) :
    run (step sampleRoots) sampleStart (sampleLate late) = some s ∧ s.heap[0]? = some l ∧
      requestVoteResult sampleRoots s.db (held sampleRoots s 0) order sampleResultReq = .ok res := by
  obtain ⟨s', ran, answer⟩ := Option.bind_eq_some_iff.mp answer
  obtain ⟨l', found, answer⟩ := Option.bind_eq_some_iff.mp answer
  obtain ⟨res', answered, same⟩ := Option.map_eq_some_iff.mp answer
  cases same
  refine ⟨ran, found, ?_⟩
  cases result : requestVoteResult sampleRoots s.db (held sampleRoots s 0) order sampleResultReq with
  | error e =>
    rw [result] at answered
    cases answered
  | ok res' =>
    rw [result] at answered
    cases answered
    rfl

theorem sampleLate_none : ∃ s l res voters,
    sampleAnswer [] [(sampleCandidate [], 1)] = some (s, l, res) ∧ l.status = .voteComplete ∧
      res.voters.length = 1 ∧ clientVotes sampleCrypto res.voters = .ok voters ∧
      Followable sampleRoots s 0 l res voters := by
  have facts : (sampleAnswer [] [(sampleCandidate [], 1)]).map (fun x =>
      (x.2.1.status, x.2.2.voters.length,
        decide (MapOrder sampleCrypto (roundVoters sampleRoots x.1 x.2.1) [(sampleCandidate [], 1)]))) =
      some (.voteComplete, 1, true) := by decide +kernel
  obtain ⟨⟨s, l, res⟩, answer, facts⟩ := Option.map_eq_some_iff.mp facts
  obtain ⟨status, facts⟩ := Prod.mk.inj facts
  obtain ⟨one, iter⟩ := Prod.mk.inj facts
  obtain ⟨ran, found, answered⟩ := sampleAnswer_some answer
  have counted : l.status.elected := by
    rw [status]
    rfl
  obtain ⟨voters, votes, follows⟩ := voteResult_stable sampleRoots (.new [sampleConfig]) (sampleLate [])
    (by decide +kernel) s ran 0 l found (.inl counted) _ (of_decide_eq_true iter) _ res answered
  exact ⟨s, l, res, voters, answer, status, one, votes, follows⟩

/-- Two votes for another block come in after the count: the result names that block and
three votes, while the leader keeps the hash of the first block and the root of one vote. -/
theorem sampleLate_two : ∃ s l res,
    sampleAnswer [sampleSpelled [1] 6, sampleSpelled [1] 7]
        [(sampleCandidate [], 1), (sampleCandidate [1], 2)] = some (s, l, res) ∧
      MapOrder sampleCrypto (roundVoters sampleRoots s l)
        [(sampleCandidate [], 1), (sampleCandidate [1], 2)] ∧
      l.status = .voteComplete ∧ l.blockHash ≠ some res.blockHash ∧
      l.votehash = some 1 ∧ res.voters.length = 3 := by
  have facts : (sampleAnswer [sampleSpelled [1] 6, sampleSpelled [1] 7]
      [(sampleCandidate [], 1), (sampleCandidate [1], 2)]).map (fun x =>
        decide (MapOrder sampleCrypto (roundVoters sampleRoots x.1 x.2.1)
            [(sampleCandidate [], 1), (sampleCandidate [1], 2)] ∧
          x.2.1.status = .voteComplete ∧ x.2.1.blockHash ≠ some x.2.2.blockHash ∧
          x.2.1.votehash = some 1 ∧ x.2.2.voters.length = 3)) = some true := by decide +kernel
  obtain ⟨⟨s, l, res⟩, answer, facts⟩ := Option.map_eq_some_iff.mp facts
  exact ⟨s, l, res, answer, of_decide_eq_true facts⟩

end Anduschain
