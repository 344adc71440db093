import Anduschain.VoteRegister

/-! Who belongs to a league: whether counted votes come from addresses that joined
it, and whether the nodes it records were drawn for it. -/
namespace Anduschain
open ByteOrder FiniteRun List

def voteLeague (crypto : Crypto) (header : Bytes) : Option Hash :=
  (decodeHeader header).bind fun h => (decodeOtprn h.otprn).map (Otprn.hashOtprn crypto)

variable (env : FairnodeEnv) (db : FairnodeDB) (s : Fairnode)

def MemberVotes : Prop := ∀ p ∈ s.counted, (p.1, p.2.voter) ∈ s.joined

instance (s : Fairnode) : Decidable (MemberVotes s) :=
  inferInstanceAs (Decidable (∀ p ∈ s.counted, _))

/-- Votes come from addresses that have joined the league, and those read under a league's key are
votes in it. -/
def MemberGuard : Action → Prop
  | .call _ (.vote req) => ∀ hash ∈ voteLeague env.crypto req.header,
      (hash, hexToAddress req.voterAddress) ∈ s.joined
  | .tick _ => ∀ l ∈ s.active.bind fun ref => s.heap[ref]?, l.status = .voteCounting →
      ∀ p ∈ votesOf env s l, voteLeague env.crypto p.2.header = some p.1
  | _ => True

instance (env : FairnodeEnv) (s : Fairnode) : ∀ a, Decidable (MemberGuard env s a)
  | .call _ (.vote req) =>
    -- The membership test is put under `Option.all`, which evaluates the hash once.
    decidable_of_iff ((voteLeague env.crypto req.header).all fun hash =>
      decide ((hash, hexToAddress req.voterAddress) ∈ s.joined)) 
      (by cases voted : voteLeague env.crypto req.header <;> simp [MemberGuard, voted])
  | .tick _ => inferInstanceAs (Decidable (∀ l ∈ s.active.bind fun ref => s.heap[ref]?,
      l.status = .voteCounting → ∀ p ∈ votesOf env s l, voteLeague env.crypto p.2.header = some p.1))
  | .call _ (.heartBeat _ _ _) | .call _ (.requestOtprn _) | .call _ (.sendBlock _)
  | .call _ (.requestFairnodeSign _) | .resume | .makeOtprn _ | .perform _ | .removeActiveNode _ =>
    inferInstanceAs (Decidable True)

def Cast (joined : List (Hash × Address)) (v : Voter) : Prop :=
  ∀ hash ∈ voteLeague env.crypto v.header, (hash, v.voter) ∈ joined

structure Membership (env : FairnodeEnv) (s : Fairnode) : Prop where
  stored : ∀ key, ∀ v ∈ s.db.getVoters key, Cast env s.joined v
  onTheWay : ∀ otprnHash number v, DbWrite.saveVote otprnHash number v ∈ s.writes →
    Cast env s.joined v
  counted : MemberVotes s

section Membership
variable {env : FairnodeEnv} {s t : Fairnode}

theorem Cast.mono {joined joined' : List (Hash × Address)} {v : Voter} (cast : Cast env joined v)
    (more : joined ⊆ joined') : Cast env joined' v :=
  fun hash named => more (cast hash named)

theorem Membership.of_frame (members : Membership env s) (joined : s.joined ⊆ t.joined)
    (votes : t.db.voteList = s.db.voteList) (writes : t.writes ⊆ s.writes)
    (counted : t.counted = s.counted) : Membership env t where
  stored key v member := by
    simp only [FairnodeDB.getVoters, votes] at member
    exact (members.stored key v member).mono joined
  onTheWay otprnHash number v member :=
    (members.onTheWay otprnHash number v (writes member)).mono joined
  counted p member := by
    rw [counted] at member
    exact joined (members.counted p member)

theorem Membership.tick (members : Membership env s) {order : List (Header × ℕ)}
    (guard : MemberGuard env s (.tick order)) (next : Anduschain.tick env s order = some t) :
    Membership env t := by
  have votes := tick_votes next
  rcases tick_effect next with rfl | ⟨ref, l, isActive, was, effect⟩
  · exact members
  · have joined : s.joined ⊆ t.joined := by rw [effect.joined]; exact List.Subset.refl _
    have writes : t.writes ⊆ s.writes := by rw [effect.writes]; exact List.Subset.refl _
    rcases effect.counted with same | ⟨status, counts⟩
    · exact members.of_frame joined votes writes same
    · refine ⟨fun key v member => ?_, fun otprnHash number v member => ?_, ?_⟩
      · simp only [FairnodeDB.getVoters, votes] at member
        exact (members.stored key v member).mono joined
      · exact (members.onTheWay otprnHash number v (writes member)).mono joined
      · intro p member
        rw [counts] at member
        rcases mem_append.mp member with old | new
        · exact joined (members.counted p old)
        · have named := guard l (by simp [isActive, was]) status p new
          obtain ⟨v, read, rfl⟩ := mem_map.mp new
          exact joined (members.stored _ v read _ named)

theorem Membership.call (members : Membership env s) {ref : ℕ} {req : Request}
    (guard : MemberGuard env s (.call ref req)) (next : Anduschain.call env s ref req = some t) :
    Membership env t := by
  obtain ⟨rest, writes⟩ := call_effect next
  have joined : t.joined = s.joined := by rw [rest]
  have counted : t.counted = s.counted := by rw [rest]
  refine ⟨?_, ?_, ?_⟩
  · rw [call_db next, joined]
    exact members.stored
  · intro otprnHash number v member
    rw [joined]
    rcases writes with same | ⟨w, added, decides⟩
    · rw [same] at member
      exact members.onTheWay otprnHash number v member
    · rw [added] at member
      rcases mem_append.mp member with old | new
      · exact members.onTheWay otprnHash number v old
      · obtain rfl := mem_singleton.mp new
        cases req with
        | vote req =>
          obtain ⟨_, _, _, accepted, same⟩ := decides
          cases same
          obtain ⟨rfl, -⟩ := vote_ok accepted
          exact guard
        | heartBeat peer now req =>
          obtain ⟨_, -, same⟩ := decides
          cases same
        | requestOtprn req =>
          obtain ⟨_, -, same⟩ := decides
          cases same
        | sendBlock req =>
          obtain ⟨_, -, same⟩ := decides
          cases same
        | requestFairnodeSign req => exact decides.elim
  · intro p member
    rw [counted] at member
    rw [joined]
    exact members.counted p member

theorem Membership.perform (members : Membership env s) {i : ℕ} {w : DbWrite}
    (found : s.writes[i]? = some w) :
    Membership env (Anduschain.perform env { s with writes := s.writes.eraseIdx i } w) := by
  have fewer : s.writes.eraseIdx i ⊆ s.writes := fun _ member => mem_of_mem_eraseIdx member
  cases w with
  | saveActiveNode node => exact members.of_frame (List.Subset.refl _) rfl fewer rfl
  | saveLeague otprn enode caller =>
    obtain ⟨leagueList, frame⟩ :=
      s.db.saveLeague_frame env.backend (otprn.hashOtprn env.crypto) enode
    refine members.of_frame (subset_append_left _ _) ?_ fewer rfl
    simp only [Anduschain.perform, frame]
  | saveFinalBlock block =>
    obtain ⟨blockChain, frame⟩ := s.db.saveFinalBlock_frame env.crypto block
    refine members.of_frame (List.Subset.refl _) ?_ fewer rfl
    simp only [Anduschain.perform, frame]
  | saveVote otprnHash number voter =>
    refine ⟨?_, fun otprnHash number v member => members.onTheWay otprnHash number v (fewer member),
      members.counted⟩
    intro key v member
    simp only [Anduschain.perform, FairnodeDB.getVoters_saveVote] at member
    split at member
    · rcases mem_append.mp member with old | new
      · exact members.stored key v old
      · rw [mem_singleton.mp new]
        exact members.onTheWay otprnHash number voter (mem_of_getElem? found)
    · exact members.stored key v member

theorem Membership.step (s : Fairnode) (a : Action) (t : Fairnode) (members : Membership env s)
    (guard : MemberGuard env s a) (next : Anduschain.step env s a = some t) : Membership env t := by
  cases a with
  | tick order => exact members.tick guard next
  | resume =>
    obtain ⟨writes, joined, db, counted, -⟩ := (resume_cases next).frame
    exact members.of_frame (by rw [joined]; exact List.Subset.refl _) (by rw [db])
      (by rw [writes]; exact List.Subset.refl _) counted
  | makeOtprn fresh =>
    obtain ⟨writes, joined, counted, -⟩ := makeOtprn_effect next
    exact members.of_frame (by rw [joined]; exact List.Subset.refl _) (makeOtprn_votes next)
      (by rw [writes]; exact List.Subset.refl _) counted
  | call ref req => exact members.call guard next
  | perform i =>
    obtain ⟨w, found, rfl⟩ := Option.map_eq_some_iff.mp next
    exact members.perform found
  | removeActiveNode enode =>
    cases next
    exact members.of_frame (List.Subset.refl _) rfl (List.Subset.refl _) rfl

end Membership

def sampleMember : Otprn := sampleLeague 7 1 sampleConfig

def Drawn (otprn : Otprn) (node : HeartBeat) : Prop :=
  isJoinOK env.int63 otprn (hexToAddress node.minerAddress) = some true

instance (env : FairnodeEnv) (otprn : Otprn) (node : HeartBeat) : Decidable (Drawn env otprn node) :=
  inferInstanceAs (Decidable (_ = _))

def OnlyDrawn : Prop :=
  ∀ otprn ∈ db.otprnList, ∀ node ∈ db.getLeagueList (otprn.hashOtprn env.crypto), Drawn env otprn node

instance (env : FairnodeEnv) (db : FairnodeDB) : Decidable (OnlyDrawn env db) :=
  inferInstanceAs (Decidable (∀ otprn ∈ db.otprnList, _))

/-- An OTPRN that is saved is new: no node is recorded under its hash. -/
def FreshOtprn : MakerPoint → Prop
  | .saving otprn => db.getLeagueList (otprn.hashOtprn env.crypto) = []
  | _ => True

instance (env : FairnodeEnv) (db : FairnodeDB) : ∀ point, Decidable (FreshOtprn env db point)
  | .saving otprn => inferInstanceAs (Decidable (db.getLeagueList (otprn.hashOtprn env.crypto) = []))
  | .idle | .preparing _ | .assigning _ _ | .adding _ | .handling | .writing _ _ _ =>
    inferInstanceAs (Decidable True)

def FreshGuard : Action → Prop
  | .makeOtprn _ => FreshOtprn env s.db s.maker
  | _ => True

instance (env : FairnodeEnv) (s : Fairnode) : ∀ a, Decidable (FreshGuard env s a)
  | .makeOtprn _ => inferInstanceAs (Decidable (FreshOtprn env s.db s.maker))
  | .tick _ | .resume | .call _ _ | .perform _ | .removeActiveNode _ => inferInstanceAs (Decidable True)

/-- A `SaveLeague` that records a node records one whose last heartbeat names a drawn miner. -/
def RecordsDrawn : DbWrite → Prop
  | .saveLeague otprn enode _ =>
    db.Records env.backend (otprn.hashOtprn env.crypto) enode → ∀ o ∈ db.otprnList,
      o.hashOtprn env.crypto = otprn.hashOtprn env.crypto → Drawn env o (db.nodeOf enode)
  | _ => True

instance (env : FairnodeEnv) (db : FairnodeDB) : ∀ w, Decidable (RecordsDrawn env db w)
  | .saveLeague otprn enode _ => inferInstanceAs (Decidable
      (db.Records env.backend (otprn.hashOtprn env.crypto) enode → ∀ o ∈ db.otprnList,
        o.hashOtprn env.crypto = otprn.hashOtprn env.crypto → Drawn env o (db.nodeOf enode)))
  | .saveActiveNode _ | .saveVote _ _ _ | .saveFinalBlock _ => inferInstanceAs (Decidable True)

def DrawGuard : Action → Prop
  | .perform i => ∀ w ∈ s.writes[i]?, RecordsDrawn env s.db w
  | _ => True

instance (env : FairnodeEnv) (s : Fairnode) : ∀ a, Decidable (DrawGuard env s a)
  | .perform i => inferInstanceAs (Decidable (∀ w ∈ s.writes[i]?, RecordsDrawn env s.db w))
  | .tick _ | .resume | .makeOtprn _ | .call _ _ | .removeActiveNode _ =>
    inferInstanceAs (Decidable True)

section Lottery
variable {env : FairnodeEnv} {s t : Fairnode} {db : FairnodeDB}

theorem saveLeague_drawn_iff {otprn : Otprn} {enode : Bytes} {caller : Address}
    (drawn : OnlyDrawn env db) :
    OnlyDrawn env (db.saveLeague env.backend (otprn.hashOtprn env.crypto) enode) ↔
      RecordsDrawn env db (.saveLeague otprn enode caller) := by
  obtain ⟨leagueList, frame⟩ := db.saveLeague_frame env.backend (otprn.hashOtprn env.crypto) enode
  have otprns : (db.saveLeague env.backend (otprn.hashOtprn env.crypto) enode).otprnList =
      db.otprnList := by rw [frame]
  simp only [OnlyDrawn, RecordsDrawn, otprns, FairnodeDB.getLeagueList_saveLeague]
  constructor
  · intro after records o saved same
    have own := after o saved (db.nodeOf enode)
    rw [if_pos ⟨same, records⟩] at own
    exact own (mem_append_right _ (mem_singleton_self _))
  · intro guard o saved node member
    split at member
    · rename_i added
      rcases mem_append.mp member with old | new
      · exact drawn o saved node old
      · rw [mem_singleton.mp new]
        exact guard added.2 o saved added.1
    · exact drawn o saved node member

theorem saveOtprn_drawn {otprn : Otprn} (drawn : OnlyDrawn env db)
    (fresh : db.getLeagueList (otprn.hashOtprn env.crypto) = []) :
    OnlyDrawn env (db.saveOtprn env.crypto env.backend otprn) := by
  have appended : OnlyDrawn env { db with otprnList := db.otprnList ++ [otprn] } := by
    intro o saved node member
    rcases mem_append.mp saved with old | new
    · exact drawn o old node member
    · rw [mem_singleton.mp new] at member
      have none : node ∈ db.getLeagueList (otprn.hashOtprn env.crypto) := member
      rw [fresh] at none
      cases none
  unfold FairnodeDB.saveOtprn
  split
  · exact appended
  · split
    · exact drawn
    · exact appended

theorem onlyDrawn_step (s : Fairnode) (a : Action) (t : Fairnode) (drawn : OnlyDrawn env s.db)
    (fresh : FreshGuard env s a) (next : step env s a = some t) :
    OnlyDrawn env t.db ↔ DrawGuard env s a := by
  cases a with
  | tick order =>
    refine iff_of_true ?_ trivial
    rcases tick_effect next with rfl | ⟨ref, l, -, -, effect⟩
    · exact drawn
    · rcases effect.db with same | ⟨hash, removed⟩
      · rw [same]
        exact drawn
      · obtain ⟨blockChain, frame⟩ := s.db.removeBlock_frame env.crypto env.backend hash
        rw [removed, frame]
        exact drawn
  | resume =>
    rw [(resume_cases next).frame.2.2.1]
    exact iff_of_true drawn trivial
  | makeOtprn otprn =>
    refine iff_of_true ?_ trivial
    obtain ⟨-, -, -, same | ⟨otprn, isSaving, saved⟩⟩ := makeOtprn_effect next
    · rw [same]
      exact drawn
    · simp only [FreshGuard, isSaving, FreshOtprn] at fresh
      rw [saved]
      exact saveOtprn_drawn drawn fresh
  | call ref req =>
    rw [call_db next]
    exact iff_of_true drawn trivial
  | removeActiveNode enode =>
    cases next
    exact iff_of_true drawn trivial
  | perform i =>
    obtain ⟨w, found, rfl⟩ := Option.map_eq_some_iff.mp next
    have guard : DrawGuard env s (.perform i) ↔ RecordsDrawn env s.db w := by
      simp [DrawGuard, found]
    rw [guard]
    cases w with
    | saveLeague otprn enode caller => exact saveLeague_drawn_iff drawn
    | saveActiveNode node => exact iff_of_true drawn trivial
    | saveVote otprnHash number voter =>
      obtain ⟨voteList, frame⟩ := s.db.saveVote_frame env.backend otprnHash number voter
      refine iff_of_true ?_ trivial
      simp only [perform, frame]
      exact drawn
    | saveFinalBlock block =>
      obtain ⟨blockChain, frame⟩ := s.db.saveFinalBlock_frame env.crypto block
      refine iff_of_true ?_ trivial
      simp only [perform, frame]
      exact drawn

end Lottery

/-- In a run whose OTPRNs are fresh, every league consists of drawn nodes all along exactly
when every node recorded is one whose last heartbeat names a drawn miner. -/
theorem onlyDrawn_always_iff (env : FairnodeEnv) (s : Fairnode) (drawn : OnlyDrawn env s.db)
    (acts : List Action) (fresh : Guarded (step env) (FreshGuard env) s acts) :
    Always (step env) (fun s => OnlyDrawn env s.db) s acts ↔
      Guarded (step env) (DrawGuard env) s acts :=
  always_iff_guarded onlyDrawn_step drawn fresh

def sampleLottery : Otprn := sampleLeague 0 2 { sampleConfig with mminer := 1 }

def sampleLotteryStart : Fairnode := .start .mongo (.new [{ sampleConfig with mminer := 1 }])

def sampleDraw (enode : Bytes) : List Action :=
  sampleCall 0 (sampleBeat [1] 6) ++ sampleCall 0 (sampleBeat [2] 5) ++ sampleMake sampleLottery ++
    sampleCall 0 (sampleJoin enode 5)

theorem sampleDraw_from_own_enode :
    OnlyDrawn (sampleNode .mongo) sampleLotteryStart.db ∧
      Always (step (sampleNode .mongo)) (fun s => OnlyDrawn (sampleNode .mongo) s.db)
        sampleLotteryStart (sampleDraw [2]) := by
  have drawn : OnlyDrawn (sampleNode .mongo) sampleLotteryStart.db := by
    intro otprn saved
    cases saved
  exact ⟨drawn, (onlyDrawn_always_iff (sampleNode .mongo) sampleLotteryStart drawn _
    (by decide +kernel)).mpr (by decide +kernel)⟩

/-- The drawn miner 5 joins from the enode of the undrawn miner 6, which is then recorded. -/
theorem sampleDraw_from_other_enode :
    ∃ s, run (step (sampleNode .mongo)) sampleLotteryStart (sampleDraw [1]) = some s ∧
      s.db.getLeagueList (sampleLottery.hashOtprn sampleCrypto) ≠ [] ∧
      ∀ node ∈ s.db.getLeagueList (sampleLottery.hashOtprn sampleCrypto),
        isJoinOK (sampleNode .mongo).int63 sampleLottery (hexToAddress node.minerAddress) = some false := by
  have result : (run (step (sampleNode .mongo)) sampleLotteryStart (sampleDraw [1])).map (fun s =>
      decide (s.db.getLeagueList (sampleLottery.hashOtprn sampleCrypto) ≠ [] ∧
        ∀ node ∈ s.db.getLeagueList (sampleLottery.hashOtprn sampleCrypto),
          isJoinOK (sampleNode .mongo).int63 sampleLottery (hexToAddress node.minerAddress) =
            some false)) = some true := by decide +kernel
  obtain ⟨s, ran, undrawn⟩ := Option.map_eq_some_iff.mp result
  exact ⟨s, ran, of_decide_eq_true undrawn⟩

end Anduschain
