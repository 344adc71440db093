import Anduschain.ChainTypes
import Mathlib.Data.List.AList
import Mathlib.Data.List.MinMax

/-! The fairnode's database (fairnode/fairdb) with its two back ends: the memory
one and the MongoDB one, whose collections are keyed documents. Blocks stand
for themselves by their headers. -/
namespace Anduschain
open ByteOrder List

inductive Backend where
  | mem
  | mongo
  deriving DecidableEq

structure HeartBeat where
  enode : Bytes
  minerAddress : Bytes
  chainID : Bytes
  nodeVersion : Bytes
  host : Bytes
  port : Int
  time : Int
  head : Hash
  sign : Bytes
  deriving DecidableEq

def HeartBeat.zero : HeartBeat := ⟨[], [], [], [], [], 0, 0, 0, []⟩

structure CurrentInfo where
  number : ℕ
  hash : Hash

structure FairnodeDB where
  configs : List ChainConfig
  nodeList : AList fun _ : Bytes => HeartBeat
  otprnList : List Otprn
  leagueList : AList fun _ : Hash => List (Bytes × HeartBeat)
  voteList : AList fun _ : Hash => List Voter
  blockChain : List Header
  deriving DecidableEq

def FairnodeDB.new (configs : List ChainConfig) : FairnodeDB := ⟨configs, ∅, [], ∅, ∅, []⟩

/-- The OTPRN hash followed by the number's bytes, cropped to the last 32. -/
def makeVoteKey (otprn : Hash) (blockNum : ℕ) : Hash :=
  bytesToHash (hashBytes otprn ++ beBytes blockNum)

def memChainConfig : ChainConfig where
  minMiner := 3
  blockNumber := 0
  fnFee := [0x31, 0x30]
  mminer := 50
  epoch := 10
  nodeVersion := [0x30, 0x2e, 0x38, 0x2e, 0x36]
  price := { joinTxPrice := [0x31], gasPrice := 9523809523809, gasLimit := 12600000 }
  sign := []

namespace FairnodeDB

variable (crypto : Crypto) (backend : Backend) (db : FairnodeDB)

/-- The last block saved, or the one whose stored `uint64` number is largest. -/
def currentBlock : Option Header :=
  match backend with
  | .mem => db.blockChain.getLast?
  | .mongo => db.blockChain.argmax fun b => b.number % 2 ^ 64

def currentInfo : Option CurrentInfo :=
  (db.currentBlock backend).map fun b =>
    match backend with
    | .mem => { number := b.number, hash := b.hash crypto }
    | .mongo => { number := b.number % 2 ^ 64, hash := b.hash crypto }

def getChainConfig : Option ChainConfig :=
  match backend with
  | .mem => some memChainConfig
  | .mongo =>
    let num := match db.currentInfo crypto backend with
      | none => 1
      | some current => current.number
    (db.configs.filter fun c => c.blockNumber.toNat ≤ num).argmax fun c => c.blockNumber.toNat

def saveActiveNode (node : HeartBeat) : FairnodeDB :=
  { db with nodeList := db.nodeList.insert node.enode node }

def getActiveNode : List HeartBeat := db.nodeList.entries.map Sigma.snd

def removeActiveNode (enode : Bytes) : FairnodeDB :=
  { db with nodeList := db.nodeList.erase enode }

/-- MongoDB refuses a second OTPRN with the same hash. -/
def saveOtprn (otprn : Otprn) : FairnodeDB :=
  match backend with
  | .mem => { db with otprnList := db.otprnList ++ [otprn] }
  | .mongo =>
    if ∃ o ∈ db.otprnList, o.hashOtprn crypto = otprn.hashOtprn crypto then db
    else { db with otprnList := db.otprnList ++ [otprn] }

def currentOtprn : Option Otprn := db.otprnList.getLast?

def leagueNodes (otprnHash : Hash) : List (Bytes × HeartBeat) :=
  (db.leagueList.lookup otprnHash).getD []

def getLeagueList (otprnHash : Hash) : List HeartBeat :=
  (db.leagueNodes otprnHash).map Prod.snd

def nodeOf (enode : Bytes) : HeartBeat :=
  (db.nodeList.lookup enode).getD .zero

/-- A node is copied from the heartbeats unless its key is in the list; the MongoDB list is a set
of the copied nodes. -/
def saveLeague (otprnHash : Hash) (enode : Bytes) : FairnodeDB :=
  let list := db.leagueNodes otprnHash
  let node := db.nodeOf enode
  if enode ∈ list.map Prod.fst then db
  else match backend with
    | .mem => { db with leagueList := db.leagueList.insert otprnHash (list ++ [(enode, node)]) }
    | .mongo =>
      if node ∈ list.map Prod.snd then db
      else { db with leagueList := db.leagueList.insert otprnHash (list ++ [(node.enode, node)]) }

def getVoters (votekey : Hash) : List Voter :=
  (db.voteList.lookup votekey).getD []

/-- The memory back end appends; `$addToSet` skips a vote that is there in full. -/
def saveVote (otprn : Hash) (blockNum : ℕ) (vote : Voter) : FairnodeDB :=
  let voteKey := makeVoteKey otprn blockNum
  let list := db.getVoters voteKey
  match backend with
  | .mem => { db with voteList := db.voteList.insert voteKey (list ++ [vote]) }
  | .mongo =>
    if vote ∈ list then db
    else { db with voteList := db.voteList.insert voteKey (list ++ [vote]) }

def getBlock (blockHash : Hash) : Option Header :=
  db.blockChain.find? fun b => b.hash crypto = blockHash

/-- `none` is the memory back end's ErrAlreadyExistBlock, which MongoDB passes over. -/
def saveFinalBlock (block : Header) : Option FairnodeDB :=
  match db.getBlock crypto (block.hash crypto) with
  | some _ => none
  | none => some { db with blockChain := db.blockChain ++ [block] }

/-- The memory back end moves the last block into the place of the removed one. -/
def removeBlock (blockHash : Hash) : FairnodeDB :=
  match backend with
  | .mongo => { db with blockChain := db.blockChain.filter fun b => b.hash crypto ≠ blockHash }
  | .mem =>
    match db.blockChain.findIdx? fun b => b.hash crypto = blockHash, db.blockChain.getLast? with
    | some i, some final => { db with blockChain := (db.blockChain.set i final).dropLast }
    | _, _ => db

theorem getVoters_insert (voteKey key : Hash) (list : List Voter) :
    getVoters { db with voteList := db.voteList.insert voteKey list } key =
      if key = voteKey then list else db.getVoters key := by
  by_cases same : key = voteKey
  · subst same
    simp [getVoters]
  · simp [getVoters, same, AList.lookup_insert_ne]

theorem getVoters_saveVote (otprn : Hash) (blockNum : ℕ)
    (vote : Voter) (key : Hash) :
    (db.saveVote backend otprn blockNum vote).getVoters key =
      if key = makeVoteKey otprn blockNum ∧ ¬ (backend = .mongo ∧ vote ∈ db.getVoters key) then
        db.getVoters key ++ [vote]
      else db.getVoters key := by
  cases backend with
  | mem =>
    simp only [saveVote, getVoters_insert]
    by_cases same : key = makeVoteKey otprn blockNum <;> simp [same]
  | mongo =>
    by_cases present : vote ∈ db.getVoters (makeVoteKey otprn blockNum)
    · simp only [saveVote, if_pos present]
      by_cases same : key = makeVoteKey otprn blockNum <;> simp [same, present]
    · simp only [saveVote, if_neg present, getVoters_insert]
      by_cases same : key = makeVoteKey otprn blockNum <;> simp [same, present]

def Records (otprnHash : Hash) (enode : Bytes) : Prop :=
  enode ∉ (db.leagueNodes otprnHash).map Prod.fst ∧
    ¬ (backend = .mongo ∧ db.nodeOf enode ∈ db.getLeagueList otprnHash)

instance (backend : Backend) (db : FairnodeDB) (otprnHash : Hash) (enode : Bytes) :
    Decidable (db.Records backend otprnHash enode) := inferInstanceAs (Decidable (_ ∧ _))

section

variable (db : FairnodeDB)

theorem getLeagueList_insert (otprnHash hash : Hash)
    (list : List (Bytes × HeartBeat)) :
    getLeagueList { db with leagueList := db.leagueList.insert otprnHash list } hash =
      if hash = otprnHash then list.map Prod.snd else db.getLeagueList hash := by
  by_cases same : hash = otprnHash
  · subst same
    simp [getLeagueList, leagueNodes]
  · simp [getLeagueList, leagueNodes, same, AList.lookup_insert_ne]

theorem getLeagueList_saveLeague (backend : Backend) (otprnHash : Hash)
    (enode : Bytes) (hash : Hash) :
    (db.saveLeague backend otprnHash enode).getLeagueList hash =
      if hash = otprnHash ∧ db.Records backend otprnHash enode then
        db.getLeagueList hash ++ [db.nodeOf enode]
      else db.getLeagueList hash := by
  by_cases keyed : enode ∈ (db.leagueNodes otprnHash).map Prod.fst
  · have stays : ¬ db.Records backend otprnHash enode := fun records => records.1 keyed
    unfold saveLeague
    rw [if_pos keyed, if_neg fun both => stays both.2]
  · unfold saveLeague
    rw [if_neg keyed]
    cases backend with
    | mem =>
      have records : db.Records .mem otprnHash enode := ⟨keyed, by simp⟩
      simp only [records, and_true, getLeagueList_insert]
      by_cases same : hash = otprnHash <;> simp [same, getLeagueList]
    | mongo =>
      by_cases present : db.nodeOf enode ∈ (db.leagueNodes otprnHash).map Prod.snd
      · have stays : ¬ db.Records .mongo otprnHash enode := fun records => records.2 ⟨rfl, present⟩
        simp only [if_pos present, stays, and_false, if_false]
      · have records : db.Records .mongo otprnHash enode := ⟨keyed, fun both => present both.2⟩
        simp only [if_neg present, records, and_true, getLeagueList_insert]
        by_cases same : hash = otprnHash <;> simp [same, getLeagueList]

/-! Each write changes one collection. -/

theorem saveOtprn_frame (crypto : Crypto) (backend : Backend) (otprn : Otprn) :
    ∃ otprnList, db.saveOtprn crypto backend otprn = { db with otprnList } := by
  cases backend with
  | mem => exact ⟨_, rfl⟩
  | mongo =>
    unfold saveOtprn
    dsimp only
    split
    · exact ⟨db.otprnList, rfl⟩
    · exact ⟨_, rfl⟩

theorem saveLeague_frame (backend : Backend) (otprnHash : Hash) (enode : Bytes) :
    ∃ leagueList, db.saveLeague backend otprnHash enode = { db with leagueList } := by
  unfold saveLeague
  dsimp only
  split
  · exact ⟨db.leagueList, rfl⟩
  · cases backend with
    | mem => exact ⟨_, rfl⟩
    | mongo =>
      dsimp only
      split
      · exact ⟨db.leagueList, rfl⟩
      · exact ⟨_, rfl⟩

theorem saveVote_frame (backend : Backend) (otprn : Hash) (blockNum : ℕ)
    (vote : Voter) : ∃ voteList, db.saveVote backend otprn blockNum vote = { db with voteList } := by
  cases backend with
  | mem => exact ⟨_, rfl⟩
  | mongo =>
    unfold saveVote
    dsimp only
    split
    · exact ⟨db.voteList, rfl⟩
    · exact ⟨_, rfl⟩

theorem saveFinalBlock_frame (crypto : Crypto) (block : Header) :
    ∃ blockChain, (db.saveFinalBlock crypto block).getD db = { db with blockChain } := by
  unfold saveFinalBlock
  split
  · exact ⟨db.blockChain, rfl⟩
  · exact ⟨_, rfl⟩

theorem saveFinalBlock_appends (crypto : Crypto) (block : Header) :
    ∃ more, ((db.saveFinalBlock crypto block).getD db).blockChain = db.blockChain ++ more := by
  unfold saveFinalBlock
  split
  · exact ⟨[], (append_nil _).symm⟩
  · exact ⟨[block], rfl⟩

theorem removeBlock_frame (crypto : Crypto) (backend : Backend) (blockHash : Hash) :
    ∃ blockChain, db.removeBlock crypto backend blockHash = { db with blockChain } := by
  cases backend with
  | mongo => exact ⟨_, rfl⟩
  | mem =>
    unfold removeBlock
    dsimp only
    split
    · exact ⟨_, rfl⟩
    · exact ⟨db.blockChain, rfl⟩

end

theorem mem_of_currentBlock {backend : Backend} {db : FairnodeDB} {b : Header}
    (current : db.currentBlock backend = some b) : b ∈ db.blockChain := by
  cases backend with
  | mem => exact mem_of_getLast? current
  | mongo => exact argmax_mem current

theorem currentBlock_eq_none {backend : Backend} {db : FairnodeDB} :
    db.currentBlock backend = none ↔ db.blockChain = [] := by
  cases backend with
  | mem => exact getLast?_eq_none_iff
  | mongo => exact argmax_eq_none

end FairnodeDB

end Anduschain
