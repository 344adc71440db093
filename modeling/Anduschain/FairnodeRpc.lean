import Anduschain.FairnodeDatabase
import Anduschain.HeaderVerification

/-! The checks of the fairnode's RPC handlers (fairnode/rpc_server.go). A handler
reads the database and the league it looked up; what it then writes to the
database is returned, since the write is a database operation of its own. -/
namespace Anduschain
open ByteOrder CheckedSteps

inductive FnStatus where
  | pending
  | saveOtprn
  | makeLeague
  | makeJoinTx
  | makeBlock
  | leagueBroadcasting
  | voteStart
  | voteComplete
  | makePendingLeague
  | sendBlock
  | sendBlockWait
  | reqFairnodeSign
  | finalize
  | reject
  | voteCounting
  deriving DecidableEq, Repr

structure League where
  otprn : Otprn
  status : FnStatus
  current : ℕ
  blockHash : Option Hash
  votehash : Option Hash
  deriving DecidableEq

/-- What comes from outside: cryptography, the first draw of `math/rand` for a seed, the
fairnode's address and signature, block decoding and the root of a vote list. -/
structure FairnodeEnv where
  crypto : Crypto
  backend : Backend
  int63 : Int → ℕ
  address : Address
  signHash : Hash → Bytes
  decodeBlock : Bytes → Option Header
  votersHash : List Voter → Hash

structure HeartBeatRequest where
  enode : Bytes
  minerAddress : Bytes
  chainID : Bytes
  nodeVersion : Bytes
  ip : Bytes
  port : Int
  head : Bytes
  sign : Bytes

structure ReqOtprn where
  enode : Bytes
  minerAddress : Bytes
  sign : Bytes

structure VoteRequest where
  header : Bytes
  voterAddress : Bytes
  voterSign : Bytes

structure ReqBlock where
  block : Bytes
  address : Bytes
  sign : Bytes

structure ReqFairnodeSign where
  otprnHash : Bytes
  blockHash : Bytes
  voteHash : Bytes
  address : Bytes
  sign : Bytes

inductive RpcError where
  | parseIP
  | empty (key : String)
  | invalidPort
  | signValidation (e : SignError)
  | nodeVersion (config node : Bytes)
  | noChainConfig
  | headMismatch
  | notActive (enode : Bytes)
  | otprnValidation (e : OtprnError)
  | otprn (e : OtprnError)
  | decodeHeader
  | decodeOtprn
  | decodeBlock
  | noLeague (otprnHash : Hash)
  | noVoteLeague (otprnHash : Hash)
  | blockNumber (current vote : ℕ)
  | difficulty (e : DifficultyError)
  | sendTimeout (status : FnStatus)
  | hashNil
  | blockHash (current req : Hash)
  | voteHash (current req : Hash)
  /-- A panic of the handler, which takes the process down. -/
  | crash
  deriving DecidableEq

/-- The text the handler itself writes, up to the first value it quotes; other errors are passed
on. -/
def RpcError.msg : RpcError → Option String
  | .empty key => some (key ++ " value is empty")
  | .invalidPort => some "invalid port number"
  | .signValidation _ => some "sign validation failed msg="
  | .nodeVersion _ _ => some "node version differnet config="
  | .noChainConfig => some "chain config not exist"
  | .headMismatch => some "head is mismatch"
  | .notActive _ => some "does not exist in active node list addr = "
  | .otprnValidation _ => some "otprn validation failed msg="
  | .noLeague _ => some "this otprn is not matched in league hash="
  | .noVoteLeague _ => some "this vote is not matched in any league hash="
  | .blockNumber _ _ => some "invalid block number current="
  | .sendTimeout _ => some "Block Send Timeout status="
  | .hashNil => some "current league votehash or blockhash is nil"
  | .blockHash _ _ => some "not match current block hash="
  | .voteHash _ _ => some "not match current vote hash="
  | .parseIP | .decodeHeader | .decodeOtprn | .decodeBlock | .otprn _ | .difficulty _ | .crash => none

section Handlers
variable (env : FairnodeEnv) (db : FairnodeDB) (find : Hash → Option League)

def checkSign (sign : Bytes) (fields : List GoValue) (addr : Address) : Except RpcError Unit :=
  (validationSignHash env.crypto sign (rlpHash env.crypto (.list fields)) addr).mapError .signValidation

/-- The digest takes the port as an `int64`, which RLP does not encode. -/
def heartBeatFields (req : HeartBeatRequest) : List GoValue :=
  [.str req.enode, .str req.nodeVersion, .str req.chainID, .str req.minerAddress,
    .int "int64" req.port, .str req.head, .str req.ip]

def headMatches (head : Hash) : Bool :=
  match db.currentInfo env.crypto env.backend with
  | none => true
  | some current =>
    decide (current.hash = head) ||
      match db.getBlock env.crypto head with
      | none => false
      | some block => decide (UInt64.ofNat current.number - UInt64.ofNat block.number = 1)

def heartBeat (peer : Option Bytes) (now : Int) (req : HeartBeatRequest) :
    Except RpcError HeartBeat := do
  let ip ← orReject peer .parseIP
  rejectIf (req.enode = []) (.empty "enode")
  rejectIf (req.chainID = []) (.empty "chainID")
  rejectIf (req.minerAddress = []) (.empty "miner's address")
  rejectIf (req.port < 1025) .invalidPort
  rejectIf (req.nodeVersion = []) (.empty "node version")
  rejectIf (req.head = []) (.empty "head")
  rejectIf (req.sign = []) (.empty "sign")
  checkSign env req.sign (heartBeatFields req) (hexToAddress req.minerAddress)
  let config ← orReject (db.getChainConfig env.crypto env.backend) .noChainConfig
  rejectIf (req.nodeVersion < config.nodeVersion) (.nodeVersion config.nodeVersion req.nodeVersion)
  rejectIf (headMatches env db (hexToHash req.head) = false) .headMismatch
  pure {
    enode := req.enode
    minerAddress := req.minerAddress
    chainID := req.chainID
    nodeVersion := req.nodeVersion
    host := if req.ip = [] then ip else req.ip
    port := req.port
    time := now
    head := hexToHash req.head
    sign := req.sign }

inductive OtprnReply where
  | fail
  | notEligible
  /-- The OTPRN is sent, and the caller's enode goes to `SaveLeague`. -/
  | joined (otprn : Otprn)

def requestOtprn (req : ReqOtprn) : Except RpcError OtprnReply := do
  rejectIf (req.enode = []) (.empty "enode")
  rejectIf (req.minerAddress = []) (.empty "miner's address")
  rejectIf (req.sign = []) (.empty "sign")
  let addr := hexToAddress req.minerAddress
  checkSign env req.sign [.str req.enode, .str req.minerAddress] addr
  rejectIf (req.enode ∉ db.getActiveNode.map HeartBeat.enode) (.notActive req.enode)
  match db.currentOtprn with
  | none => pure .fail
  | some otprn =>
    (otprn.validateSignature env.crypto).mapError .otprnValidation
    match find (otprn.hashOtprn env.crypto) with
    | none => pure .fail
    | some clg =>
      if clg.status ≠ .pending then pure .fail
      else
        let isJoin ← orReject (isJoinOK env.int63 otprn addr) .crash
        pure (if isJoin then .joined otprn else .notEligible)

/-- `Vote`: the OTPRN hash, block number and vote that go to `SaveVote`. The league's
status, its members and earlier votes are not looked at. -/
def vote (req : VoteRequest) : Except RpcError (Hash × ℕ × Voter) := do
  rejectIf (req.voterAddress = []) (.empty "vote address")
  rejectIf (req.header = []) (.empty "header")
  rejectIf (req.voterSign = []) (.empty "vote sign")
  let addr := hexToAddress req.voterAddress
  checkSign env req.voterSign [.bytes req.header, .str req.voterAddress] addr
  let header ← orReject (Anduschain.decodeHeader req.header) .decodeHeader
  let otprn ← orReject (Anduschain.decodeOtprn header.otprn) .decodeOtprn
  (otprn.validateSignature env.crypto).mapError .otprn
  let otprnHash := otprn.hashOtprn env.crypto
  let l ← orReject (find otprnHash) (.noVoteLeague otprnHash)
  rejectIf (UInt64.ofNat l.current + 1 ≠ UInt64.ofNat header.number)
    (.blockNumber l.current header.number)
  (validationDifficulty env.crypto header).mapError .difficulty
  pure (otprnHash, header.number, { header := req.header, voter := addr, voteSign := req.voterSign })

def sealBlock (block : Header) : Header :=
  { block with
    fairnodeSign := env.signHash (sealDigest env.crypto (block.hash env.crypto) block.voteHash) }

/-- `SendBlock`: the block with the fairnode's signature that goes to `SaveFinalBlock`. -/
def sendBlock (req : ReqBlock) : Except RpcError Header := do
  rejectIf (req.address = []) (.empty "address")
  rejectIf (req.block = []) (.empty "block")
  rejectIf (req.sign = []) (.empty "sign")
  checkSign env req.sign [.bytes req.block, .str req.address] (hexToAddress req.address)
  let block ← orReject (env.decodeBlock req.block) .decodeBlock
  let otprn ← orReject (Anduschain.decodeOtprn block.otprn) .decodeOtprn
  let otprnHash := otprn.hashOtprn env.crypto
  let clg ← orReject (find otprnHash) (.noLeague otprnHash)
  rejectIf (clg.status ≠ .sendBlock) (.sendTimeout clg.status)
  let blockHash ← orReject clg.blockHash .crash
  rejectIf (blockHash ≠ block.hash env.crypto) (.blockHash blockHash (block.hash env.crypto))
  let votehash ← orReject clg.votehash .crash
  rejectIf (votehash ≠ block.voteHash) (.voteHash votehash block.voteHash)
  pure (sealBlock env block)

/-- `RequestFairnodeSign`: the block and vote hash that are signed. Unlike `SendBlock`
it does not look at the league's status. -/
def requestFairnodeSign (req : ReqFairnodeSign) : Except RpcError (Hash × Hash) := do
  rejectIf (req.address = []) (.empty "address")
  rejectIf (req.otprnHash = []) (.empty "otprn hash")
  rejectIf (req.blockHash = []) (.empty "block hash")
  rejectIf (req.voteHash = []) (.empty "vote hash")
  rejectIf (req.sign = []) (.empty "sign")
  checkSign env req.sign
    [.bytes req.otprnHash, .bytes req.blockHash, .bytes req.voteHash, .str req.address]
    (hexToAddress req.address)
  let otprnHash := bytesToHash req.otprnHash
  let clg ← orReject (find otprnHash) (.noLeague otprnHash)
  let votehash ← orReject clg.votehash .hashNil
  let blockHash ← orReject clg.blockHash .hashNil
  rejectIf (votehash ≠ bytesToHash req.voteHash) (.voteHash votehash (bytesToHash req.voteHash))
  rejectIf (blockHash ≠ bytesToHash req.blockHash) (.blockHash blockHash (bytesToHash req.blockHash))
  pure (blockHash, votehash)

end Handlers

section Accepted
variable {env : FairnodeEnv} {db : FairnodeDB} {find : Hash → Option League}

theorem vote_ok {req : VoteRequest} {otprnHash : Hash} {number : ℕ} {voter : Voter}
    (accepted : vote env find req = .ok (otprnHash, number, voter)) :
    voter = ⟨req.header, hexToAddress req.voterAddress, req.voterSign⟩ ∧
      ∃ header otprn, decodeHeader req.header = some header ∧
        decodeOtprn header.otprn = some otprn ∧ otprnHash = otprn.hashOtprn env.crypto ∧
        number = header.number := by
  unfold vote at accepted
  simp only [bind_eq_ok, exists_unit, rejectIf_eq_ok, orReject_eq_ok] at accepted
  obtain ⟨-, -, -, -, header, decoded, otprn, otprnDecoded, -, l, -, -, -, result⟩ := accepted
  cases result
  exact ⟨rfl, header, otprn, decoded, otprnDecoded, rfl, rfl⟩

end Accepted

end Anduschain
