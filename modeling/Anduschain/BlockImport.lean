import Anduschain.BlockBody

/-! Importing blocks (core/blockchain.go, core/block_validator.go, miner/worker.go): the two
validators, `WriteBlockWithState` with its reorganisation, `insertChain`, and the finalize
case of the worker. What is written to the database and to the head is logged. -/
namespace Anduschain
open ByteOrder CheckedSteps

/-- The database behind a chain, its heads and its caches; a block is stored under its hash
and number, header and body apart. -/
structure BlockChain where
  headers : Hash → UInt64 → Option Header
  bodies : Hash → UInt64 → Option Body
  totalDifficulty : Hash → UInt64 → Option ℕ
  states : Hash → Option StateDB
  receipts : Hash → UInt64 → Option (List Receipt)
  canonical : UInt64 → Option Hash
  lookups : Hash → Option (Hash × UInt64 × ℕ)
  currentBlock : Block
  currentHeader : Header
  currentFastBlock : Block
  futureBlocks : List Block
  badBlocks : List Block

inductive Write where
  | td (hash : Hash) (number : UInt64) (td : ℕ)
  | block (hash : Hash) (block : Block)
  | state (root : Hash) (state : StateDB)
  /-- The trie collector dropped an old state. -/
  | dropState (root : Hash)
  | receipts (hash : Hash) (number : UInt64) (receipts : List Receipt)
  | canonicalHash (number : UInt64) (hash : Hash)
  | headBlock (block : Block)
  | headHeader (header : Header)
  | headFastBlock (block : Block)
  | txLookup (tx : Hash) (entry : Hash × UInt64 × ℕ)
  | deleteTxLookup (tx : Hash)

def Write.storing : Write → Bool
  | .block .. | .state .. | .headBlock .. => true
  | _ => false

namespace BlockChain

variable (bc : BlockChain)

def apply : Write → BlockChain
  | .td hash number td =>
    { bc with totalDifficulty := fun h n =>
        if h = hash ∧ n = number then some td else bc.totalDifficulty h n }
  | .block hash block =>
    { bc with
      headers := fun h n =>
        if h = hash ∧ n = block.numberU64 then some block.header else bc.headers h n
      bodies := fun h n =>
        if h = hash ∧ n = block.numberU64 then some block.body else bc.bodies h n }
  | .state root state => { bc with states := fun r => if r = root then some state else bc.states r }
  | .dropState root => { bc with states := fun r => if r = root then none else bc.states r }
  | .receipts hash number receipts =>
    { bc with receipts := fun h n =>
        if h = hash ∧ n = number then some receipts else bc.receipts h n }
  | .canonicalHash number hash =>
    { bc with canonical := fun n => if n = number then some hash else bc.canonical n }
  | .headBlock block => { bc with currentBlock := block }
  | .headHeader header => { bc with currentHeader := header }
  | .headFastBlock block => { bc with currentFastBlock := block }
  | .txLookup tx entry => { bc with lookups := fun h => if h = tx then some entry else bc.lookups h }
  | .deleteTxLookup tx => { bc with lookups := fun h => if h = tx then none else bc.lookups h }

def getBlock (hash : Hash) (number : UInt64) : Option Block := do
  let header ← bc.headers hash number
  let body ← bc.bodies hash number
  return Block.withBody header body

def hasBlock (hash : Hash) (number : UInt64) : Bool := (bc.bodies hash number).isSome

def hasBlockAndState (hash : Hash) (number : UInt64) : Bool :=
  (bc.getBlock hash number).any fun block => (bc.states block.header.root).isSome

end BlockChain

inductive Finalized where
  | done (state : StateDB)
  | failed (state : StateDB)
  | panicked

inductive HeaderFault where
  | futureBlock
  | unknownAncestor
  | deb (e : VerifyError)
  | other (reason : String)
  deriving DecidableEq

/-- A consensus engine with the state `σ` it carries along, and the transactions `Process` applies
under its chain's rules. -/
structure Engine (σ : Type) where
  verifyHeader : σ → ChainReader → Header → List Header → Except HeaderFault Unit
  setFnFee : σ → Bytes → σ
  applyAll : σ → Header → List Transaction → StateDB → Option Outcome
  finalize : σ → Block → StateDB → Finalized

/-- `StateProcessor.Process`: what `Finalize` returns is not looked at. -/
def Engine.process {σ : Type} (engine : Engine σ) (c : σ) (block : Block) (parent : StateDB) :
    Option Outcome := do
  let outcome ← engine.applyAll c block.header block.transactions parent
  if outcome.err = none then
    match engine.finalize c block outcome.state with
    | .done state => return { outcome with state }
    | .failed state => return { outcome with state }
    | .panicked => none
  else return outcome

inductive BodyError where
  | knownBlock
  | unknownAncestor
  | prunedAncestor
  | txRoot (hash want : Hash)
  | voteRoot (hash want : Hash)
  deriving DecidableEq

inductive StateError where
  | joinNonce (remote : UInt64)
  | gasUsed (remote used : UInt64)
  | bloom
  | receiptRoot (remote found : Hash)
  | merkleRoot (remote found : Hash)
  deriving DecidableEq

inductive ImportError where
  | nonContiguous
  | blacklistedHash
  | farFuture
  | header (fault : HeaderFault)
  | body (e : BodyError)
  | missingState
  | process (e : TxError)
  | state (e : StateError)
  | unknownAncestor
  | invalidOldChain
  | invalidNewChain
  /-- More nested calls than the model follows. -/
  | nested
  | crashed
  deriving DecidableEq

/-- What an import asks of its node: the engine, the clock, the coin for ties, and the roots the
trie collector drops after a block. -/
structure ImportEnv (σ : Type) where
  crypto : Crypto
  config : NetConfig
  hasher : TrieHasher
  stateRoot : StateDB → Hash
  engine : Engine σ
  badHashes : Hash → Bool
  now : ℕ
  coin : Block → Bool
  collected : BlockChain → Block → List Hash

structure Node (σ : Type) where
  chain : BlockChain
  engine : σ
  log : List Write

inductive WriteStatus where
  | canon
  | side
  deriving DecidableEq

def maxTimeFutureBlocks : ℕ := 30

section Import
variable {σ : Type} (env : ImportEnv σ) (bc : BlockChain) (n : Node σ)

def BlockChain.reader : ChainReader where
  config := env.config
  getHeader hash number := bc.headers hash (UInt64.ofNat number)

def validateBody (block : Block) : Except BodyError Unit := do
  let header := block.header
  let parent := block.numberU64 - 1
  rejectIf (bc.hasBlockAndState (block.hash env.crypto) block.numberU64) .knownBlock
  rejectIf (!bc.hasBlockAndState header.parentHash parent && !bc.hasBlock header.parentHash parent)
    .unknownAncestor
  rejectIf (!bc.hasBlockAndState header.parentHash parent) .prunedAncestor
  rejectIf (txRoot env.hasher block.transactions ≠ header.txHash)
    (.txRoot (txRoot env.hasher block.transactions) header.txHash)
  rejectIf (voteRoot env.hasher block.voters ≠ header.voteHash)
    (.voteRoot (voteRoot env.hasher block.voters) header.voteHash)

/-- `ValidateState`: of the join nonce it only asks that the miner's is zero afterwards. -/
def validateState (block : Block) (outcome : Outcome) : Except StateError Unit := do
  let header := block.header
  rejectIf (outcome.state.getJoinNonce header.coinbase ≠ 0) (.joinNonce header.nonce)
  rejectIf (header.gasUsed ≠ outcome.usedGas) (.gasUsed header.gasUsed outcome.usedGas)
  rejectIf (createBloom env.crypto outcome.receipts ≠ header.bloom) .bloom
  rejectIf (receiptRoot env.hasher outcome.receipts ≠ header.receiptHash)
    (.receiptRoot header.receiptHash (receiptRoot env.hasher outcome.receipts))
  rejectIf (header.root ≠ env.stateRoot outcome.state)
    (.merkleRoot header.root (env.stateRoot outcome.state))

namespace Node

def write (n : Node σ) (w : Write) : Node σ :=
  { n with chain := n.chain.apply w, log := n.log ++ [w] }

def writeAll (n : Node σ) (ws : List Write) : Node σ := ws.foldl write n

def insert (n : Node σ) (block : Block) : Node σ :=
  let hash := block.hash env.crypto
  let head := n.writeAll [.canonicalHash block.numberU64 hash, .headBlock block]
  if n.chain.canonical block.numberU64 ≠ some hash then
    head.writeAll [.headHeader block.header, .headFastBlock block]
  else head

def writeTxLookups (n : Node σ) (block : Block) : Node σ :=
  n.writeAll (block.transactions.mapIdx fun i tx =>
    .txLookup (tx.hash env.crypto) (block.hash env.crypto, block.numberU64, i))

def report (n : Node σ) (block : Block) : Node σ :=
  { n with chain := { n.chain with badBlocks := block :: n.chain.badBlocks } }

def queue (n : Node σ) (block : Block) : Node σ :=
  { n with chain := { n.chain with futureBlocks := block :: n.chain.futureBlocks } }

def unqueue (n : Node σ) (block : Block) : Node σ :=
  { n with chain := { n.chain with
      futureBlocks := n.chain.futureBlocks.filter fun b =>
        b.hash env.crypto ≠ block.hash env.crypto } }

end Node

/-- The blocks from `block` down to the number `target`, which is reached after as many turns
as the numbers differ. -/
def reduceTo (bc : BlockChain) (target : UInt64) : ℕ → Block → Option (List Block × Block)
  | 0, block => if block.numberU64 = target then some ([], block) else none
  | turns + 1, block =>
    if block.numberU64 = target then some ([], block)
    else do
      let parent ← bc.getBlock block.header.parentHash (block.numberU64 - 1)
      let (blocks, reached) ← reduceTo bc target turns parent
      return (block :: blocks, reached)

def commonBlock (bc : BlockChain) : ℕ → Block → Block → Except ImportError (List Block × List Block)
  | turns, old, new =>
    if old.hash env.crypto = new.hash env.crypto then .ok ([], [])
    else
      match turns with
      | 0 => .error .invalidOldChain
      | turns + 1 => do
          let oldParent ← orReject (bc.getBlock old.header.parentHash (old.numberU64 - 1))
            .invalidOldChain
          let newParent ← orReject (bc.getBlock new.header.parentHash (new.numberU64 - 1))
            .invalidNewChain
          let (olds, news) ← commonBlock bc turns oldParent newParent
          return (old :: olds, new :: news)

/-- The blocks `reorg` takes off the canonical chain and those it puts there, newest first. -/
def reorgChains (oldBlock newBlock : Block) :
    Except ImportError (List Block × List Block) := do
  let turns (block : Block) := block.numberU64.toNat
  if newBlock.numberU64 < oldBlock.numberU64 then
    let (above, old) ← orReject (reduceTo bc newBlock.numberU64 (turns oldBlock) oldBlock)
      .invalidOldChain
    let (olds, news) ← commonBlock env bc (turns old + 1) old newBlock
    return (above ++ olds, news)
  else
    let (above, new) ← orReject (reduceTo bc oldBlock.numberU64 (turns newBlock) newBlock)
      .invalidNewChain
    let (olds, news) ← commonBlock env bc (turns oldBlock + 1) oldBlock new
    return (olds, above ++ news)

def txDifference (a b : List Transaction) : List Transaction :=
  a.filter fun tx => (b.map (Transaction.hash env.crypto)).all (· ≠ tx.hash env.crypto)

def reorg (oldBlock newBlock : Block) : Except ImportError (Node σ) := do
  let (oldChain, newChain) ← reorgChains env n.chain oldBlock newBlock
  let n := newChain.reverse.foldl (fun n block => (n.insert env block).writeTxLookups env block) n
  let diff := txDifference env (oldChain.flatMap Block.transactions)
    (newChain.flatMap Block.transactions)
  return n.writeAll (diff.map fun tx => .deleteTxLookup (tx.hash env.crypto))

/-- The fork choice; blocks of equal weight are split by number, then by a coin. -/
def prefers (block current : Block) (externTd localTd : ℕ) : Bool :=
  localTd < externTd ||
    externTd == localTd && (block.numberU64 < current.numberU64 ||
      block.numberU64 == current.numberU64 && env.coin block)

def Node.storeBlock (block : Block) (externTd : ℕ) (state : StateDB) : Node σ :=
  let hash := block.hash env.crypto
  let n := n.writeAll [.td hash block.numberU64 externTd, .block hash block,
    .state (env.stateRoot state) state]
  n.writeAll ((env.collected n.chain block).map .dropState)

def writeBlockWithState (block : Block) (receipts : List Receipt) (state : StateDB) :
    Node σ × Except ImportError WriteStatus :=
  match n.chain.totalDifficulty block.header.parentHash (block.numberU64 - 1) with
  | none => (n, .error .unknownAncestor)
  | some ptd =>
    let current := n.chain.currentBlock
    let externTd := block.header.difficulty + ptd
    let headTd := n.chain.totalDifficulty (current.hash env.crypto) current.numberU64
    let n := n.storeBlock env block externTd state
    let batch := Write.receipts (block.hash env.crypto) block.numberU64 receipts
    match headTd with
    | none => (n, .error .crashed)
    | some localTd =>
      if prefers env block current externTd localTd then
        if block.header.parentHash ≠ current.hash env.crypto then
          match reorg env n current block with
          | .error e => (n, .error e)
          | .ok n => (((n.write batch).insert env block).unqueue env block, .ok .canon)
        else
          let n := (n.write batch).writeTxLookups env block
          ((n.insert env block).unqueue env block, .ok .canon)
      else ((n.write batch).unqueue env block, .ok .side)

def executionError (block : Block) (outcome : Outcome) : Option ImportError :=
  match outcome.err with
  | some e => some (.process e)
  | none =>
    match validateState env block outcome with
    | .error e => some (.state e)
    | .ok () => none

/-- The part of `insertChain` that executes a block on its parent and writes it. -/
def importBlock (prev : Option Block) (block : Block) (n : Node σ) :
    Node σ × Except ImportError WriteStatus :=
  match prev.or (n.chain.getBlock block.header.parentHash (block.numberU64 - 1)) with
  | none => (n, .error .crashed)
  | some parent =>
    match n.chain.states parent.header.root with
    | none => (n, .error .missingState)
    | some state =>
      let n := { n with engine := env.engine.setFnFee n.engine block.header.otprn }
      match env.engine.process n.engine block state with
      | none => (n, .error .crashed)
      | some outcome =>
        match executionError env block outcome with
        | some e => (n.report block, .error e)
        | none => writeBlockWithState env n block outcome.receipts outcome.state

def checkBlock (parents : List Header) (block : Block) : Except ImportError Unit := do
  (env.engine.verifyHeader n.engine (n.chain.reader env) block.header parents).mapError .header
  (validateBody env n.chain block).mapError .body

/-- The blocks without a state from `block` down, oldest first; `none` if they run out. -/
def stateless (bc : BlockChain) : ℕ → Block → Option (List Block)
  | 0, _ => none
  | turns + 1, block =>
    if (bc.states block.header.root).isSome then some []
    else do
      let parent ← bc.getBlock block.header.parentHash (block.numberU64 - 1)
      let blocks ← stateless bc turns parent
      return blocks ++ [block]

/-- A block on a pruned parent: kept without a state while its chain is lighter, else its
ancestors are imported first. The flag asks to go on with the block. -/
def importPruned (nested : Node σ → List Block → Node σ × Option ImportError) (block : Block)
    (n : Node σ) : Node σ × Except ImportError Bool :=
  let bc := n.chain
  let parentTd := bc.totalDifficulty block.header.parentHash (block.numberU64 - 1)
  match bc.totalDifficulty (bc.currentBlock.hash env.crypto) bc.currentBlock.numberU64, parentTd with
  | some localTd, some ptd =>
    let externTd := ptd + block.header.difficulty
    if externTd < localTd then
      let hash := block.hash env.crypto
      (n.writeAll [.td hash block.numberU64 externTd, .block hash block], .ok false)
    else
      match (bc.getBlock block.header.parentHash (block.numberU64 - 1)).bind
          fun parent => stateless bc (parent.numberU64.toNat + 1) parent with
      | none => (n, .error .crashed)
      | some winner =>
        match nested n winner with
        | (n, some e) => (n, .error e)
        | (n, none) => (n, .ok true)
  | _, _ => (n, .error .crashed)

/-- The loop of `insertChain`; `parents` and `prev` are the blocks of the batch before it. -/
def insertBlocks (nested : Node σ → List Block → Node σ × Option ImportError) :
    List Header → Option Block → List Block → Node σ → Node σ × Option ImportError
  | _, _, [], n => (n, none)
  | parents, prev, block :: rest, n =>
    let next := insertBlocks nested (parents ++ [block.header]) (some block) rest
    let run (n : Node σ) :=
      match importBlock env prev block n with
      | (n, .error e) => (n, some e)
      | (n, .ok _) => next n
    let waiting := n.chain.futureBlocks.any fun b => b.hash env.crypto == block.header.parentHash
    if env.badHashes (block.hash env.crypto) then (n.report block, some .blacklistedHash)
    else
      match checkBlock env n parents block with
      | .ok () => run n
      | .error (.body .knownBlock) =>
        if block.numberU64 ≤ n.chain.currentBlock.numberU64 then next n else run n
      | .error (.header .futureBlock) =>
        if env.now + maxTimeFutureBlocks < block.header.time then (n, some .farFuture)
        else next (n.queue block)
      | .error (.body .prunedAncestor) =>
        match importPruned env nested block n with
        | (n, .error e) => (n, some e)
        | (n, .ok true) => run n
        | (n, .ok false) => next n
      | .error e =>
        if (e = .header .unknownAncestor ∨ e = .body .unknownAncestor) ∧ waiting then
          next (n.queue block)
        else (n.report block, some e)

def contiguous : List Block → Bool
  | first :: second :: rest =>
    second.numberU64 == first.numberU64 + 1 && second.header.parentHash == first.hash env.crypto &&
      contiguous (second :: rest)
  | _ => true

/-- `insertChain`, with a bound on how deep calls for pruned ancestors may nest. -/
def insertChain : ℕ → Node σ → List Block → Node σ × Option ImportError
  | 0, n, _ => (n, some .nested)
  | depth + 1, n, chain =>
    if contiguous env chain then insertBlocks env (insertChain depth) [] none chain n
    else (n, some .nonContiguous)

structure Worker where
  debConfigured : Bool
  finalizing : Bool
  finalBlock : Option Block
  currentNumber : Option ℕ

def Worker.ready (w : Worker) : Option Block :=
  if w.debConfigured && !w.finalizing then none
  else w.finalBlock.filter fun block => w.currentNumber == some block.header.number

/-- The finalize case of `resultLoop`: errors of `Process` and `ValidateState` are logged. -/
def workerFinalize (w : Worker) (n : Node σ) : Node σ × Option (Except ImportError WriteStatus) :=
  match w.ready with
  | none => (n, none)
  | some block =>
    match n.chain.getBlock block.header.parentHash (block.numberU64 - 1) with
    | none => (n, some (.error .crashed))
    | some parent =>
      match n.chain.states parent.header.root with
      | none => (n, some (.error .crashed))
      | some state =>
        match env.engine.process n.engine block state with
        | none => (n, some (.error .crashed))
        | some outcome =>
          let (n, written) :=
            writeBlockWithState env n block outcome.receipts outcome.state
          (n, some written)

end Import

/-! The Deb engine as `insertChain` and `Process` see it. -/

def HeaderFault.ofDeb : VerifyError → HeaderFault
  | .futureBlock => .futureBlock
  | .unknownAncestor => .unknownAncestor
  | e => .deb e

variable (state : StateDB) (exec : ExecEnv)

def Deb.finalize (c : Deb) (block : Block) (state : StateDB) : Finalized :=
  match changeJoinNonceAndReword exec.reward exec.chainid c.otprn state block.transactions
      block.header with
  | .ok rewarded =>
    .done (rewarded.finalise (exec.isEIP158 block.header) (rewardDirties exec c.otprn block) [])
  | .error .nilFloat => .panicked
  | .error _ => .failed state

/-- `coinbase` is the engine's own address. -/
def Deb.engine (coinbase : Address) (now : ℕ) : Engine Deb where
  verifyHeader _ chain header parents :=
    (verifyHeader exec.crypto coinbase now chain header parents true).mapError .ofDeb
  setFnFee c o := c.prepare o .insertChain
  applyAll c header txs state := applyTransactions exec c.rate header txs state header.gasLimit 0 []
  finalize c block state := c.finalize exec block state

structure DebSetup where
  exec : ExecEnv
  coinbase : Address
  hasher : TrieHasher
  badHashes : Hash → Bool
  now : ℕ
  coin : Block → Bool
  collected : BlockChain → Block → List Hash

def DebSetup.env (d : DebSetup) : ImportEnv Deb where
  crypto := d.exec.crypto
  config := d.exec.config
  hasher := d.hasher
  stateRoot := d.exec.stateRoot
  engine := Deb.engine d.exec d.coinbase d.now
  badHashes := d.badHashes
  now := d.now
  coin := d.coin
  collected := d.collected

theorem DebSetup.env_finalize (d : DebSetup) (c : Deb) (block : Block) (state : StateDB) :
    d.env.engine.finalize c block state = c.finalize d.exec block state := rfl

theorem Deb.engine_process (coinbase : Address) (now : ℕ) (c : Deb) (block : Block)
    (parent : StateDB) :
    (Deb.engine exec coinbase now).process c block parent = process exec c block parent := by
  unfold Engine.process process
  refine bind_congr fun outcome => ?_
  split
  · simp only [Deb.engine, Deb.finalize, Anduschain.finalize]
    cases changeJoinNonceAndReword exec.reward exec.chainid c.otprn outcome.state
        block.transactions block.header with
    | ok rewarded => rfl
    | error e =>
      cases e
      all_goals rfl
  · rfl

def sampleRoot : Hash :=
  sampleCrypto.keccak ([5, 9, 0xfa].flatMap fun a => beFixed 32 (state.getBalance a).toNat)

def sampleSetup : DebSetup where
  exec := { sampleExec with config := sampleChain.config, stateRoot := sampleRoot }
  coinbase := 1
  hasher := sampleHasher
  badHashes _ := false
  now := 0
  coin _ := false
  collected _ _ := []

def sampleGenesis : Block where
  header := { sampleHeader with root := sampleRoot state }
  transactions := []
  voters := []

def sampleFullNode : Node Deb where
  chain :=
    let genesis := sampleGenesis state
    let at_ {α : Type} (a : α) (hash : Hash) (number : UInt64) : Option α :=
      if hash = genesis.hash sampleCrypto ∧ number = 0 then some a else none
    { headers := at_ genesis.header
      bodies := at_ genesis.body
      totalDifficulty := at_ 1
      states := fun root => if root = genesis.header.root then some state else none
      receipts := at_ []
      canonical := fun number => if number = 0 then some (genesis.hash sampleCrypto) else none
      lookups := fun _ => none
      currentBlock := genesis
      currentHeader := genesis.header
      currentFastBlock := genesis
      futureBlocks := []
      badBlocks := [] }
  engine := { rate := 10, otprn := none }
  log := []

def sampleOutcome (block : Block) : Option Outcome :=
  sampleSetup.env.engine.process
    (sampleSetup.env.engine.setFnFee (sampleFullNode state).engine block.header.otprn) block state

def sampleNext (txs : List Transaction) (spoil : Hash) : Block :=
  let open_ : Header := { sampleHeader with
    parentHash := (sampleGenesis state).hash sampleCrypto
    number := 1
    gasLimit := txGas
    otprn := (sampleOtprn 0xfa).encodeOtprn
    txHash := txRoot sampleHasher txs
    voteHash := voteRoot sampleHasher [] }
  let filled : Header :=
    match sampleOutcome state { header := open_, transactions := txs, voters := [] } with
    | none => open_
    | some outcome => { open_ with
        root := sampleRoot outcome.state ^^^ spoil
        receiptHash := receiptRoot sampleHasher outcome.receipts
        bloom := createBloom sampleCrypto outcome.receipts
        gasUsed := outcome.usedGas
        difficulty := (open_.calcDifficulty sampleCrypto).toNat }
  { header := { filled with
      fairnodeSign :=
        sampleSign (sealDigest sampleCrypto (filled.hash sampleCrypto) filled.voteHash) 0xfa }
    transactions := txs
    voters := [] }

end Anduschain
