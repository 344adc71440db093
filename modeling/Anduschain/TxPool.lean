import Anduschain.BlockImport
import Anduschain.FiniteRun
import Anduschain.Prque
import Anduschain.TxList

/-! The transaction pool (core/tx_pool.go): admission, promotion and demotion between the
pending lists and the queue, the limits, the price threshold, and the reset to a new head.
The journal on disk and the event feed are left out. -/
namespace Anduschain
open ByteOrder CheckedSteps

structure TxPoolConfig where
  locals : List Address
  noLocals : Bool
  priceLimit : UInt64
  priceBump : UInt64
  accountSlots : UInt64
  globalSlots : UInt64
  accountQueue : UInt64
  globalQueue : UInt64
  /-- In nanoseconds, as a `time.Duration`. -/
  lifetime : Int64

/-- `sanitize`; an unsigned price limit is never below zero. -/
def TxPoolConfig.sanitize (config : TxPoolConfig) : TxPoolConfig :=
  if config.priceBump < 1 then { config with priceBump := 10 } else config

/-- What a pool asks of its node. A Go map is visited in any order: visit `n` takes the order that
stands for `n`, and so does the clock. -/
structure PoolEnv (σ : Type) where
  chain : ImportEnv σ
  signer : Transaction → Except String Address
  homesteadBlock : Option ℕ
  config : TxPoolConfig
  now : ℕ → ℕ
  accountOrder : ℕ → List Address → List Address
  accountOrder_perm : ∀ n accounts, (accountOrder n accounts).Perm accounts
  txOrder : ℕ → List Transaction → List Transaction
  txOrder_perm : ∀ n txs, (txOrder n txs).Perm txs

abbrev AccountLists := AList fun _ : Address => TxList

structure TxPool where
  config : TxPoolConfig
  gasPrice : ℤ
  currentState : StateDB
  pendingState : Address → UInt64
  currentMaxGas : UInt64
  locals : List Address
  pending : AccountLists
  queue : AccountLists
  /-- Time zero stands for an account without a heartbeat. -/
  beats : Address → ℕ
  all : TxLookup
  priced : TxPricedList
  homestead : Bool
  visits : ℕ

inductive Shelf where
  | pending
  | queue
  deriving DecidableEq

namespace TxPool

variable (pool : TxPool)

def lists : Shelf → AccountLists
  | .pending => pool.pending
  | .queue => pool.queue

def setLists (lists : AccountLists) : Shelf → TxPool
  | .pending => { pool with pending := lists }
  | .queue => { pool with queue := lists }

def setList (shelf : Shelf) (addr : Address) (list : TxList) : TxPool :=
  pool.setLists ((pool.lists shelf).insert addr list) shelf

def deleteList (shelf : Shelf) (addr : Address) : TxPool :=
  pool.setLists ((pool.lists shelf).erase addr) shelf

/-- The list an addition goes to; only pending lists are strict. -/
def openList (shelf : Shelf) (addr : Address) : TxList :=
  ((pool.lists shelf).lookup addr).getD (.new (shelf = .pending))

section Operations
variable {σ : Type} (env : PoolEnv σ) (pool : TxPool)

def hashOf (tx : Transaction) : Hash := tx.hash env.chain.crypto

/-- The sender as the pool takes it after validation, without a look at the error. -/
def senderOf (tx : Transaction) : Address :=
  match env.signer tx with
  | .ok sender => sender
  | .error _ => 0

def live (tx : Transaction) : Bool := (pool.all.lookup (hashOf env tx)).isSome

def isLocal (tx : Transaction) : Bool :=
  match env.signer tx with
  | .ok sender => pool.locals.contains sender
  | .error _ => false

def view : PoolView where
  signer := env.signer
  currentState := pool.currentState
  currentMaxGas := pool.currentMaxGas
  gasPrice := pool.gasPrice
  homestead := pool.homestead

def setPendingNonce (addr : Address) (nonce : UInt64) : TxPool :=
  { pool with pendingState := fun a => if a = addr then nonce else pool.pendingState a }

/-- The account nonce falls back to that of a transaction that is gone. -/
def lowerPendingNonce (addr : Address) (nonce : UInt64) : TxPool :=
  if nonce < pool.pendingState addr then pool.setPendingNonce addr nonce else pool

def setBeat (addr : Address) (time : ℕ) : TxPool :=
  { pool with beats := fun a => if a = addr then time else pool.beats a }

def visit : TxPool := { pool with visits := pool.visits + 1 }

def forget (hash : Hash) : TxPool :=
  let all := pool.all.erase hash
  { pool.visit with
    all
    priced := pool.priced.removed (env.txOrder pool.visits (all.entries.map Sigma.snd)) }

/-- What `removeTx` takes off the tables: the price heap has already lost what is within bound. -/
def unlist (hash : Hash) (outofbound : Bool) : TxPool :=
  if outofbound then pool.forget env hash else { pool with all := pool.all.erase hash }

def forgetAll (txs : List Transaction) : TxPool :=
  txs.foldl (fun pool tx => pool.forget env (hashOf env tx)) pool

def record (tx : Transaction) : TxPool :=
  { pool with all := pool.all.insert (hashOf env tx) tx, priced := pool.priced.put tx }

/-- What follows a successful `Add`: the old transaction goes, and the new one is recorded unless
it is known. -/
def replaced (old : Option Transaction) (tx : Transaction) : TxPool :=
  let pool := pool.forgetAll env old.toList
  if pool.live env tx then pool else pool.record env tx

def enqueueTx (tx : Transaction) : TxPool × Except PoolError Bool :=
  let sender := senderOf env tx
  let list := pool.openList .queue sender
  match list.add tx pool.config.priceBump with
  | none => (pool.setList .queue sender list, .error .replaceUnderpriced)
  | some (old, list) => ((pool.setList .queue sender list).replaced env old tx, .ok old.isSome)

def enqueueAll (txs : List Transaction) : TxPool :=
  txs.foldl (fun pool tx => (pool.enqueueTx env tx).1) pool

def promoteTx (addr : Address) (tx : Transaction) : TxPool × Bool :=
  let list := pool.openList .pending addr
  match list.add tx pool.config.priceBump with
  | none => ((pool.setList .pending addr list).forget env (hashOf env tx), false)
  | some (old, list) =>
    let pool := (pool.setList .pending addr list).replaced env old tx
    let pool := (pool.setBeat addr (env.now pool.visits)).visit
    (pool.setPendingNonce addr (tx.accountNonce + 1), true)

def tidyPending (addr : Address) : TxPool :=
  if (pool.openList .pending addr).empty then (pool.deleteList .pending addr).setBeat addr 0 else pool

def tidyQueue (addr : Address) : TxPool :=
  if (pool.openList .queue addr).empty then pool.deleteList .queue addr else pool

/-- The end of `removeTx`: the transaction is in the queue. -/
def removeQueued (addr : Address) (tx : Transaction) : TxPool :=
  match pool.queue.lookup addr with
  | none => pool
  | some future =>
    (pool.setList .queue addr ((future.remove tx).elim future Prod.snd)).tidyQueue addr

def removeTx (hash : Hash) (outofbound : Bool) : TxPool :=
  match pool.all.lookup hash with
  | none => pool
  | some tx =>
    let addr := senderOf env tx
    let pool := pool.unlist env hash outofbound
    match (pool.pending.lookup addr).bind (·.remove tx) with
    | some (invalids, list) =>
      let pool := (pool.setList .pending addr list).tidyPending addr
      let pool := pool.visit.enqueueAll env (env.txOrder pool.visits invalids)
      pool.lowerPendingNonce addr tx.accountNonce
    | none => pool.removeQueued addr tx

def removeAll (txs : List Transaction) (outofbound : Bool) : TxPool :=
  txs.foldl (fun pool tx => pool.removeTx env (hashOf env tx) outofbound) pool

/-- The room `add` makes in a full pool; nothing when the transaction is itself too cheap. -/
def makeRoom (tx : Transaction) : TxPool × Bool :=
  let slots := pool.config.globalSlots + pool.config.globalQueue
  let count := pool.all.keys.length
  if slots ≤ UInt64.ofNat count then
    let (low, priced) := pool.priced.underpriced (pool.live env) (pool.isLocal env) tx
    if low then ({ pool with priced }, false)
    else
      let (drop, priced) :=
        priced.discard (pool.live env) (pool.isLocal env) (count - (slots - 1).toInt64.toInt)
      ({ pool with priced }.removeAll env drop false, true)
  else (pool, true)

/-- The end of `add`: replaces a pending transaction, or goes to the queue. -/
def insertTx (tx : Transaction) (byLocal : Bool) : TxPool × Except PoolError Bool :=
  let sender := senderOf env tx
  match (pool.pending.lookup sender).filter (·.overlaps tx) with
  | some list =>
    match list.add tx pool.config.priceBump with
    | none => (pool, .error .replaceUnderpriced)
    | some (old, list) =>
      (((pool.setList .pending sender list).forgetAll env old.toList).record env tx, .ok old.isSome)
  | none =>
    match pool.enqueueTx env tx with
    | (pool, .error e) => (pool, .error e)
    | (pool, .ok replaced) =>
      let locals := if byLocal && !pool.locals.contains sender then sender :: pool.locals
        else pool.locals
      ({ pool with locals }, .ok replaced)

/-- `add`; nothing is returned when `validateTx` panics. -/
def add (tx : Transaction) (byLocal : Bool) : Option (TxPool × Except PoolError Bool) :=
  if pool.live env tx then some (pool, .error (.knownTransaction (hashOf env tx)))
  else
    match validateTx (pool.view env) tx with
    | none => none
    | some (.error e) => some (pool, .error e)
    | some (.ok ()) =>
      match pool.makeRoom env tx with
      | (pool, false) => some (pool, .error .underpriced)
      | (pool, true) => some (pool.insertTx env tx byLocal)

def dropOld (shelf : Shelf) (addr : Address) : TxPool :=
  let (old, list) := (pool.openList shelf addr).forward (pool.currentState.getNonce addr)
  (pool.setList shelf addr list).forgetAll env old

/-- Drops what the account or the block cannot pay for. What a strict list loses with it is
returned. -/
def dropUnpayable (shelf : Shelf) (addr : Address) : TxPool × List Transaction :=
  let (drops, invalids, list) :=
    (pool.openList shelf addr).filter (pool.currentState.getBalance addr) pool.currentMaxGas
  ((pool.setList shelf addr list).visit.forgetAll env (env.txOrder pool.visits drops), invalids)

def promoteReady (addr : Address) : TxPool :=
  let (ready, list) := (pool.openList .queue addr).ready (pool.pendingState addr)
  ready.foldl (fun pool tx => (pool.promoteTx env addr tx).1) (pool.setList .queue addr list)

/-- Drops what exceeds the limit of an account that is not local; a limit negative as an `int`
panics. -/
def capQueue (addr : Address) : Option TxPool :=
  if pool.locals.contains addr then some pool
  else if pool.config.accountQueue.toInt64 < 0 then none
  else
    let (excess, list) := (pool.openList .queue addr).cap pool.config.accountQueue.toNat
    some ((pool.setList .queue addr list).forgetAll env excess)

def promoteAccount (addr : Address) : Option TxPool :=
  if (pool.queue.lookup addr).isNone then some pool
  else
    let pool := pool.dropOld env .queue addr
    let (pool, _) := pool.dropUnpayable env .queue addr
    let pool := pool.promoteReady env addr
    (pool.capQueue env addr).map (tidyQueue · addr)

def listLen (lists : AccountLists) (addr : Address) : ℕ := (lists.lookup addr).elim 0 TxList.len

def totalLen (lists : AccountLists) : ℕ := (lists.entries.map fun entry => entry.2.len).sum

/-- An offender loses its last transaction; no list that is shortened is empty. -/
def trim (addr : Address) : TxPool :=
  match pool.pending.lookup addr with
  | none => pool
  | some list =>
    let (drops, list) := list.cap (list.len - 1)
    drops.foldl
      (fun pool tx => (pool.forget env (hashOf env tx)).lowerPendingNonce addr tx.accountNonce)
      (pool.setList .pending addr list)

/-- Shortens all offenders together, while too much is pending and the list of `last` exceeds the
threshold. -/
def equalize (offenders : List Address) (last : Address) (threshold : ℕ) :
    ℕ → TxPool × ℕ → TxPool × ℕ
  | 0, s => s
  | turns + 1, (pool, pending) =>
    if pool.config.globalSlots.toNat < pending ∧ threshold < listLen pool.pending last then
      equalize offenders last threshold turns
        (offenders.foldl (trim env) pool, pending - offenders.length)
    else (pool, pending)

/-- Takes the offenders by the lengths of their lists, and shortens the earlier ones to the next.
-/
def penalize : ℕ → Prque Address → List Address → TxPool × ℕ → List Address × TxPool × ℕ
  | 0, _, offenders, s => (offenders, s)
  | turns + 1, spammers, offenders, (pool, pending) =>
    if pool.config.globalSlots.toNat < pending then
      match spammers.pop with
      | none => (offenders, pool, pending)
      | some (offender, _, spammers) =>
        let threshold := listLen pool.pending offender
        let s := offenders.getLast?.elim (pool, pending) fun last =>
          equalize env offenders last threshold (listLen pool.pending last) (pool, pending)
        penalize turns spammers (offenders ++ [offender]) s
    else (offenders, pool, pending)

def limitPending : TxPool :=
  let pending := totalLen pool.pending
  if pool.config.globalSlots.toNat < pending then
    let spammers := (env.accountOrder pool.visits pool.pending.keys).foldl
      (fun spammers addr =>
        if !pool.locals.contains addr &&
            pool.config.accountSlots.toNat < listLen pool.pending addr then
          spammers.push addr (Int64.ofNat (listLen pool.pending addr))
        else spammers)
      Prque.new
    let (offenders, pool, pending) := penalize env spammers.size spammers [] (pool.visit, pending)
    offenders.getLast?.elim pool fun last =>
      (equalize env offenders last pool.config.accountSlots.toNat (listLen pool.pending last)
        (pool, pending)).1
  else pool

/-- Empties queues in turn until enough is dropped; of the last one only the highest nonces go. -/
def dropQueued : List Address → ℕ → TxPool → TxPool
  | [], _, pool => pool
  | addr :: rest, drop, pool =>
    if drop = 0 then pool
    else
      let txs := (pool.queue.lookup addr).elim [] TxList.flatten
      if txs.length ≤ drop then dropQueued rest (drop - txs.length) (pool.removeAll env txs true)
      else pool.removeAll env (txs.reverse.take drop) true

/-- The accounts with the latest heartbeat lose their queue first. -/
def limitQueue : TxPool :=
  let queued := totalLen pool.queue
  if pool.config.globalQueue.toNat < queued then
    let addresses := (env.accountOrder pool.visits pool.queue.keys).filter
      fun addr => !pool.locals.contains addr
    let sorted := addresses.mergeSort fun a b => pool.beats a ≤ pool.beats b
    dropQueued env sorted.reverse (queued - pool.config.globalQueue.toNat) pool.visit
  else pool

/-- `promoteExecutables`; without accounts it goes over all that have a queue. -/
def promoteExecutables (accounts : Option (List Address)) : Option TxPool := do
  let pool ← FiniteRun.run (promoteAccount env) pool.visit
    (accounts.getD (env.accountOrder pool.visits pool.queue.keys))
  return (pool.limitPending env).limitQueue env

/-- A gap in front of a pending list postpones the whole list. -/
def demoteGapped (addr : Address) : TxPool :=
  let list := pool.openList .pending addr
  if (list.txs.get (pool.currentState.getNonce addr)).isSome then pool
  else
    let (gapped, list) := list.cap 0
    (pool.setList .pending addr list).enqueueAll env gapped

def demoteAccount (addr : Address) : TxPool :=
  if (pool.pending.lookup addr).isNone then pool
  else
    let pool := pool.dropOld env .pending addr
    let (pool, invalids) := pool.dropUnpayable env .pending addr
    let pool := pool.visit.enqueueAll env (env.txOrder pool.visits invalids)
    (pool.demoteGapped env addr).tidyPending addr

def demoteUnexecutables : TxPool :=
  (env.accountOrder pool.visits pool.pending.keys).foldl (demoteAccount env) pool.visit

def addTx (tx : Transaction) (byLocal : Bool) : Option TxPool := do
  match ← pool.add env tx byLocal with
  | (pool, .ok false) => pool.promoteExecutables env (some [senderOf env tx])
  | (pool, _) => return pool

def addEach : List Transaction → Bool → TxPool × List Address → Option (TxPool × List Address)
  | [], _, s => some s
  | tx :: rest, byLocal, (pool, dirty) => do
      match ← pool.add env tx byLocal with
      | (pool, .ok false) => addEach rest byLocal (pool, dirty.insert (senderOf env tx))
      | (pool, _) => addEach rest byLocal (pool, dirty)

def addTxsLocked (txs : List Transaction) (byLocal : Bool) : Option TxPool := do
  let (pool, dirty) ← addEach env txs byLocal (pool, [])
  if dirty.isEmpty then return pool
  else pool.visit.promoteExecutables env (some (env.accountOrder pool.visits dirty))

/-- Why `reset` does not get the transactions to inject again. -/
inductive Stop where
  /-- An ancestor is missing, and `reset` returns. -/
  | unrooted
  /-- A head is missing, or the walk never ends. -/
  | crashed

def descend (bc : BlockChain) (floor : UInt64) : ℕ → Block → Except Stop (List Transaction × Block)
  | turns, block =>
    if block.numberU64 ≤ floor then .ok ([], block)
    else
      match turns with
      | 0 => .error .crashed
      | turns + 1 => do
          let parent ← orReject (bc.getBlock block.header.parentHash (block.numberU64 - 1)) .unrooted
          let (txs, reached) ← descend bc floor turns parent
          return (block.transactions ++ txs, reached)

def meet (bc : BlockChain) : ℕ → Block → Block →
    Except Stop (List Transaction × List Transaction)
  | turns, rem, add =>
    if rem.hash env.chain.crypto = add.hash env.chain.crypto then .ok ([], [])
    else
      match turns with
      | 0 => .error .crashed
      | turns + 1 => do
          let remParent ← orReject (bc.getBlock rem.header.parentHash (rem.numberU64 - 1)) .unrooted
          let addParent ← orReject (bc.getBlock add.header.parentHash (add.numberU64 - 1)) .unrooted
          let (discarded, included) ← meet bc turns remParent addParent
          return (rem.transactions ++ discarded, add.transactions ++ included)

/-- The distance of two heads, computed in `float64`. -/
def reorgDepth (oldNum newNum : UInt64) : ℤ :=
  let float (n : UInt64) := BinaryRounding.roundTo 53 n.toNat
  BinaryRounding.trunc |BinaryRounding.roundTo 53 (float oldNum - float newNum)|

def headNumber (head : Header) : UInt64 := UInt64.ofNat head.number

variable (bc : BlockChain)

def reinjected (oldHead : Option Header) (newHead : Header) : Except Stop (List Transaction) :=
  match oldHead with
  | none => .ok []
  | some oldHead =>
    let oldHash := oldHead.hash env.chain.crypto
    if oldHash = newHead.parentHash then .ok []
    else if 64 < reorgDepth (headNumber oldHead) (headNumber newHead) then .ok []
    else do
      let rem ← orReject (bc.getBlock oldHash (headNumber oldHead)) .crashed
      let add ← orReject (bc.getBlock (newHead.hash env.chain.crypto) (headNumber newHead)) .crashed
      let (above, rem) ← descend bc add.numberU64 rem.numberU64.toNat rem
      let (below, add) ← descend bc rem.numberU64 add.numberU64.toNat add
      let (discarded, included) ← meet env bc (rem.numberU64.toNat + 1) rem add
      return txDifference env.chain (above ++ discarded) (below ++ included)

/-- Every account's nonce follows its last pending transaction. -/
def refreshNonces : Option TxPool :=
  FiniteRun.run (fun (pool : TxPool) entry => entry.2.flatten.getLast?.map fun last =>
      pool.setPendingNonce entry.1 (last.accountNonce + 1))
    pool pool.pending.entries

def reset (oldHead : Option Header) (newHead : Header) : Option TxPool :=
  match reinjected env bc oldHead newHead, bc.states newHead.root with
  | .error .crashed, _ => none
  | .error .unrooted, _ => some pool
  | .ok _, none => some pool
  | .ok reinject, some statedb => do
      let pool := { pool with
        currentState := statedb
        pendingState := statedb.getNonce
        currentMaxGas := newHead.gasLimit }
      let pool ← pool.addTxsLocked env reinject false
      let pool ← (pool.demoteUnexecutables env).refreshNonces
      pool.promoteExecutables env none

def setGasPrice (price : ℤ) : TxPool :=
  let (drop, priced) := pool.priced.cap (pool.live env) (pool.isLocal env) price
  { pool with gasPrice := price, priced }.removeAll env drop false

/-- `UpdateGasPrice`: the price of the OTPRN in the canonical block, as an `int64`. -/
def updateGasPrice (header : Header) : TxPool :=
  let found := do
    let hash ← bc.canonical (headNumber header)
    let block ← bc.getBlock hash (headNumber header)
    decodeOtprn block.header.otprn
  found.elim pool fun otprn => pool.setGasPrice env otprn.data.price.gasPrice.toInt64.toInt

/-- The eviction tick of `loop`; an account without a heartbeat is older than any lifetime. -/
def evict : TxPool :=
  (env.accountOrder pool.visits pool.queue.keys).foldl
    (fun pool addr =>
      if !pool.locals.contains addr && pool.config.lifetime.toInt <
          min ((env.now pool.visits : ℤ) - pool.beats addr) (2 ^ 63 - 1) then
        pool.visit.removeAll env ((pool.queue.lookup addr).elim [] TxList.flatten) true
      else pool.visit)
    pool.visit

def initial : TxPool where
  config := env.config.sanitize
  gasPrice := env.config.priceLimit.toNat
  currentState _ := none
  pendingState _ := 0
  currentMaxGas := 0
  locals := env.config.locals
  pending := ∅
  queue := ∅
  beats _ := 0
  all := ∅
  priced := .new
  homestead := false
  visits := 0

/-- `NewTxPool`; without the state of the head the pool could not validate anything. -/
def newTxPool : Option TxPool :=
  if (bc.states bc.currentBlock.header.root).isSome then
    (initial env).reset env bc none bc.currentBlock.header
  else none

/-- The entry points of a pool. A new head resets it and then updates the price; other calls may
come between. -/
inductive Call where
  | addLocal (tx : Transaction)
  | addRemote (tx : Transaction)
  | addLocals (txs : List Transaction)
  | addRemotes (txs : List Transaction)
  | newHead (bc : BlockChain) (old : Header) (new : Header)
  | updateGasPrice (bc : BlockChain) (header : Header)
  | setGasPrice (price : ℤ)
  | evict

def step : Call → Option TxPool
  | .addLocal tx => pool.addTx env tx (!pool.config.noLocals)
  | .addRemote tx => pool.addTx env tx false
  | .addLocals txs => pool.addTxsLocked env txs (!pool.config.noLocals)
  | .addRemotes txs => pool.addTxsLocked env txs false
  | .newHead bc old new =>
    let homestead := pool.homestead || isForked env.homesteadBlock new.number
    { pool with homestead }.reset env bc (some old) new
  | .updateGasPrice bc header => some (pool.updateGasPrice env bc header)
  | .setGasPrice price => some (pool.setGasPrice env price)
  | .evict => some (pool.evict env)

def Reachable : Prop :=
  ∃ bc start calls, newTxPool env bc = some start ∧ FiniteRun.run (step env) start calls = some pool

end Operations
end TxPool

end Anduschain
