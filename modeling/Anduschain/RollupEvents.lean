import Anduschain.BatchHeader
import Anduschain.RollupChunk
import Anduschain.WriteLog

/-! The rollup event loop (rollup_sync_service.go) over the accessors of core/rawdb: commit,
revert and finalize events become database writes, and a loop that was cut off is run again on
the whole list. -/
namespace Anduschain.Rollup
open ByteOrder Anduschain.Types GoCall WriteLog List

structure FinalizedBatchMeta where
  batchHash : Hash := 0
  totalL1MessagePopped : UInt64 := 0
  stateRoot : Hash := 0
  withdrawRoot : Hash := 0

inductive EventKey where
  | batchChunkRanges (batchIndex : UInt64)
  | batchMeta (batchIndex : UInt64)
  | finalizedL2BlockNumber
  | rollupEventSyncedL1BlockNumber
  deriving DecidableEq

inductive EventValue where
  | ranges (chunkBlockRanges : List ChunkBlockRange)
  | batch (finalized : FinalizedBatchMeta)
  | number (n : UInt64)

abbrev EventDb := EventKey → Option EventValue

abbrev EventWrite := EventKey × Option EventValue

variable (node : LocalNode) (db : EventDb)

def readBatchChunkRanges (batchIndex : UInt64) : List ChunkBlockRange :=
  match db (.batchChunkRanges batchIndex) with
  | some (.ranges chunkBlockRanges) => chunkBlockRanges
  | _ => []

/-- A batch that is not there is a nil pointer. -/
def readFinalizedBatchMeta (batchIndex : UInt64) : Option FinalizedBatchMeta :=
  match db (.batchMeta batchIndex) with
  | some (.batch finalized) => some finalized
  | _ => none

inductive RollupEvent where
  | commit (batchIndex : UInt64) (txHash : Hash)
  | revert (batchIndex : UInt64)
  | finalize (batchIndex : UInt64) (batchHash stateRoot withdrawRoot : Hash)

inductive BatchError where
  | client (err : String)
  | rollup (e : RollupError)
  | emptyRanges
  | notSynced (want got : UInt64)
  | missingBlock
  | missingState
  | noChunks
  | emptyStartChunk
  | emptyEndChunk
  | stateRoot
  | withdrawRoot
  | batchHash

/-- An error is returned; the nil pointer of a missing parent is dereferenced. -/
inductive Stop where
  | error (e : BatchError)
  | missingParent

/-- What the loop asks for: the chunks in a commit transaction's call data, the blocks of the
local chain and the withdraw root in a state. -/
structure LocalNode where
  crypto : Crypto
  commitChunks : Hash → Except String (List Bytes)
  currentBlock : UInt64
  getBlockByNumber : UInt64 → Option (Header × List TxData)
  readWTRSlot : Hash → Option Hash

section Loop
variable (node : LocalNode)

def getChunkRanges (batchIndex : UInt64) (txHash : Hash) : GoCall BatchError (List ChunkBlockRange) :=
  if batchIndex = 0 then returns [⟨0, 0⟩]
  else
    match node.commitChunks txHash with
    | .error err => fails (.client err)
    | .ok chunks => (decodeChunkBlockRanges chunks).mapFail .rollup

def loadBlocks (range : ChunkBlockRange) (length : ℕ) :
    ℕ → UInt64 → GoCall BatchError (List WrappedBlock)
  | 0, _ => runs
  | fuel + 1, j =>
    if range.endBlockNumber < j then returns []
    else
      match node.getBlockByNumber j with
      | none => fails .missingBlock
      | some (header, txs) => do
        let txData ← txsToTxsData node.crypto txs
        match node.readWTRSlot header.root with
        | none => fails .missingState
        | some withdrawRoot =>
          if length ≤ (j - range.startBlockNumber).toNat then panics
          else return { header, transactions := txData, withdrawRoot } ::
            (← loadBlocks range length fuel (j + 1))

/-- The slice is made before a block is looked up; a length of more than 2^45 pointers panics. -/
def loadChunk (range : ChunkBlockRange) : GoCall BatchError (List WrappedBlock) :=
  let length := (range.endBlockNumber - range.startBlockNumber + 1).toNat
  if 2 ^ 45 < length then panics else loadBlocks node range length (length + 1) range.startBlockNumber

def loadChunks : List ChunkBlockRange → GoCall BatchError (List (List WrappedBlock))
  | [] => returns []
  | range :: ranges => do
    let chunk ← loadChunk node range
    return chunk :: (← loadChunks ranges)

def getLocalInfoForBatch (db : EventDb) (batchIndex : UInt64) :
    GoCall BatchError (Option FinalizedBatchMeta × List (List WrappedBlock)) :=
  let chunkBlockRanges := readBatchChunkRanges db batchIndex
  match chunkBlockRanges.getLast? with
  | none => fails .emptyRanges
  | some last =>
    if node.currentBlock < last.endBlockNumber then
      fails (.notSynced last.endBlockNumber node.currentBlock)
    else do
      let chunks ← loadChunks node chunkBlockRanges
      return (if 0 < batchIndex then readFinalizedBatchMeta db (batchIndex - 1) else some {}, chunks)

end Loop

def BatchHeader.encode (b : BatchHeader) : Bytes :=
  b.version :: beFixed 8 b.batchIndex.toNat ++ beFixed 8 b.l1MessagePopped.toNat ++
    beFixed 8 b.totalL1MessagePopped.toNat ++ hashBytes b.dataHash ++ hashBytes b.parentBatchHash ++
    b.skippedL1MessageBitmap

def endBlockOf (chunks : List (List WrappedBlock)) : GoCall BatchError WrappedBlock :=
  match chunks.head?, chunks.getLast? with
  | some startChunk, some endChunk =>
    if startChunk = [] then fails .emptyStartChunk
    else
      match endChunk.getLast? with
      | none => fails .emptyEndChunk
      | some endBlock => returns endBlock
  | _, _ => fails .noChunks

def checkBatch (crypto : Crypto) (batchIndex : UInt64) (batchHash stateRoot withdrawRoot : Hash)
    (parent : FinalizedBatchMeta) (chunks : List (List WrappedBlock)) (endBlock : WrappedBlock) :
    GoCall BatchError (UInt64 × FinalizedBatchMeta) :=
  if endBlock.header.root ≠ stateRoot then fails .stateRoot
  else if endBlock.withdrawRoot ≠ withdrawRoot then fails .withdrawRoot
  else do
    let batchHeader ← (newBatchHeader crypto 0 batchIndex parent.totalL1MessagePopped parent.batchHash
      chunks).mapFail .rollup
    let localBatchHash := crypto.keccak batchHeader.encode
    if localBatchHash ≠ batchHash then fails .batchHash
    else return (UInt64.ofNat endBlock.header.number, {
      batchHash := localBatchHash
      totalL1MessagePopped := totalPopped parent.totalL1MessagePopped chunks
      stateRoot := endBlock.header.root
      withdrawRoot := endBlock.withdrawRoot })

/-- Every way on from the end block, the logging of a mismatch included, looks into the parent. -/
def validateBatch (crypto : Crypto) (batchIndex : UInt64) (batchHash stateRoot withdrawRoot : Hash)
    (parentBatchMeta : Option FinalizedBatchMeta) (chunks : List (List WrappedBlock)) :
    GoCall Stop (UInt64 × FinalizedBatchMeta) := do
  let endBlock ← (endBlockOf chunks).mapFail .error
  match parentBatchMeta with
  | none => fails .missingParent
  | some parent =>
    (checkBatch crypto batchIndex batchHash stateRoot withdrawRoot parent chunks endBlock).mapFail
      .error

def handle : RollupEvent → GoCall Stop (List EventWrite)
  | .commit batchIndex txHash => do
    let chunkBlockRanges ← (getChunkRanges node batchIndex txHash).mapFail .error
    return [(.batchChunkRanges batchIndex, some (.ranges chunkBlockRanges))]
  | .revert batchIndex => returns [(.batchChunkRanges batchIndex, none)]
  | .finalize batchIndex batchHash stateRoot withdrawRoot => do
    let (parentBatchMeta, chunks) ← (getLocalInfoForBatch node db batchIndex).mapFail .error
    let (endBlock, finalized) ← validateBatch node.crypto batchIndex batchHash stateRoot withdrawRoot
      parentBatchMeta chunks
    return [(.finalizedL2BlockNumber, some (.number endBlock)),
      (.batchMeta batchIndex, some (.batch finalized))]

namespace RollupEvent

def ranged : RollupEvent → Option UInt64
  | commit batchIndex _ | revert batchIndex => some batchIndex
  | finalize .. => none

def finalizes : RollupEvent → Option UInt64
  | finalize batchIndex .. => some batchIndex
  | _ => none

def reads : RollupEvent → Set EventKey
  | finalize batchIndex .. =>
    {k | k = .batchChunkRanges batchIndex ∨ 0 < batchIndex ∧ k = .batchMeta (batchIndex - 1)}
  | _ => ∅

def writes (event : RollupEvent) : Set EventKey :=
  {k | (∃ i, event.ranged = some i ∧ k = .batchChunkRanges i) ∨
    ∃ i, event.finalizes = some i ∧ (k = .finalizedL2BlockNumber ∨ k = .batchMeta i)}

theorem mem_writes_ranges {event : RollupEvent} {i : UInt64} :
    .batchChunkRanges i ∈ event.writes ↔ event.ranged = some i := by
  simp [writes]

theorem mem_writes_batchMeta {event : RollupEvent} {i : UInt64} :
    .batchMeta i ∈ event.writes ↔ event.finalizes = some i := by
  simp [writes]

end RollupEvent

section Handle
variable {node : LocalNode} {db db' : EventDb} {event : RollupEvent} {ws : List EventWrite}

theorem handle_congr (same : ∀ k ∈ event.reads, db k = db' k) :
    handle node db event = handle node db' event := by
  cases event with
  | commit batchIndex txHash => rfl
  | revert batchIndex => rfl
  | finalize batchIndex batchHash stateRoot withdrawRoot =>
    have ranges : readBatchChunkRanges db batchIndex = readBatchChunkRanges db' batchIndex := by
      rw [readBatchChunkRanges, readBatchChunkRanges, same _ (.inl rfl)]
    have parent : (if 0 < batchIndex then readFinalizedBatchMeta db (batchIndex - 1) else some {}) =
        if 0 < batchIndex then readFinalizedBatchMeta db' (batchIndex - 1) else some {} := by
      split
      · rename_i positive
        rw [readFinalizedBatchMeta, readFinalizedBatchMeta, same _ (.inr ⟨positive, rfl⟩)]
      · rfl
    simp only [handle, getLocalInfoForBatch, ranges, parent]

theorem handle_finalize {batchIndex : UInt64} {batchHash stateRoot withdrawRoot : Hash}
    (ran : handle node db (.finalize batchIndex batchHash stateRoot withdrawRoot) = returns ws) :
    ∃ endBlock finalized, ws = [(.finalizedL2BlockNumber, some (.number endBlock)),
      (.batchMeta batchIndex, some (.batch finalized))] := by
  obtain ⟨⟨parent, chunks⟩, -, ran⟩ := bind_eq_returns.mp ran
  obtain ⟨⟨endBlock, finalized⟩, -, ran⟩ := bind_eq_returns.mp ran
  cases ran
  exact ⟨endBlock, finalized, rfl⟩

theorem handle_ranged {batchIndex : UInt64} (about : event.ranged = some batchIndex)
    (ran : handle node db event = returns ws) :
    ∃ value, ws = [(.batchChunkRanges batchIndex, value)] := by
  cases event with
  | commit i txHash =>
    cases about
    obtain ⟨ranges, -, ran⟩ := bind_eq_returns.mp ran
    cases ran
    exact ⟨_, rfl⟩
  | revert i =>
    cases about
    cases ran
    exact ⟨_, rfl⟩
  | finalize => nomatch about

theorem handle_touches (ran : handle node db event = returns ws) (k : EventKey) :
    (∃ w ∈ ws, w.1 = k) ↔ k ∈ event.writes := by
  cases event with
  | commit i txHash =>
    obtain ⟨value, rfl⟩ := handle_ranged rfl ran
    simp [RollupEvent.writes, RollupEvent.ranged, RollupEvent.finalizes, eq_comm]
  | revert i =>
    obtain ⟨value, rfl⟩ := handle_ranged rfl ran
    simp [RollupEvent.writes, RollupEvent.ranged, RollupEvent.finalizes, eq_comm]
  | finalize i batchHash stateRoot withdrawRoot =>
    obtain ⟨endBlock, finalized, rfl⟩ := handle_finalize ran
    simp [RollupEvent.writes, RollupEvent.ranged, RollupEvent.finalizes, eq_comm]

theorem getLocalInfoForBatch_parent {batchIndex : UInt64} {parent : Option FinalizedBatchMeta}
    {chunks : List (List WrappedBlock)}
    (found : getLocalInfoForBatch node db batchIndex = returns (parent, chunks)) :
    parent = if 0 < batchIndex then readFinalizedBatchMeta db (batchIndex - 1) else some {} := by
  unfold getLocalInfoForBatch at found
  dsimp only at found
  split at found
  · nomatch found
  · split at found
    · nomatch found
    · obtain ⟨loaded, -, found⟩ := bind_eq_returns.mp found
      cases found
      rfl

theorem handle_missing (ran : handle node db event = fails .missingParent) :
    ∃ i, event.finalizes = some i ∧ 0 < i ∧ readFinalizedBatchMeta db (i - 1) = none := by
  have never {α : Type} (x : GoCall BatchError α) : x.mapFail Stop.error ≠ fails .missingParent := by
    intro failed
    obtain ⟨e, -, same⟩ := mapFail_eq_fails.mp failed
    nomatch same
  cases event with
  | commit i txHash =>
    rcases bind_eq_fails.mp ran with failed | ⟨_, -, ran⟩
    · exact absurd failed (never _)
    · nomatch ran
  | revert i => nomatch ran
  | finalize i batchHash stateRoot withdrawRoot =>
    refine ⟨i, rfl, ?_⟩
    rcases bind_eq_fails.mp ran with failed | ⟨⟨parent, chunks⟩, found, ran⟩
    · exact absurd failed (never _)
    rcases bind_eq_fails.mp ran with ran | ⟨_, -, ran⟩
    · rcases bind_eq_fails.mp ran with failed | ⟨endBlock, -, ran⟩
      · exact absurd failed (never _)
      · cases parent with
        | none =>
          have absent := getLocalInfoForBatch_parent (mapFail_eq_returns.mp found)
          split at absent
          · rename_i positive
            exact ⟨positive, absent.symm⟩
          · nomatch absent
        | some parent => exact absurd ran (never _)
    · nomatch ran

theorem handle_finalized {i : UInt64} (ran : handle node db event = returns ws)
    (known : event.finalizes = some i ∨ (readFinalizedBatchMeta db i).isSome) :
    (readFinalizedBatchMeta (applyWrites ws db) i).isSome := by
  by_cases here : event.finalizes = some i
  · cases event with
    | finalize j batchHash stateRoot withdrawRoot =>
      cases here
      obtain ⟨endBlock, finalized, rfl⟩ := handle_finalize ran
      simp [readFinalizedBatchMeta, applyWrites, applyWrite]
    | commit => cases here
    | revert => cases here
  · have other (w : EventWrite) (member : w ∈ ws) : w.1 ≠ .batchMeta i := fun same =>
      here (RollupEvent.mem_writes_batchMeta.mp ((handle_touches ran _).mp ⟨w, member, same⟩))
    rw [readFinalizedBatchMeta, applyWrites_untouched other]
    exact known.resolve_left here

end Handle

def eventStep (event : RollupEvent) : Step EventKey (Option EventValue) Stop where
  run db := handle node db event
  reads := event.reads
  writes := event.writes
  depends _ _ := handle_congr
  touches _ _ := handle_touches

def recordStep (endBlockNumber : UInt64) : Step EventKey (Option EventValue) Stop where
  run _ := returns [(.rollupEventSyncedL1BlockNumber, some (.number endBlockNumber))]
  reads := ∅
  writes := {.rollupEventSyncedL1BlockNumber}
  depends _ _ _ := rfl
  touches s ws ran k := by
    cases ran
    simp [eq_comm]

/-- The writes of the loop in order, and how it ends. -/
def parseAndUpdateRollupEventLogs (endBlockNumber : UInt64)
    (events : List RollupEvent) : EventDb → List EventWrite × GoCall Stop Unit :=
  runAll (events.map (eventStep node) ++ [recordStep endBlockNumber])

/-- What a finalize event reads is written by an event in front of it, or is in the database and
written by none. -/
def Ordered (events : List RollupEvent) : Prop :=
  ∀ pre event post i, events = pre ++ event :: post → event.finalizes = some i →
    ((∃ e ∈ pre, e.ranged = some i) ∨ ∀ e ∈ events, e.ranged ≠ some i) ∧
    (0 < i → (∃ e ∈ pre, e.finalizes = some (i - 1)) ∨
      (readFinalizedBatchMeta db (i - 1)).isSome ∧ ∀ e ∈ events, e.finalizes ≠ some (i - 1))

section Replay
variable {node : LocalNode} {endBlockNumber : UInt64} {start db : EventDb}
  {all pre events : List RollupEvent}

theorem clean_events (ordered : Ordered start all) (split : all = pre ++ events) {keys : Set EventKey}
    (written : ∀ k ∈ keys, (∀ e ∈ pre, k ∉ e.writes) ∧
      ((∃ e ∈ all, k ∈ e.writes) ∨ k = .rollupEventSyncedL1BlockNumber)) :
    Clean (events.map (eventStep node) ++ [recordStep endBlockNumber]) keys := by
  induction events generalizing pre keys with
  | nil => exact ⟨nofun, trivial⟩
  | cons event events ih =>
    have further : all = pre ++ [event] ++ events := by
      simp [split]
    refine ⟨fun k read member => ?_, ih further fun k member => ?_⟩
    · obtain ⟨fresh, some⟩ := written k member
      cases event with
      | commit => exact read
      | revert => exact read
      | finalize i batchHash stateRoot withdrawRoot =>
        obtain ⟨ranges, parent⟩ := ordered pre _ events i split rfl
        rcases read with rfl | ⟨positive, rfl⟩
        · obtain ⟨e, listed, wrote⟩ := some.resolve_right nofun
          rcases ranges with ⟨e', earlier, about⟩ | never
          · exact fresh e' earlier (RollupEvent.mem_writes_ranges.mpr about)
          · exact never e listed (RollupEvent.mem_writes_ranges.mp wrote)
        · obtain ⟨e, listed, wrote⟩ := some.resolve_right nofun
          rcases parent positive with ⟨e', earlier, about⟩ | ⟨-, never⟩
          · exact fresh e' earlier (RollupEvent.mem_writes_batchMeta.mpr about)
          · exact never e listed (RollupEvent.mem_writes_batchMeta.mp wrote)
    · obtain ⟨fresh, some⟩ := written k member.1
      refine ⟨fun e listed => ?_, some⟩
      rcases mem_append.mp listed with old | new
      · exact fresh e old
      · rw [mem_singleton.mp new]
        exact member.2

theorem parent_present (ordered : Ordered start all) (split : all = pre ++ events)
    (present : ∀ i, (∃ e ∈ pre, e.finalizes = some i) ∨ (readFinalizedBatchMeta start i).isSome →
      (readFinalizedBatchMeta db i).isSome) :
    (runAll (events.map (eventStep node) ++ [recordStep endBlockNumber]) db).2 ≠
      fails .missingParent := by
  induction events generalizing pre db with
  | nil => rintro ⟨⟩
  | cons event events ih =>
    rw [map_cons, cons_append, runAll]
    split
    · rename_i ws ran
      have further : all = pre ++ [event] ++ events := by
        simp [split]
      refine ih further fun i known => handle_finalized ran ?_
      rcases known with ⟨e, listed, about⟩ | old
      · rcases mem_append.mp listed with earlier | here
        · exact .inr (present i (.inl ⟨e, earlier, about⟩))
        · exact .inl (mem_singleton.mp here ▸ about)
      · exact .inr (present i (.inr old))
    · rename_i e ran
      intro stopped
      cases stopped
      obtain ⟨i, about, positive, absent⟩ := handle_missing ran
      have known : (readFinalizedBatchMeta db (i - 1)).isSome := present (i - 1) <|
        ((ordered pre event events i split about).2 positive).imp_right And.left
      rw [absent] at known
      cases known
    · rintro ⟨⟩
    · rintro ⟨⟩

end Replay

/-- The loop over ordered events can be cut off after any of its writes and run again: it writes
the same, ends the same way and leaves the same database, and it finds every parent. -/
theorem rollup_events_replayed (node : LocalNode) (endBlockNumber : UInt64) (events : List RollupEvent)
    (db : EventDb) (ordered : Ordered db events) (n : ℕ) :
    let run := parseAndUpdateRollupEventLogs node endBlockNumber events
    let cut := applyWrites ((run db).1.take n) db
    run cut = run db ∧ applyWrites (run cut).1 cut = applyWrites (run db).1 db ∧
      (run db).2 ≠ fails .missingParent := by
  intro run cut
  let steps := events.map (eventStep node) ++ [recordStep endBlockNumber]
  have clean : Clean steps {k | ∃ q ∈ steps, k ∈ q.writes} := by
    refine clean_events ordered (nil_append events).symm ?_
    rintro k ⟨q, listed, wrote⟩
    refine ⟨nofun, ?_⟩
    rcases mem_append.mp listed with mapped | last
    · obtain ⟨e, member, rfl⟩ := mem_map.mp mapped
      exact .inl ⟨e, member, wrote⟩
    · rw [mem_singleton.mp last] at wrote
      exact .inr wrote
  have same : run cut = run db := runAll_replay clean db n
  refine ⟨same, ?_, parent_present ordered (nil_append _).symm fun i known => ?_⟩
  · rw [same]
    exact applyWrites_replay n
  · rcases known with ⟨e, none, -⟩ | known
    · exact absurd none not_mem_nil
    · exact known

def sampleLocalNode (chunk : Bytes) : LocalNode where
  crypto := sampleCrypto
  commitChunks _ := .ok [chunk]
  currentBlock := 0
  getBlockByNumber number := if number = 0 then some (sampleHeader, []) else none
  readWTRSlot _ := some 0

/-- The genesis batch, cut off between its commit and its finalization. -/
theorem sampleGenesisBatch_replayed :
    let run := parseAndUpdateRollupEventLogs (sampleLocalNode []) 9 [.commit 0 7, .finalize 0 0 0 0]
    let db : EventDb := fun _ => none
    run (applyWrites ((run db).1.take 1) db) = run db ∧ (run db).2 ≠ fails .missingParent := by
  have ordered : Ordered (fun _ => none) [.commit 0 7, .finalize 0 0 0 0] := by
    intro pre event post i split about
    rcases pre with _ | ⟨first, _ | ⟨second, rest⟩⟩
    · cases split
      nomatch about
    · cases split
      cases about
      exact ⟨.inl ⟨_, mem_cons_self, rfl⟩, fun positive => absurd positive (by decide)⟩
    · simp at split
  obtain ⟨same, -, found⟩ := rollup_events_replayed (sampleLocalNode []) 9 _ _ ordered 1
  exact ⟨same, found⟩

/-- Batch 2 is committed and finalized where batch 1 never was: its parent is dereferenced. -/
theorem sampleOrphan_dereferenced :
    (parseAndUpdateRollupEventLogs (sampleLocalNode (1 :: List.replicate 60 0)) 9
      [.commit 2 7, .finalize 2 0 0 0] fun _ => none).2 = fails .missingParent := by
  rfl

end Anduschain.Rollup
