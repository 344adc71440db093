import Anduschain.BlockImport
import Mathlib.Data.List.Infix

/-! Errors of execution on the two import paths: whether a block that fails in `Process` or
`ValidateState` is written nevertheless, and what becomes of an error of `Finalize`. -/
namespace Anduschain
open ByteOrder CheckedSteps List

section Log
variable {σ : Type} {env : ImportEnv σ} {n : Node σ}

def Node.since (n after : Node σ) : List Write := after.log.drop n.log.length

theorem writeAll_log (ws : List Write) (n : Node σ) : (n.writeAll ws).log = n.log ++ ws := by
  induction ws generalizing n with
  | nil => simp [Node.writeAll]
  | cons w ws ih =>
    change ((n.write w).writeAll ws).log = _
    rw [ih]
    simp [Node.write]

def Node.Extends (n after : Node σ) : Prop := n.log <+: after.log

theorem Node.Extends.refl (n : Node σ) : n.Extends n := prefix_rfl

theorem Node.Extends.trans {n₁ n₂ n₃ : Node σ} (first : n₁.Extends n₂) (second : n₂.Extends n₃) :
    n₁.Extends n₃ := List.IsPrefix.trans first second

theorem write_extends (n : Node σ) (w : Write) : n.Extends (n.write w) := prefix_append _ _

theorem writeAll_extends (n : Node σ) (ws : List Write) : n.Extends (n.writeAll ws) := by
  rw [Node.Extends, writeAll_log]
  exact prefix_append _ _

theorem insert_extends (n : Node σ) (block : Block) : n.Extends (n.insert env block) := by
  unfold Node.insert
  dsimp only
  split
  · exact (writeAll_extends n _).trans (writeAll_extends _ _)
  · exact writeAll_extends n _

theorem writeTxLookups_extends (n : Node σ) (block : Block) :
    n.Extends (n.writeTxLookups env block) := writeAll_extends n _

theorem reorg_extends {n' : Node σ} {old new : Block} (done : reorg env n old new = .ok n') :
    n.Extends n' := by
  simp only [reorg, bind_eq_ok, pure, Except.pure, Except.ok.injEq] at done
  obtain ⟨⟨oldChain, newChain⟩, -, rfl⟩ := done
  have inserted : ∀ (blocks : List Block) (n : Node σ), n.Extends
      (blocks.foldl (fun n block => (n.insert env block).writeTxLookups env block) n) := by
    intro blocks
    induction blocks with
    | nil => exact fun n => .refl n
    | cons block blocks ih =>
      intro n
      exact ((insert_extends n block).trans (writeTxLookups_extends _ block)).trans (ih _)
  exact (inserted newChain.reverse n).trans (writeAll_extends _ _)

theorem storeBlock_log (n : Node σ) (block : Block) (externTd : ℕ) (state : StateDB) :
    n.log ++ [.td (block.hash env.crypto) block.numberU64 externTd,
      .block (block.hash env.crypto) block, .state (env.stateRoot state) state] <+:
        (n.storeBlock env block externTd state).log := by
  rw [Node.storeBlock, writeAll_log, writeAll_log]
  exact prefix_append _ _

variable {block : Block} {receipts : List Receipt} {state : StateDB} {ptd : ℕ}

theorem writeBlockWithState_extends
    (weighed : n.chain.totalDifficulty block.header.parentHash (block.numberU64 - 1) = some ptd) :
    (n.storeBlock env block (block.header.difficulty + ptd) state).Extends
      (writeBlockWithState env n block receipts state).1 := by
  simp only [writeBlockWithState, weighed]
  split
  · exact .refl _
  split
  · split
    · split
      · exact .refl _
      · rename_i reorganised
        exact (reorg_extends reorganised).trans ((write_extends _ _).trans (insert_extends _ _))
    · exact (write_extends _ _).trans ((writeTxLookups_extends _ _).trans (insert_extends _ _))
  · exact write_extends _ _

theorem since_of_prefix {after : Node σ} {ws : List Write} {w : Write} (written : w ∈ ws)
    (grown : n.log ++ ws <+: after.log) : w ∈ n.since after := by
  obtain ⟨rest, log⟩ := grown
  rw [Node.since, ← log, append_assoc, drop_left]
  exact mem_append_left _ written

theorem writeBlockWithState_stores
    (weighed : n.chain.totalDifficulty block.header.parentHash (block.numberU64 - 1) = some ptd) :
    Write.block (block.hash env.crypto) block ∈
      n.since (writeBlockWithState env n block receipts state).1 := by
  have listed : Write.block (block.hash env.crypto) block ∈
      [.td (block.hash env.crypto) block.numberU64 (block.header.difficulty + ptd),
        .block (block.hash env.crypto) block, .state (env.stateRoot state) state] := by
    simp
  exact since_of_prefix listed
    ((storeBlock_log n block _ state).trans (writeBlockWithState_extends weighed))

end Log

section Execution
variable {σ : Type} {env : ImportEnv σ} {n : Node σ} {block : Block}

/-- How a block comes to be executed: in the loop of `insertChain`, at the node `before`, or in
the worker. -/
inductive Arrival (σ : Type) where
  | insertChain (nested : Node σ → List Block → Node σ × Option ImportError)
      (parents : List Header) (prev : Option Block) (rest : List Block) (before : Node σ)
  | worker (w : Worker)

namespace Arrival

def path : Arrival σ → ImportPath
  | .insertChain .. => .insertChain
  | .worker _ => .worker

def Reaches (env : ImportEnv σ) (block parent : Block) (n : Node σ) : Arrival σ → Prop
  | .insertChain nested parents prev _ before =>
    env.badHashes (block.hash env.crypto) = false ∧ prev.all (· = parent) ∧
      match checkBlock env before parents block with
      | .ok () => n = before
      | .error (.body .knownBlock) =>
        n = before ∧ before.chain.currentBlock.numberU64 < block.numberU64
      | .error (.body .prunedAncestor) => importPruned env nested block before = (n, .ok true)
      | .error _ => False
  | .worker w => w.ready = some block

def engine (env : ImportEnv σ) (block : Block) (n : Node σ) : Arrival σ → σ
  | .insertChain .. => env.engine.setFnFee n.engine block.header.otprn
  | .worker _ => n.engine

def finish (env : ImportEnv σ) (block : Block) (n : Node σ) : Arrival σ → Node σ
  | .insertChain nested parents prev rest before =>
    (insertBlocks env nested parents prev (block :: rest) before).1
  | .worker w => (workerFinalize env w n).1

end Arrival

variable {parent : Block} {outcome : Outcome}

theorem insertBlocks_of_reaches {nested : Node σ → List Block → Node σ × Option ImportError}
    {parents : List Header} {prev : Option Block} {rest : List Block} {before : Node σ}
    (reached : (Arrival.insertChain nested parents prev rest before).Reaches env block parent n) :
    insertBlocks env nested parents prev (block :: rest) before =
      match importBlock env prev block n with
      | (n, .error e) => (n, some e)
      | (n, .ok _) =>
        insertBlocks env nested (parents ++ [block.header]) (some block) rest n := by
  obtain ⟨good, -, checked⟩ := reached
  simp only [insertBlocks, good, Bool.false_eq_true, if_false]
  split at checked
  · rename_i passed
    simp only [passed, checked] <;> rfl
  · rename_i known
    simp only [known, checked.1, if_neg (UInt64.not_le.mpr checked.2)] <;> rfl
  · rename_i pruned
    simp only [pruned, checked] <;> rfl
  · exact checked.elim

theorem executionError_eq_none : executionError env block outcome = none ↔
    outcome.err = none ∧ validateState env block outcome = .ok () := by
  unfold executionError
  cases outcome.err with
  | some e => simp
  | none => cases validateState env block outcome <;> simp

variable {state : StateDB}
  (found : n.chain.getBlock block.header.parentHash (block.numberU64 - 1) = some parent)
  (held : n.chain.states parent.header.root = some state)
include found held

theorem importBlock_of_outcome {prev : Option Block} (consistent : prev.all (· = parent))
    (ran : env.engine.process (env.engine.setFnFee n.engine block.header.otprn) block state =
      some outcome) :
    importBlock env prev block n =
      let n := { n with engine := env.engine.setFnFee n.engine block.header.otprn }
      match executionError env block outcome with
      | some e => (n.report block, .error e)
      | none => writeBlockWithState env n block outcome.receipts outcome.state := by
  have same : prev.or (n.chain.getBlock block.header.parentHash (block.numberU64 - 1)) =
      some parent := by
    cases prev with
    | none => exact found
    | some p => simpa using consistent
  simp only [importBlock, same, held, ran] <;> rfl

theorem workerFinalize_of_outcome {w : Worker} (ready : w.ready = some block)
    (ran : env.engine.process n.engine block state = some outcome) :
    (workerFinalize env w n).1 =
      (writeBlockWithState env n block outcome.receipts outcome.state).1 := by
  simp only [workerFinalize, ready, found, held, ran]

end Execution

section Acceptance
variable {σ : Type} {env : ImportEnv σ} {n : Node σ} {block : Block}

/-- `insertChain` imports the block on its own without an error, and writes it. -/
def Accepted (env : ImportEnv σ) (n : Node σ) (block : Block) : Prop :=
  ∃ depth, (insertChain env depth n [block]).2 = none ∧
    Write.block (block.hash env.crypto) block ∈ n.since (insertChain env depth n [block]).1

variable {td : ℕ} (linked : block.header.parentHash = n.chain.currentBlock.hash env.crypto)
  (numbered : block.numberU64 - 1 = n.chain.currentBlock.numberU64)
  (weighed : n.chain.totalDifficulty (n.chain.currentBlock.hash env.crypto) n.chain.currentBlock.numberU64 = some td)
include linked numbered weighed

theorem writeBlockWithState_on_head {receipts : List Receipt} {state : StateDB} :
    ∃ status, (writeBlockWithState env n block receipts state).2 = .ok status := by
  simp only [writeBlockWithState, linked, numbered, weighed]
  split
  · exact ⟨.canon, by simp⟩
  · exact ⟨.side, rfl⟩

theorem accepted_on_head {state : StateDB} {outcome : Outcome}
    (stored : n.chain.getBlock (n.chain.currentBlock.hash env.crypto)
      n.chain.currentBlock.numberU64 = some n.chain.currentBlock)
    (held : n.chain.states n.chain.currentBlock.header.root = some state)
    (unlisted : env.badHashes (block.hash env.crypto) = false)
    (checked : checkBlock env n [] block = .ok ())
    (ran : env.engine.process (env.engine.setFnFee n.engine block.header.otprn) block state =
      some outcome) (sound : executionError env block outcome = none) : Accepted env n block := by
  have found : n.chain.getBlock block.header.parentHash (block.numberU64 - 1) =
      some n.chain.currentBlock := by rw [linked, numbered, stored]
  have reached : (Arrival.insertChain (insertChain env 0) [] none [] n).Reaches env block
      n.chain.currentBlock n := ⟨unlisted, rfl, by rw [checked]⟩
  have run : insertChain env 1 n [block] =
      match importBlock env none block n with
      | (n, .error e) => (n, some e)
      | (n, .ok _) => (n, none) := insertBlocks_of_reaches reached
  rw [importBlock_of_outcome found held rfl ran] at run
  simp only [sound] at run
  generalize prepared : { n with engine := env.engine.setFnFee n.engine block.header.otprn } = n' at run
  have chain : n'.chain = n.chain := by rw [← prepared]
  have log : n'.log = n.log := by rw [← prepared]
  obtain ⟨status, written⟩ : ∃ status,
      (writeBlockWithState env n' block outcome.receipts outcome.state).2 = .ok status :=
    writeBlockWithState_on_head (by rw [chain, linked]) (by rw [chain, numbered])
      (by rw [chain, weighed])
  have stores : Write.block (block.hash env.crypto) block ∈
      n'.since (writeBlockWithState env n' block outcome.receipts outcome.state).1 :=
    writeBlockWithState_stores (by rw [chain, linked, numbered, weighed])
  refine ⟨1, ?_, ?_⟩
  · rw [run, ← Prod.mk.eta (p := writeBlockWithState env n' block _ _), written]
  · rw [run, ← Prod.mk.eta (p := writeBlockWithState env n' block _ _), written]
    simpa only [Node.since, log] using stores

end Acceptance

def sampleArrival : Arrival Deb :=
  .insertChain (insertChain sampleSetup.env 0) [] none [] (sampleFullNode (soleAccount 9))

theorem sampleFullNode_holds (state : StateDB) :
    (sampleFullNode state).chain.states (sampleGenesis state).header.root = some state := if_pos rfl

section Errors
variable {σ : Type}

/-- A block whose execution fails leaves no block, state or head behind exactly when it comes
through `insertChain`, or when the weight of its parent is unknown: the worker only logs the
error. -/
theorem failed_block_unwritten_iff (env : ImportEnv σ) (arrival : Arrival σ) (block parent : Block)
    (n : Node σ) (state : StateDB) (outcome : Outcome)
    (reached : arrival.Reaches env block parent n)
    (found : n.chain.getBlock block.header.parentHash (block.numberU64 - 1) = some parent)
    (held : n.chain.states parent.header.root = some state)
    (ran : env.engine.process (arrival.engine env block n) block state = some outcome)
    (failed : executionError env block outcome ≠ none) :
    (∀ w ∈ n.since (arrival.finish env block n), w.storing = false) ↔
      arrival.path = .insertChain ∨
        n.chain.totalDifficulty block.header.parentHash (block.numberU64 - 1) = none := by
  obtain ⟨e, error⟩ := Option.ne_none_iff_exists'.mp failed
  cases arrival with
  | insertChain nested parents prev rest before =>
    have finished : (Arrival.insertChain nested parents prev rest before).finish env block n =
        Node.report { n with engine := env.engine.setFnFee n.engine block.header.otprn } block := by
      rw [Arrival.finish, insertBlocks_of_reaches reached,
        importBlock_of_outcome found held reached.2.1 ran]
      simp only [error]
    rw [finished]
    simp [Node.since, Node.report, Arrival.path]
  | worker w =>
    rw [Arrival.finish, workerFinalize_of_outcome found held reached ran]
    simp only [Arrival.path, reduceCtorEq, false_or]
    cases weight : n.chain.totalDifficulty block.header.parentHash (block.numberU64 - 1) with
    | none => simp [writeBlockWithState, weight, Node.since]
    | some ptd =>
      simp only [reduceCtorEq, iff_false]
      intro unwritten
      have written := unwritten _ (writeBlockWithState_stores weight)
      cases written

/-- A block whose state root is off leaves nothing behind on its way through `insertChain`. -/
theorem sampleSpoiled_unwritten :
    ((sampleFullNode (soleAccount 9)).since (sampleArrival.finish sampleSetup.env
      (sampleNext (soleAccount 9) [] 1) (sampleFullNode (soleAccount 9)))).all (!·.storing) := by
  have ran : (sampleOutcome (soleAccount 9) (sampleNext (soleAccount 9) [] 1)).any
      (fun outcome => executionError sampleSetup.env (sampleNext (soleAccount 9) [] 1) outcome ≠ none) =
        true := by decide +kernel
  obtain ⟨outcome, ran, failed⟩ := (Option.any_eq_true _ _).mp ran
  have checked : checkBlock sampleSetup.env (sampleFullNode (soleAccount 9)) []
      (sampleNext (soleAccount 9) [] 1) = .ok () := by decide +kernel
  have reached : sampleArrival.Reaches sampleSetup.env (sampleNext (soleAccount 9) [] 1)
      (sampleGenesis (soleAccount 9)) (sampleFullNode (soleAccount 9)) := ⟨rfl, rfl, by rw [checked]⟩
  have unwritten := (failed_block_unwritten_iff sampleSetup.env sampleArrival
    (sampleNext (soleAccount 9) [] 1) (sampleGenesis (soleAccount 9)) (sampleFullNode (soleAccount 9))
    (soleAccount 9) outcome reached (by decide +kernel) (sampleFullNode_holds _) ran
    (of_decide_eq_true failed)).mpr (.inl rfl)
  rw [all_eq_true]
  intro w member
  rw [unwritten w member]
  rfl

/-- The worker writes the same block, although `ValidateState` returned an error for it. -/
theorem sampleWorker_writes_spoiled :
    ∃ outcome, sampleSetup.env.engine.process (sampleFullNode (soleAccount 9)).engine
        (sampleNext (soleAccount 9) [] 1) (soleAccount 9) = some outcome ∧
      executionError sampleSetup.env (sampleNext (soleAccount 9) [] 1) outcome ≠ none ∧
      ∃ w ∈ (sampleFullNode (soleAccount 9)).since (workerFinalize sampleSetup.env
        { debConfigured := true, finalizing := true, currentNumber := some 1,
          finalBlock := some (sampleNext (soleAccount 9) [] 1) } (sampleFullNode (soleAccount 9))).1,
        w.storing = true := by
  have ran : (sampleSetup.env.engine.process (sampleFullNode (soleAccount 9)).engine
      (sampleNext (soleAccount 9) [] 1) (soleAccount 9)).any
      (fun outcome => executionError sampleSetup.env (sampleNext (soleAccount 9) [] 1) outcome ≠ none) =
        true := by decide +kernel
  obtain ⟨outcome, ran, failed⟩ := (Option.any_eq_true _ _).mp ran
  refine ⟨outcome, ran, of_decide_eq_true failed, ?_⟩
  have written : ((sampleFullNode (soleAccount 9)).since (workerFinalize sampleSetup.env
      { debConfigured := true, finalizing := true, currentNumber := some 1,
        finalBlock := some (sampleNext (soleAccount 9) [] 1) } (sampleFullNode (soleAccount 9))).1).any
      Write.storing = true := by decide +kernel
  simpa only [any_eq_true] using written

theorem Deb.finalize_eq_failed {exec : ExecEnv} {c : Deb} {state left : StateDB} :
    c.finalize exec block state = .failed left ↔
      left = state ∧ exec.chainid ≠ .generalId ∧ exec.chainid ≠ .sideId ∧ block.transactions ≠ [] ∧
        match decodeOtprn (rewardOtprn exec.chainid c.otprn block.header) with
        | none => True
        | some otprn => (exec.reward.setString otprn.data.price.joinTxPrice).isSome ∧
            joinCount block.transactions = 0 ∧ exec.chainid ≠ .dvlpNetId := by
  unfold Deb.finalize changeJoinNonceAndReword
  by_cases exempt : exec.chainid = .generalId ∨ exec.chainid = .sideId
  · rcases exempt with general | side
    · simp [general]
    · simp [side]
  have leagues : exec.chainid ≠ .generalId ∧ exec.chainid ≠ .sideId := not_or.mp exempt
  rw [if_neg exempt]
  by_cases empty : block.transactions = []
  · simp [empty]
  rw [if_neg empty]
  cases decodeOtprn (rewardOtprn exec.chainid c.otprn block.header) with
  | none => simp [orReject, bind, Except.bind, leagues, empty, eq_comm]
  | some otprn =>
    cases price : exec.reward.setString otprn.data.price.joinTxPrice with
    | none => simp [orReject, bind, Except.bind, price]
    | some jtxFee =>
      by_cases joinless : joinCount block.transactions = 0 ∧ exec.chainid ≠ .dvlpNetId
      · simp [orReject, bind, Except.bind, price, rejectIf, chargeJoins_count, joinless, leagues,
          empty, eq_comm]
      · cases rate : exec.reward.setString otprn.data.fnFee with
        | none => simp [orReject, bind, Except.bind, price, rejectIf, chargeJoins_count, joinless, rate]
        | some fnFeeRate =>
          simp [orReject, bind, Except.bind, price, rejectIf, chargeJoins_count, joinless, rate]

/-- An error of `Finalize` is lost: whenever every transaction was applied, `Process` returns
the state as `Finalize` left it and no error, and a node that executes the block rejects or
writes it by `ValidateState` alone. -/
theorem process_loses_finalize_error (env : ImportEnv σ) (block parent : Block) (n : Node σ)
    (state left : StateDB) (outcome : Outcome)
    (found : n.chain.getBlock block.header.parentHash (block.numberU64 - 1) = some parent)
    (held : n.chain.states parent.header.root = some state)
    (applied : env.engine.applyAll (env.engine.setFnFee n.engine block.header.otprn) block.header
      block.transactions state = some outcome)
    (clean : outcome.err = none)
    (failed : env.engine.finalize (env.engine.setFnFee n.engine block.header.otprn) block
      outcome.state = .failed left) :
    env.engine.process (env.engine.setFnFee n.engine block.header.otprn) block state =
        some { outcome with state := left } ∧
      (validateState env block { outcome with state := left } = .ok () →
        importBlock env none block n =
          writeBlockWithState env
            { n with engine := env.engine.setFnFee n.engine block.header.otprn } block
            outcome.receipts left) := by
  have ran : env.engine.process (env.engine.setFnFee n.engine block.header.otprn) block state =
      some { outcome with state := left } := by
    simp only [Engine.process, applied, Option.bind_eq_bind, Option.bind_some, clean, if_true, failed]
    rfl
  refine ⟨ran, fun valid => ?_⟩
  rw [importBlock_of_outcome found held rfl ran]
  have sound : executionError env block { outcome with state := left } = none :=
    executionError_eq_none.mpr ⟨clean, valid⟩
  simp only [sound]

def sampleJoinless : Block := sampleNext (soleAccount 9) [plainTransfer 0 0 0] 0

theorem sampleJoinless_finalize_fails (c : Deb) (state : StateDB) :
    sampleSetup.env.engine.finalize c sampleJoinless state = .failed state := by
  have decoded : decodeOtprn (rewardOtprn sampleSetup.exec.chainid c.otprn sampleJoinless.header) =
      some (sampleOtprn 0xfa) := by
    rw [rewardOtprn_production (by decide)]
    decide +kernel
  have nonempty : sampleJoinless.transactions ≠ [] := cons_ne_nil _ _
  rw [DebSetup.env_finalize, Deb.finalize_eq_failed, decoded]
  refine ⟨rfl, by decide, by decide, nonempty, ?_⟩
  exact ⟨by decide +kernel, by decide, by decide⟩

theorem sampleJoinless_applied :
    ∃ outcome, sampleSetup.env.engine.applyAll (sampleSetup.env.engine.setFnFee
        (sampleFullNode (soleAccount 9)).engine sampleJoinless.header.otprn) sampleJoinless.header
        sampleJoinless.transactions (soleAccount 9) = some outcome ∧ outcome.err = none := by
  have applied : (sampleSetup.env.engine.applyAll (sampleSetup.env.engine.setFnFee
      (sampleFullNode (soleAccount 9)).engine sampleJoinless.header.otprn) sampleJoinless.header
      sampleJoinless.transactions (soleAccount 9)).any (fun outcome => outcome.err = none) = true := by
    decide +kernel
  obtain ⟨outcome, applied, clean⟩ := (Option.any_eq_true _ _).mp applied
  exact ⟨outcome, applied, of_decide_eq_true clean⟩

theorem sampleJoinless_error_lost :
    ∃ outcome, sampleOutcome (soleAccount 9) sampleJoinless = some outcome ∧ outcome.err = none := by
  obtain ⟨outcome, applied, clean⟩ := sampleJoinless_applied
  have lost := process_loses_finalize_error sampleSetup.env sampleJoinless
    (sampleGenesis (soleAccount 9)) (sampleFullNode (soleAccount 9)) (soleAccount 9) outcome.state outcome
    (by decide +kernel) (sampleFullNode_holds _) applied clean (sampleJoinless_finalize_fails _ _)
  exact ⟨_, lost.1, clean⟩

/-- `insertChain` accepts the block for which `Finalize` returns its error. -/
theorem sampleJoinless_accepted :
    Accepted sampleSetup.env (sampleFullNode (soleAccount 9)) sampleJoinless ∧
      ∃ outcome, sampleSetup.env.engine.applyAll (sampleSetup.env.engine.setFnFee
          (sampleFullNode (soleAccount 9)).engine sampleJoinless.header.otprn) sampleJoinless.header
          sampleJoinless.transactions (soleAccount 9) = some outcome ∧ outcome.err = none ∧
        sampleSetup.env.engine.finalize (sampleSetup.env.engine.setFnFee
          (sampleFullNode (soleAccount 9)).engine sampleJoinless.header.otprn) sampleJoinless
          outcome.state = .failed outcome.state := by
  constructor
  · have ran : (sampleOutcome (soleAccount 9) sampleJoinless).any
        (fun outcome => executionError sampleSetup.env sampleJoinless outcome = none) = true := by
      decide +kernel
    obtain ⟨outcome, ran, sound⟩ := (Option.any_eq_true _ _).mp ran
    have weighed : (sampleFullNode (soleAccount 9)).chain.totalDifficulty
        ((sampleGenesis (soleAccount 9)).hash sampleCrypto) 0 = some 1 := by decide +kernel
    exact accepted_on_head (by decide +kernel) (by decide +kernel) weighed (by decide +kernel)
      (sampleFullNode_holds _) rfl (by decide +kernel) ran (of_decide_eq_true sound)
  · obtain ⟨outcome, applied, clean⟩ := sampleJoinless_applied
    exact ⟨outcome, applied, clean, sampleJoinless_finalize_fails _ _⟩

end Errors

end Anduschain
