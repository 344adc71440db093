import Anduschain.ImportSafety

/-! What a Deb node accepts from a miner: a block drafted on the head with an execution result
written into it passes every check, whatever its nonce and gas limit are and whatever its join
transactions carry. -/
namespace Anduschain
open ByteOrder CheckedSteps List StateDB

/-- Where a block can be put: the head of `n` is stored with `state` and nothing above it, the
coinbase has no pending join nonce, and the issuer of the OTPRN `o` signs. -/
structure Site (d : DebSetup) (n : Node Deb) (state : StateDB) (o : Bytes) (coinbase : Address) :
    Prop where
  stored : n.chain.getBlock (n.chain.currentBlock.hash d.exec.crypto) n.chain.currentBlock.numberU64 =
    some n.chain.currentBlock
  held : n.chain.states n.chain.currentBlock.header.root = some state
  weighed : (n.chain.totalDifficulty (n.chain.currentBlock.hash d.exec.crypto)
    n.chain.currentBlock.numberU64).isSome
  vacant : ∀ hash, n.chain.bodies hash (n.chain.currentBlock.numberU64 + 1) = none
  numbered : n.chain.currentBlock.header.number + 1 < 2 ^ 64
  unlisted : ∀ header : Header, header.number = n.chain.currentBlock.header.number + 1 →
    d.badHashes (header.hash d.exec.crypto) = false
  unforked : d.exec.config.eip150Block ≠ some (n.chain.currentBlock.header.number + 1)
  issued : ∃ otprn, decodeOtprn o = some otprn ∧
    d.exec.crypto.sigToAddr (otprn.hashOtprn d.exec.crypto) otprn.sign = .ok otprn.fnAddr ∧
    ∀ digest, ∃ sign ≠ [], d.exec.crypto.sigToAddr digest sign = .ok otprn.fnAddr
  idle : state.getJoinNonce coinbase = 0

structure Choice where
  otprn : Bytes
  coinbase : Address
  nonce : UInt64
  gasLimit : UInt64
  transactions : List Transaction

namespace Choice

def difficulty (d : DebSetup) (n : Node Deb) (choice : Choice) : ℤ :=
  calcDifficultyDeb d.exec.crypto choice.nonce choice.otprn choice.coinbase
    (n.chain.currentBlock.hash d.exec.crypto)

def draft (d : DebSetup) (n : Node Deb) (choice : Choice) (outcome : Outcome) (sign : Bytes) :
    Block where
  header := {
    parentHash := n.chain.currentBlock.hash d.exec.crypto
    coinbase := choice.coinbase
    root := d.exec.stateRoot outcome.state
    txHash := txRoot d.hasher choice.transactions
    voteHash := voteRoot d.hasher []
    receiptHash := receiptRoot d.hasher outcome.receipts
    bloom := createBloom d.exec.crypto outcome.receipts
    difficulty := (choice.difficulty d n).toNat
    number := n.chain.currentBlock.header.number + 1
    gasLimit := choice.gasLimit
    gasUsed := outcome.usedGas
    time := 0
    extra := []
    nonce := choice.nonce
    otprn := choice.otprn
    fairnodeSign := sign }
  transactions := choice.transactions
  voters := []

end Choice

section Draft
variable {d : DebSetup} {n : Node Deb} {state : StateDB} {choice : Choice} {outcome : Outcome}

theorem draft_numberU64 (sign : Bytes) : (choice.draft d n outcome sign).numberU64 =
    n.chain.currentBlock.numberU64 + 1 := by
  simp [Block.numberU64, Choice.draft, UInt64.ofNat_add]

theorem draft_parent_number (sign : Bytes) : (choice.draft d n outcome sign).numberU64 - 1 =
    n.chain.currentBlock.numberU64 := by
  rw [draft_numberU64, UInt64.add_sub_cancel]

theorem draft_verified (site : Site d n state choice.otprn choice.coinbase)
    (drawn : 0 ≤ choice.difficulty d n) (limit : choice.gasLimit.toNat ≤ maxGasLimit)
    (used : outcome.usedGas ≤ choice.gasLimit) :
    ∃ sign, verifyHeader d.exec.crypto d.coinbase d.now (n.chain.reader d.env)
      (choice.draft d n outcome sign).header [] true = .ok () := by
  obtain ⟨otprn, decoded, issued, signs⟩ := site.issued
  obtain ⟨sign, nonempty, signed⟩ := signs (sealDigest d.exec.crypto
    ((choice.draft d n outcome []).header.hash d.exec.crypto) (voteRoot d.hasher []))
  have stored := site.stored
  simp only [BlockChain.getBlock, Option.bind_eq_bind, Option.bind_eq_some_iff] at stored
  obtain ⟨header, found, body, -, block⟩ := stored
  obtain rfl : header = n.chain.currentBlock.header := congrArg Block.header (Option.some.inj block)
  have low : (n.chain.currentBlock.header.number + 1) % 2 ^ 64 =
      n.chain.currentBlock.header.number + 1 := Nat.mod_eq_of_lt site.numbered
  have known : (n.chain.reader d.env).getHeader (n.chain.currentBlock.hash d.exec.crypto)
      n.chain.currentBlock.header.number = some n.chain.currentBlock.header := found
  have sealed : verifyFairnodeSign d.exec.crypto (choice.draft d n outcome sign).header = .ok () :=
    verifyFairnodeSign_ok.mpr ⟨otprn, decoded, signed⟩
  have cascading : verifyCascadingFields d.exec.crypto (n.chain.reader d.env)
      (choice.draft d n outcome sign).header [] true = .ok () := by
    have parentLow : n.chain.currentBlock.header.number % 2 ^ 64 =
        n.chain.currentBlock.header.number := Nat.mod_eq_of_lt (by have := site.numbered; omega)
    rw [verifyCascadingFields, verifySeal, show (choice.draft d n outcome sign).header.number =
      n.chain.currentBlock.header.number + 1 from rfl, low]
    simp only [Nat.add_sub_cancel, Nat.succ_ne_zero, if_false, isEmpty_nil, if_true, bind_eq_ok,
      exists_unit, orReject_eq_ok, rejectIf_eq_ok, sealed, and_true]
    refine ⟨n.chain.currentBlock.header, known, ?_, not_false, nonempty⟩
    rintro (number | hash)
    · exact number parentLow
    · exact hash rfl
  refine ⟨sign, ?_⟩
  simp only [verifyHeader, bind_eq_ok, exists_unit, orReject_eq_ok, rejectIf_eq_ok, mapError_eq_ok,
    Otprn.validateSignature_ok, verifyForkHashes]
  refine ⟨by simp [Choice.draft], ?_, ?_, by simp [Choice.draft], otprn, decoded, issued, ?_, ?_,
    cascading⟩
  · exact Nat.not_lt.mpr limit
  · exact UInt64.not_lt.mpr used
  · rintro ⟨-, -, wrong⟩
    exact wrong (Int.toNat_of_nonneg drawn)
  · rintro ⟨forked, -⟩
    exact site.unforked forked

theorem draft_validBody (site : Site d n state choice.otprn choice.coinbase) (sign : Bytes) :
    validateBody d.env n.chain (choice.draft d n outcome sign) = .ok () := by
  have unknown (hash : Hash) : n.chain.hasBlockAndState hash
      (choice.draft d n outcome sign).numberU64 = false := by
    rw [draft_numberU64]
    simp [BlockChain.hasBlockAndState, BlockChain.getBlock, site.vacant]
  have parent : n.chain.hasBlockAndState (choice.draft d n outcome sign).header.parentHash
      ((choice.draft d n outcome sign).numberU64 - 1) = true := by
    rw [draft_parent_number]
    have stored := site.stored
    simp only [BlockChain.hasBlockAndState]
    rw [show (choice.draft d n outcome sign).header.parentHash =
      n.chain.currentBlock.hash d.exec.crypto from rfl, stored]
    simp [site.held]
  simp only [validateBody, bind_eq_ok, exists_unit, rejectIf_eq_ok, unknown, parent]
  refine ⟨by simp, by simp, by simp, ?_, ?_⟩
  · exact fun wrong => wrong rfl
  · exact fun wrong => wrong rfl

theorem draft_validState {sign : Bytes} (idle : outcome.state.getJoinNonce choice.coinbase = 0) :
    validateState d.env (choice.draft d n outcome sign) outcome = .ok () := by
  simp only [validateState, bind_eq_ok, exists_unit, rejectIf_eq_ok]
  exact ⟨fun wrong => wrong idle, fun wrong => wrong rfl, fun wrong => wrong rfl,
    fun wrong => wrong rfl, fun wrong => wrong rfl⟩

theorem draft_accepted (site : Site d n state choice.otprn choice.coinbase)
    (drawn : 0 ≤ choice.difficulty d n) (limit : choice.gasLimit.toNat ≤ maxGasLimit)
    (used : outcome.usedGas ≤ choice.gasLimit)
    (ran : ∀ sign, process d.exec (n.engine.prepare choice.otprn .insertChain)
      (choice.draft d n outcome sign) state = some outcome)
    (clean : outcome.err = none) (idle : outcome.state.getJoinNonce choice.coinbase = 0) :
    ∃ sign, Accepted d.env n (choice.draft d n outcome sign) := by
  obtain ⟨sign, verified⟩ := draft_verified site drawn limit used
  obtain ⟨td, weighed⟩ := Option.isSome_iff_exists.mp site.weighed
  refine ⟨sign, accepted_on_head rfl (draft_parent_number sign) weighed site.stored site.held
    (site.unlisted _ rfl) ?_ ((Deb.engine_process ..).trans (ran sign))
    (executionError_eq_none.mpr ⟨clean, draft_validState idle⟩)⟩
  have header : d.env.engine.verifyHeader n.engine (n.chain.reader d.env)
      (choice.draft d n outcome sign).header [] = .ok () := by
    change (verifyHeader _ _ _ _ _ _ _).mapError _ = _
    rw [mapError_eq_ok]
    exact verified
  simp only [checkBlock, bind_eq_ok, exists_unit, mapError_eq_ok]
  exact ⟨header, draft_validBody site sign⟩

end Draft

namespace StateDB
variable {s : StateDB} {a : Address}

section

variable (addr : Address) (zero : s.getJoinNonce a = 0)
include addr zero

theorem joinNonce_put {acc : Account}
    (kept : a = addr → acc.joinNonce = 0) : (s.put addr acc).getJoinNonce a = 0 := by
  by_cases same : a = addr
  · simpa [getJoinNonce, getOrNew, put, same] using kept same
  · simpa [getJoinNonce, getOrNew, put, same] using zero

theorem joinNonce_addBalance (amount : ℤ) : (s.addBalance addr amount).getJoinNonce a = 0 :=
  joinNonce_put addr zero fun same => same ▸ zero

theorem joinNonce_subBalance (amount : ℤ) : (s.subBalance addr amount).getJoinNonce a = 0 :=
  joinNonce_put addr zero fun same => same ▸ zero

theorem joinNonce_setNonce (nonce : UInt64) : (s.setNonce addr nonce).getJoinNonce a = 0 :=
  joinNonce_put addr zero fun same => same ▸ zero

theorem joinNonce_createAccount : (s.createAccount addr).getJoinNonce a = 0 :=
  joinNonce_put addr zero fun _ => rfl

end

theorem joinNonce_transfer (sender recipient : Address) (amount : ℤ) (zero : s.getJoinNonce a = 0) :
    (s.transfer sender recipient amount).getJoinNonce a = 0 :=
  joinNonce_addBalance recipient (joinNonce_subBalance sender zero amount) amount

theorem joinNonce_resetJoinNonce_self (s : StateDB) (a : Address) :
    (s.resetJoinNonce a).getJoinNonce a = 0 := by
  unfold resetJoinNonce
  split
  · simp [getJoinNonce, getOrNew, put]
  · rename_i missing
    simp [getJoinNonce, getOrNew, missing, Account.fresh]

theorem joinNonce_finalise (deleteEmptyObjects : Bool) (dirties suicided : List Address)
    (zero : s.getJoinNonce a = 0) :
    (s.finalise deleteEmptyObjects dirties suicided).getJoinNonce a = 0 := by
  unfold getJoinNonce getOrNew finalise
  cases found : s a with
  | none => simp [Account.fresh]
  | some acc =>
    rw [Option.filter_some]
    split
    · simpa [getJoinNonce, getOrNew, found] using zero
    · rfl

end StateDB

section Empty
variable {exec : ExecEnv} {c : Deb} {state : StateDB} {block : Block}

def emptyReward (exec : ExecEnv) (number : ℕ) (coinbase : Address) (state : StateDB) : StateDB :=
  let deleteEmpty := isForked exec.forks.eip158Block number
  if exec.chainid = .generalId ∨ exec.chainid = .sideId then
    (state.addBalance coinbase (2 * 10 ^ 18)).finalise deleteEmpty [coinbase] []
  else state.finalise deleteEmpty [] []

theorem process_empty (empty : block.transactions = []) :
    process exec c block state = some {
      state := emptyReward exec block.header.number block.header.coinbase state
      receipts := []
      usedGas := 0
      err := none } := by
  rw [process, empty, applyTransactions]
  unfold finalize changeJoinNonceAndReword rewardDirties emptyReward
  by_cases exempt : exec.chainid = .generalId ∨ exec.chainid = .sideId
  · simp [exempt, ExecEnv.isEIP158]
  · simp [exempt, empty, ExecEnv.isEIP158]

theorem emptyReward_idle (number : ℕ) {coinbase : Address}
    (idle : state.getJoinNonce coinbase = 0) :
    (emptyReward exec number coinbase state).getJoinNonce coinbase = 0 := by
  unfold emptyReward
  dsimp only
  split
  · exact joinNonce_finalise _ _ _ (joinNonce_addBalance _ idle _)
  · exact joinNonce_finalise _ _ _ idle

end Empty

def PinnedFields (n : Node Deb) (block : Block) : Prop :=
  ∀ parent state otprn,
    n.chain.getBlock block.header.parentHash (block.numberU64 - 1) = some parent →
    n.chain.states parent.header.root = some state →
    decodeOtprn block.header.otprn = some otprn →
    block.header.nonce = state.getJoinNonce block.header.coinbase ∧
      block.header.gasLimit = otprn.data.price.gasLimit

theorem difficulty_without_draws (d : DebSetup) (n : Node Deb) (o : Bytes) (coinbase : Address)
    (gasLimit : UInt64) (txs : List Transaction) :
    (Choice.mk o coinbase maxUint64 gasLimit txs).difficulty d n = 1 := by
  have turns : asInt64 maxUint64.toNat = -1 := by decide
  simp [Choice.difficulty, calcDifficultyDeb, makeRand, turns, makeRandLoop]

def emptyDraft (d : DebSetup) (n : Node Deb) (state : StateDB) (o : Bytes) (coinbase : Address)
    (nonce gasLimit : UInt64) (sign : Bytes) : Block :=
  (Choice.mk o coinbase nonce gasLimit []).draft d n
    { state := emptyReward d.exec (n.chain.currentBlock.header.number + 1) coinbase state
      receipts := []
      usedGas := 0
      err := none } sign

variable {d : DebSetup} {n : Node Deb} {state : StateDB} {o : Bytes} {coinbase : Address}

theorem emptyDraft_accepted {nonce gasLimit : UInt64} (site : Site d n state o coinbase)
    (limit : gasLimit.toNat ≤ maxGasLimit)
    (drawn : 0 ≤ (Choice.mk o coinbase nonce gasLimit []).difficulty d n) :
    ∃ sign, Accepted d.env n (emptyDraft d n state o coinbase nonce gasLimit sign) :=
  draft_accepted site drawn limit UInt64.zero_le (fun _ => process_empty rfl) rfl
    (emptyReward_idle _ site.idle)

/-- Whatever nonce and gas limit a miner chooses, some block with them is accepted wherever a
block can be put, so no such place pins the two fields. -/
theorem accepted_unpinned (d : DebSetup) (n : Node Deb) (state : StateDB) (o : Bytes)
    (coinbase : Address) (site : Site d n state o coinbase) :
    (∀ nonce gasLimit, gasLimit.toNat ≤ maxGasLimit →
      0 ≤ (Choice.mk o coinbase nonce gasLimit []).difficulty d n →
      ∃ block, Accepted d.env n block ∧ block.header.otprn = o ∧ block.header.coinbase = coinbase ∧
        block.header.nonce = nonce ∧ block.header.gasLimit = gasLimit) ∧
      ¬ ∀ block, Accepted d.env n block → PinnedFields n block := by
  refine ⟨?_, ?_⟩
  · intro nonce gasLimit limit drawn
    obtain ⟨sign, accepted⟩ := emptyDraft_accepted site limit drawn
    exact ⟨_, accepted, rfl, rfl, rfl, rfl⟩
  · intro pinned
    have limit : (0 : UInt64).toNat ≤ maxGasLimit := Nat.zero_le _
    have drawn : 0 ≤ (Choice.mk o coinbase maxUint64 0 []).difficulty d n := by
      rw [difficulty_without_draws]
      decide
    obtain ⟨sign, accepted⟩ := emptyDraft_accepted site limit drawn
    obtain ⟨otprn, decoded, -⟩ := site.issued
    have fixed := (pinned _ accepted n.chain.currentBlock state otprn
      (by rw [emptyDraft, draft_parent_number]; exact site.stored) site.held decoded).1
    have nonce : maxUint64 = state.getJoinNonce coinbase := fixed
    rw [site.idle] at nonce
    exact absurd nonce (by decide)

theorem sampleSign_recovers (digest : Hash) (signer : Address) :
    sampleCrypto.sigToAddr digest (sampleSign digest signer) = .ok signer := by
  have width : (hashBytes digest).length = 32 := beFixed_length ..
  have signerLt : signer.toNat < 256 ^ 20 := signer.isLt
  simp only [sampleCrypto, sampleSign, ← width, take_left, if_true, drop_left]
  rw [bytesToAddress, addressBytes, beNat_beFixed_of_lt signerLt, BitVec.ofNat_toNat,
    BitVec.setWidth_eq]

theorem sampleSite : Site sampleSetup (sampleFullNode (soleAccount 9)) (soleAccount 9)
    (sampleOtprn 0xfa).encodeOtprn 5 where
  stored := by decide +kernel
  held := sampleFullNode_holds _
  weighed := by decide +kernel
  vacant hash := if_neg (by rintro ⟨-, number⟩; revert number; decide)
  numbered := by decide
  unlisted _ _ := rfl
  unforked := by decide
  issued := by
    refine ⟨sampleOtprn 0xfa, by decide +kernel, sampleSign_recovers _ _, ?_⟩
    intro digest
    refine ⟨sampleSign digest 0xfa, ?_, sampleSign_recovers digest 0xfa⟩
    exact append_ne_nil_of_right_ne_nil _ (by decide)
  idle := by decide

theorem sampleSite_unpinned :
    ¬ ∀ block, Accepted sampleSetup.env (sampleFullNode (soleAccount 9)) block →
      PinnedFields (sampleFullNode (soleAccount 9)) block :=
  (accepted_unpinned sampleSetup (sampleFullNode (soleAccount 9)) (soleAccount 9) _ 5 sampleSite).2

/-- A block of the miner 5, who never joined, with the nonce 1 and the gas limit 7, where the
OTPRN names the limit 0. -/
theorem sampleSite_accepts_chosen_fields :
    ∃ block, Accepted sampleSetup.env (sampleFullNode (soleAccount 9)) block ∧
      block.header.coinbase = 5 ∧ (soleAccount 9).getJoinNonce 5 = 0 ∧ block.header.nonce = 1 ∧
      decodeOtprn block.header.otprn = some (sampleOtprn 0xfa) ∧
      (sampleOtprn 0xfa).data.price.gasLimit = 0 ∧ block.header.gasLimit = 7 := by
  have limit : (7 : UInt64).toNat ≤ maxGasLimit := by decide
  have drawn : 0 ≤ (Choice.mk (sampleOtprn 0xfa).encodeOtprn 5 1 7 []).difficulty sampleSetup
      (sampleFullNode (soleAccount 9)) := by decide +kernel
  obtain ⟨sign, accepted⟩ := emptyDraft_accepted sampleSite limit drawn
  have decoded : decodeOtprn (sampleOtprn 0xfa).encodeOtprn = some (sampleOtprn 0xfa) := by
    decide +kernel
  exact ⟨_, accepted, rfl, by decide, rfl, decoded, rfl, rfl⟩

/-- Each join transaction carries its sender's join nonce in the parent's state, the header's
OTPRN and the digest of both, and no sender joins twice. -/
def JoinRule (exec : ExecEnv) (n : Node Deb) (block : Block) : Prop :=
  ∀ parent state,
    n.chain.getBlock block.header.parentHash (block.numberU64 - 1) = some parent →
    n.chain.states parent.header.root = some state →
    (∀ tx ∈ block.transactions, tx.txType = joinTx → ∃ sender,
      exec.signer block.header.number tx = .ok sender ∧
      tx.joinNonce = some (.ok (state.getJoinNonce sender)) ∧
      tx.otprn = some (.ok block.header.otprn) ∧
      tx.payloadHash = some (.ok (hashBytes
        (joinDigest exec.crypto (state.getJoinNonce sender) block.header.otprn sender)))) ∧
    ((block.transactions.filter (·.txType = joinTx)).map (exec.signer block.header.number)).Nodup

def emptyJoin (accountNonce : UInt64) (v r s : ℕ) : Transaction where
  txType := joinTx
  accountNonce
  price := 0
  gasLimit := 0
  recipient := some jtxAddress
  amount := 0
  payload := []
  v
  r
  s

section EmptyJoin
variable {exec : ExecEnv} {header h₁ h₂ : Header} {state : StateDB} {sender : Address}
  {v r s : ℕ} {gp : UInt64}

theorem preCheck_emptyJoin (funds : 0 ≤ state.getBalance sender) :
    preCheck (emptyJoin (state.getNonce sender) v r s) sender state gp =
      .ok (state.subBalance sender 0, gp) := by
  have funded : ¬ state.getBalance sender < 0 := Int.not_lt.mpr funds
  simp [preCheck, buyGas, emptyJoin, rejectIf, funded, bind, Except.bind, pure, Except.pure]

theorem useIntrinsicGas_emptyJoin (nonce : UInt64) :
    useIntrinsicGas exec header (emptyJoin nonce v r s) sender state = .ok 0 := by
  simp [useIntrinsicGas, emptyJoin, intrinsicGas, orReject, rejectIf, bind, Except.bind, pure,
    Except.pure]

section

variable (codeless : state.getCode jtxAddress = [])
include codeless

theorem run_emptyJoin (nonce : UInt64) (header : Header) :
    let opened := if (state jtxAddress).isNone then state.createAccount jtxAddress else state
    let moved := opened.transfer sender jtxAddress (emptyJoin nonce v r s).amount
    exec.run header (emptyJoin nonce v r s)
      { caller := sender, self := jtxAddress, value := (emptyJoin nonce v r s).amount,
        code := moved.getCode jtxAddress, input := (emptyJoin nonce v r s).payload, gas := 0 } moved =
      .idle moved 0 := by
  have ordinary : 8 < jtxAddress.toNat := by decide
  refine run_codeless ?_ ordinary
  dsimp only
  split
  · simp [StateDB.transfer, StateDB.createAccount, getCode_put, Account.fresh]
  · simpa [StateDB.transfer] using codeless

theorem call_emptyJoin_congr (nonce : UInt64) (number : h₁.number = h₂.number) :
    exec.call h₁ (emptyJoin nonce v r s) sender jtxAddress state 0 =
      exec.call h₂ (emptyJoin nonce v r s) sender jtxAddress state 0 := by
  have fork : exec.isEIP158 h₁ = exec.isEIP158 h₂ := by rw [ExecEnv.isEIP158, number]; rfl
  have known : exec.callPrecompiles h₁ = exec.callPrecompiles h₂ := by
    rw [ExecEnv.callPrecompiles, ExecEnv.runPrecompiles, ExecEnv.isByzantium, number]
    rfl
  unfold ExecEnv.call
  rw [fork, known]
  simp only [run_emptyJoin codeless nonce h₁, run_emptyJoin codeless nonce h₂, Frame.idle, if_true]

theorem call_emptyJoin_idle (nonce : UInt64) {a : Address} (zero : state.getJoinNonce a = 0) :
    (exec.call header (emptyJoin nonce v r s) sender jtxAddress state 0).state.getJoinNonce a = 0 := by
  unfold ExecEnv.call
  simp only [run_emptyJoin codeless nonce header, Frame.idle, if_true]
  split
  · exact zero
  split
  · exact zero
  · apply joinNonce_transfer
    split
    · exact joinNonce_createAccount _ zero
    · exact zero

theorem applyTransaction_emptyJoin_congr (rate : ℤ) (number : h₁.number = h₂.number)
    (coinbase : h₁.coinbase = h₂.coinbase) (funds : 0 ≤ state.getBalance sender)
    (signed : exec.signer h₁.number (emptyJoin (state.getNonce sender) v r s) = .ok sender) :
    applyTransaction exec rate h₁ (emptyJoin (state.getNonce sender) v r s) state gp =
      applyTransaction exec rate h₂ (emptyJoin (state.getNonce sender) v r s) state gp := by
  have entered : enterEvm exec h₁ (emptyJoin (state.getNonce sender) v r s) sender
      (state.subBalance sender 0) 0 =
      enterEvm exec h₂ (emptyJoin (state.getNonce sender) v r s) sender
        (state.subBalance sender 0) 0 :=
    call_emptyJoin_congr (by simpa) _ number
  unfold applyTransaction transitionDb
  simp only [← number, signed, preCheck_emptyJoin funds, useIntrinsicGas_emptyJoin, entered,
    settleFee, ExecEnv.beneficiary, coinbase, ExecEnv.isByzantium, ExecEnv.isEIP158]

end

theorem settleFee_emptyJoin (rate : ℤ) (nonce : UInt64) {frame : Frame} (spent : frame.gas = 0)
    (refund : frame.refund = 0) :
    ∃ applied, settleFee exec rate header (emptyJoin nonce v r s) sender frame gp = .done applied ∧
      applied.usedGas = 0 ∧ ∀ a, frame.state.getJoinNonce a = 0 → applied.state.getJoinNonce a = 0 := by
  have limit : (emptyJoin nonce v r s).gasLimit = 0 := rfl
  have left : (0 : UInt64) + (if (0 : UInt64) < (0 - 0) / 2 then 0 else (0 - 0) / 2) = 0 := by decide
  unfold settleFee
  simp only [spent, refund, limit, left, addGas_zero, Option.elim_some]
  refine ⟨_, rfl, UInt64.sub_self 0, fun a zero => ?_⟩
  exact joinNonce_addBalance _ (joinNonce_addBalance _ (joinNonce_addBalance _ zero _) _) _

theorem applyTransaction_emptyJoin (rate : ℤ) (funds : 0 ≤ state.getBalance sender)
    (signed : exec.signer header.number (emptyJoin (state.getNonce sender) v r s) = .ok sender)
    (codeless : state.getCode jtxAddress = []) :
    ∃ applied, applyTransaction exec rate header (emptyJoin (state.getNonce sender) v r s) state gp =
        .done applied ∧ applied.usedGas = 0 ∧
      ∀ a, state.getJoinNonce a = 0 → applied.state.getJoinNonce a = 0 := by
  have quiet : (enterEvm exec header (emptyJoin (state.getNonce sender) v r s) sender
      (state.subBalance sender 0) 0).Quiet (state.subBalance sender 0) 0 :=
    enterEvm_codeless rfl rfl (by simpa) (by simpa) (by decide)
  have idle : ∀ a, state.getJoinNonce a = 0 →
      (enterEvm exec header (emptyJoin (state.getNonce sender) v r s) sender
        (state.subBalance sender 0) 0).state.getJoinNonce a = 0 := by
    intro a zero
    exact call_emptyJoin_idle (by simpa) _ (joinNonce_setNonce _ (joinNonce_subBalance _ zero _) _)
  obtain ⟨settled, done, used, kept⟩ : ∃ applied, settleFee exec rate header
      (emptyJoin (state.getNonce sender) v r s) sender _ gp = .done applied ∧ _ :=
    settleFee_emptyJoin rate _ quiet.gas quiet.refund
  unfold applyTransaction transitionDb
  simp only [signed, preCheck_emptyJoin funds, useIntrinsicGas_emptyJoin, quiet.err, reduceCtorEq,
    if_false, done]
  exact ⟨_, rfl, used, fun a zero => joinNonce_finalise _ _ _ (kept a (idle a zero))⟩

def joinsRewarded (exec : ExecEnv) (o : Bytes) : Bool :=
  (decodeOtprn o).any fun otprn => (exec.reward.setString otprn.data.price.joinTxPrice).isSome &&
    (exec.reward.setString otprn.data.fnFee).isSome

theorem reward_emptyJoin (engineOtprn : Option Otprn) (nonce : UInt64)
    (production : exec.chainid ≠ .dvlpNetId) (payable : joinsRewarded exec header.otprn)
    (idle : state.getJoinNonce header.coinbase = 0) :
    ∃ rewarded, changeJoinNonceAndReword exec.reward exec.chainid engineOtprn state
        [emptyJoin nonce v r s] header = .ok rewarded ∧
      rewarded.getJoinNonce header.coinbase = 0 := by
  obtain ⟨otprn, decoded, prices⟩ := (Option.any_eq_true _ _).mp payable
  rw [Bool.and_eq_true] at prices
  obtain ⟨jtxFee, price⟩ := Option.isSome_iff_exists.mp prices.1
  obtain ⟨fnFeeRate, rate⟩ := Option.isSome_iff_exists.mp prices.2
  unfold changeJoinNonceAndReword
  by_cases exempt : exec.chainid = .generalId ∨ exec.chainid = .sideId
  · rw [if_pos exempt]
    exact ⟨_, rfl, joinNonce_addBalance _ idle _⟩
  · rw [if_neg exempt, if_neg (cons_ne_nil _ _), rewardOtprn_production production]
    have counted : ¬ (joinCount [emptyJoin nonce v r s] = 0 ∧ exec.chainid ≠ .dvlpNetId) := by
      simp [joinCount, emptyJoin]
    simp only [decoded, price, rate, orReject, rejectIf, chargeJoins_count, zero_add, counted, bind,
      Except.bind, if_false]
    exact ⟨_, rfl, joinNonce_resetJoinNonce_self _ _⟩

theorem process_emptyJoin {block : Block} (c : Deb) (production : exec.chainid ≠ .dvlpNetId)
    (payable : joinsRewarded exec block.header.otprn)
    (only : block.transactions = [emptyJoin (state.getNonce sender) v r s])
    (signed : exec.signer block.header.number (emptyJoin (state.getNonce sender) v r s) = .ok sender)
    (funds : 0 ≤ state.getBalance sender) (codeless : state.getCode jtxAddress = [])
    (idle : state.getJoinNonce block.header.coinbase = 0) :
    ∃ outcome, process exec c block state = some outcome ∧ outcome.err = none ∧
      outcome.usedGas = 0 ∧ outcome.state.getJoinNonce block.header.coinbase = 0 := by
  obtain ⟨applied, done, used, kept⟩ : ∃ applied, applyTransaction exec c.rate block.header
      (emptyJoin (state.getNonce sender) v r s) state block.header.gasLimit = .done applied ∧ _ :=
    applyTransaction_emptyJoin c.rate funds signed codeless
  obtain ⟨rewarded, paid, zero⟩ := reward_emptyJoin (v := v) (r := r) (s := s) c.otprn
    (state.getNonce sender) production payable (kept _ idle)
  rw [process, only, applyTransactions]
  simp only [done, applyTransactions, used, finalize, only, paid, Option.bind_eq_bind,
    Option.bind_some, if_true]
  exact ⟨_, rfl, rfl, UInt64.add_zero 0, joinNonce_finalise _ _ _ zero⟩

theorem process_emptyJoin_congr {block₁ block₂ : Block} (c : Deb)
    (number : block₁.header.number = block₂.header.number)
    (coinbase : block₁.header.coinbase = block₂.header.coinbase)
    (gasLimit : block₁.header.gasLimit = block₂.header.gasLimit)
    (otprn : block₁.header.otprn = block₂.header.otprn)
    (only₁ : block₁.transactions = [emptyJoin (state.getNonce sender) v r s])
    (only₂ : block₂.transactions = [emptyJoin (state.getNonce sender) v r s])
    (signed : exec.signer block₁.header.number (emptyJoin (state.getNonce sender) v r s) = .ok sender)
    (funds : 0 ≤ state.getBalance sender) (codeless : state.getCode jtxAddress = []) :
    process exec c block₁ state = process exec c block₂ state := by
  have applied (gp : UInt64) : applyTransaction exec c.rate block₁.header
      (emptyJoin (state.getNonce sender) v r s) state gp =
      applyTransaction exec c.rate block₂.header (emptyJoin (state.getNonce sender) v r s) state gp :=
    applyTransaction_emptyJoin_congr codeless c.rate number coinbase funds signed
  have receipt (done : Applied) (used : UInt64) :
      newReceipt exec block₁.header done used = newReceipt exec block₂.header done used := by
    rw [newReceipt, ExecEnv.isByzantium, number]
    rfl
  have rewarded (state : StateDB) :
      finalize exec c.otprn block₁ state = finalize exec c.otprn block₂ state := by
    simp only [finalize, changeJoinNonceAndReword, rewardDirties, rewardOtprn, ExecEnv.isEIP158,
      number, coinbase, otprn, only₁, only₂]
  rw [process, process, only₁, only₂]
  simp only [applyTransactions, gasLimit, applied, receipt, rewarded]

end EmptyJoin

def joinChoice (o : Bytes) (coinbase : Address) (nonce : UInt64) (v r s : ℕ) : Choice where
  otprn := o
  coinbase
  nonce := maxUint64
  gasLimit := 0
  transactions := [emptyJoin nonce v r s]

theorem emptyJoin_accepted {sender : Address} {v r s : ℕ} (site : Site d n state o coinbase)
    (production : d.exec.chainid ≠ .dvlpNetId) (payable : joinsRewarded d.exec o)
    (codeless : state.getCode jtxAddress = []) (funds : 0 ≤ state.getBalance sender)
    (signed : d.exec.signer (n.chain.currentBlock.header.number + 1)
      (emptyJoin (state.getNonce sender) v r s) = .ok sender) :
    ∃ outcome sign, Accepted d.env n
      ((joinChoice o coinbase (state.getNonce sender) v r s).draft d n outcome sign) := by
  have drawn : 0 ≤ (joinChoice o coinbase (state.getNonce sender) v r s).difficulty d n := by
    rw [joinChoice, difficulty_without_draws]
    decide
  -- the header fields that are filled in with the outcome are not read by the execution
  let unfilled : Outcome := { state, receipts := [], usedGas := 0, err := none }
  obtain ⟨outcome, ran, clean, used, idle⟩ : ∃ outcome, process d.exec (n.engine.prepare o .insertChain)
      ((joinChoice o coinbase (state.getNonce sender) v r s).draft d n unfilled []) state =
        some outcome ∧ _ :=
    process_emptyJoin _ production payable rfl signed funds codeless site.idle
  refine ⟨outcome, draft_accepted site drawn (Nat.zero_le _) (by rw [used]; exact UInt64.zero_le) ?_
    clean idle⟩
  intro sign
  rw [← ran]
  exact process_emptyJoin_congr _ rfl rfl rfl rfl rfl rfl signed funds codeless

theorem samplePayable : joinsRewarded sampleSetup.exec (sampleOtprn 0xfa).encodeOtprn := by
  decide +kernel

end Anduschain
