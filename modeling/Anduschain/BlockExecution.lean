import Anduschain.StateTransition

/-! Executing a block (`Process` and `Finalize`) on the two paths that do so, `insertChain`
and the worker's finalize case, under the fee rate the engine's history left in the
shared configuration. -/
namespace Anduschain
open ByteOrder CheckedSteps List

structure Block where
  header : Header
  transactions : List Transaction
  voters : List Voter
  deriving DecidableEq

/-- The Deb engine: the fee rate of the configuration it shares, and its own OTPRN. -/
structure Deb where
  rate : ℤ
  otprn : Option Otprn
  deriving DecidableEq

def digitsValue (digits : Bytes) : Option ℕ :=
  if digits ≠ [] ∧ digits.all (fun c => 0x30 ≤ c ∧ c ≤ 0x39) then
    some (digits.foldl (fun n c => n * 10 + (c.toNat - 0x30)) 0)
  else none

/-- `new(big.Int).SetString(text, 10)`. -/
def bigIntText : Bytes → Option ℤ
  | 0x2d :: digits => (digitsValue digits).map fun n => -(n : ℤ)
  | 0x2b :: digits => (digitsValue digits).map Int.ofNat
  | digits => (digitsValue digits).map Int.ofNat

namespace Deb

/-- A text that is no integer leaves the rate as it is. -/
def setFnFee (c : Deb) (otprn : Otprn) : Deb :=
  { c with rate := (bigIntText otprn.data.fnFee).getD c.rate }

def setOtprn (c : Deb) (otprn : Otprn) : Deb := { c with otprn := some otprn }.setFnFee otprn

end Deb

inductive ImportPath where
  | insertChain
  | worker
  deriving DecidableEq

variable (env : ExecEnv) (c : Deb) (crypto : Crypto)

def Deb.prepare (o : Bytes) : ImportPath → Deb
  | .insertChain =>
    match decodeOtprn o with
    | none => c
    | some otprn => c.setFnFee otprn
  | .worker => c

inductive EngineEvent where
  | setOtprn (otprn : Otprn)
  | setFnFee (otprn : Otprn)
  | executed (path : ImportPath) (o : Bytes)

def Deb.after : EngineEvent → Deb
  | .setOtprn otprn => c.setOtprn otprn
  | .setFnFee otprn => c.setFnFee otprn
  | .executed path o => c.prepare o path

def Deb.replay (history : List EngineEvent) : Deb := history.foldl Deb.after c

def bloom9 (b : Bytes) : Bloom :=
  let digest := hashBytes (crypto.keccak b)
  [0, 2, 4].foldl (fun bin i => bin ||| 1 <<< (beNat ((digest.drop i).take 2) % 2048)) 0

def logsBloom (logs : List Log) : Bloom :=
  logs.foldl (fun bin log => log.topics.foldl (fun bin topic => bin ||| bloom9 crypto (hashBytes topic))
    (bin ||| bloom9 crypto (addressBytes log.address))) 0

/-- The part of a receipt its root commits to; the state root stands in it before Byzantium only. -/
structure Receipt where
  postState : Option Hash
  failed : Bool
  cumulativeGasUsed : UInt64
  bloom : Bloom
  logs : List Log
  deriving DecidableEq

def createBloom (receipts : List Receipt) : Bloom :=
  receipts.foldl (fun bin receipt => bin ||| logsBloom crypto receipt.logs) 0

def newReceipt (header : Header) (applied : Applied) (usedGas : UInt64) : Receipt where
  postState := if env.isByzantium header then none else some (env.stateRoot applied.state)
  failed := applied.failed
  cumulativeGasUsed := usedGas
  bloom := logsBloom env.crypto applied.logs
  logs := applied.logs

structure Outcome where
  state : StateDB
  receipts : List Receipt
  usedGas : UInt64
  err : Option TxError

/-- The loop of `Process`; `none` is a panic. -/
def applyTransactions (env : ExecEnv) (rate : ℤ) (header : Header) :
    List Transaction → StateDB → UInt64 → UInt64 → List Receipt → Option Outcome
  | [], state, _, usedGas, receipts => some { state, receipts, usedGas, err := none }
  | tx :: txs, state, gp, usedGas, receipts =>
    match applyTransaction env rate header tx state gp with
    | .done applied =>
      let usedGas := usedGas + applied.usedGas
      applyTransactions env rate header txs applied.state applied.gp usedGas
        (receipts ++ [newReceipt env header applied usedGas])
    | .failed err state => some { state, receipts := [], usedGas := 0, err := some err }
    | .panicked => none

def rewardDirties (engineOtprn : Option Otprn) (block : Block) : List Address :=
  if env.chainid = .generalId ∨ env.chainid = .sideId then [block.header.coinbase]
  else if block.transactions = [] then []
  else
    let senders := (block.transactions.filter (·.txType = joinTx)).map fun tx =>
      (env.reward.sender tx).toOption.getD 0
    let fnAddr := (decodeOtprn (rewardOtprn env.chainid engineOtprn block.header)).map Otprn.fnAddr
    senders ++ block.header.coinbase :: fnAddr.toList

/-- `Deb.Finalize` as `Process` calls it: its error is dropped, with the state as it is. -/
def finalize (engineOtprn : Option Otprn) (block : Block) (state : StateDB) : Option StateDB :=
  match changeJoinNonceAndReword env.reward env.chainid engineOtprn state block.transactions
      block.header with
  | .ok rewarded =>
    some (rewarded.finalise (env.isEIP158 block.header) (rewardDirties env engineOtprn block) [])
  | .error .nilFloat => none
  | .error _ => some state

/-- `Process` returns before `Finalize` when a transaction fails. -/
def process (block : Block) (parent : StateDB) : Option Outcome := do
  let outcome ← applyTransactions env c.rate block.header block.transactions parent
    block.header.gasLimit 0 []
  if outcome.err = none then
    let state ← finalize env c.otprn block outcome.state
    return { outcome with state }
  else return outcome

def execute (path : ImportPath) (c : Deb) (block : Block) (parent : StateDB) : Option Outcome :=
  process env (c.prepare block.header.otprn path) block parent

def rateInForce (path : ImportPath) (c : Deb) (o : Bytes) : ℤ :=
  match path with
  | .insertChain => ((decodeOtprn o).bind fun otprn => bigIntText otprn.data.fnFee).getD c.rate
  | .worker => c.rate

def joinPriced (env : RewardEnv) (o : Bytes) : Bool :=
  (decodeOtprn o).all fun otprn => (env.setString otprn.data.price.joinTxPrice).isSome

@[simp] theorem Deb.prepare_rate (o : Bytes) (path : ImportPath) :
    (c.prepare o path).rate = rateInForce path c o := by
  cases path with
  | insertChain =>
    cases decoded : decodeOtprn o <;> simp [Deb.prepare, rateInForce, Deb.setFnFee, decoded]
  | worker => rfl

section Execution
variable {env : ExecEnv} {header : Header} {txs : List Transaction} {state : StateDB}

theorem rewardOtprn_production {chainid : ChainId} (production : chainid ≠ .dvlpNetId)
    (engineOtprn : Option Otprn) : rewardOtprn chainid engineOtprn header = header.otprn := by
  simp [rewardOtprn, production]

variable (production : env.chainid ≠ .dvlpNetId)
include production

theorem finalize_engine (o₁ o₂ : Option Otprn)
    (block : Block) : finalize env o₁ block state = finalize env o₂ block state := by
  simp only [finalize, rewardDirties, changeJoinNonceAndReword, rewardOtprn_production production]

theorem process_of_rate {c₁ c₂ : Deb}
    (same : c₁.rate = c₂.rate) (block : Block) (parent : StateDB) :
    process env c₁ block parent = process env c₂ block parent := by
  simp only [process, same, finalize_engine production c₁.otprn c₂.otprn]

theorem changeJoinNonceAndReword_joinless (engineOtprn : Option Otprn) (state : StateDB)
    (joinless : joinCount txs = 0) (priced : joinPriced env.reward header.otprn) :
    changeJoinNonceAndReword env.reward env.chainid engineOtprn state txs header ∈
      [.ok (state.addBalance header.coinbase (2 * 10 ^ 18)), .ok state, .error .decodeOtprn,
        .error .joinTxNil] := by
  simp only [mem_cons, not_mem_nil, or_false]
  rw [changeJoinNonceAndReword, rewardOtprn_production production]
  split
  · exact .inl rfl
  split
  · exact .inr (.inl rfl)
  cases decoded : decodeOtprn header.otprn with
  | none => exact .inr (.inr (.inl rfl))
  | some otprn =>
    rw [joinPriced, decoded, Option.all_some] at priced
    obtain ⟨jtxFee, price⟩ := Option.isSome_iff_exists.mp priced
    refine .inr (.inr (.inr ?_))
    simp [orReject, price, chargeJoins_count, joinless, production, rejectIf, bind, Except.bind]

theorem finalize_joinless (engineOtprn : Option Otprn) (state : StateDB) {block : Block}
    (joinless : joinCount block.transactions = 0)
    (priced : joinPriced env.reward block.header.otprn) :
    ∃ final, finalize env engineOtprn block state = some final ∧
      ∀ a ≠ block.header.coinbase, final.getBalance a = state.getBalance a := by
  have rewarded := changeJoinNonceAndReword_joinless production engineOtprn state joinless priced
  simp only [mem_cons, not_mem_nil, or_false] at rewarded
  rcases rewarded with paid | unpaid | undecoded | noJoin
  · refine ⟨_, by rw [finalize, paid], fun a other => ?_⟩
    simp [other]
  · refine ⟨_, by rw [finalize, unpaid], fun a _ => ?_⟩
    simp
  · exact ⟨state, by rw [finalize, undecoded], fun _ _ => rfl⟩
  · exact ⟨state, by rw [finalize, noJoin], fun _ _ => rfl⟩

end Execution

def lonelyBlock (number : ℕ) (o : Bytes) (tx : Transaction) : Block where
  header := { sampleHeader with
    coinbase := env.fairAddr + 1
    number
    gasLimit := txGas
    otprn := o }
  transactions := [tx]
  voters := []

def soleAccount (sender : Address) : StateDB :=
  StateDB.put (fun _ => none) sender { Account.fresh with balance := 2100000 }

section Distinguishing
variable {env : ExecEnv} {number v r s : ℕ} {sender : Address} {o : Bytes}

theorem lonelyBlock_beneficiary {tx : Transaction} (vault : env.feeVault ≠ some env.fairAddr) :
    env.beneficiary (lonelyBlock env number o tx).header ≠ env.fairAddr := by
  cases vaulted : env.feeVault with
  | none => simp [ExecEnv.beneficiary, vaulted, lonelyBlock]
  | some addr =>
    rw [ExecEnv.beneficiary, vaulted]
    intro same
    exact vault (by rw [vaulted, ← same]; rfl)

theorem applyTransaction_plain (rate : ℤ) (vault : env.feeVault ≠ some env.fairAddr)
    (signed : env.signer number (plainTransfer v r s) = .ok sender) :
    ∃ applied, applyTransaction env rate (lonelyBlock env number o (plainTransfer v r s)).header
        (plainTransfer v r s) (soleAccount sender) txGas = .done applied ∧
      applied.state.getBalance env.fairAddr = 21000 * rate := by
  have nonce : (soleAccount sender).getNonce sender = 0 := by
    simp [soleAccount, StateDB.getNonce, StateDB.getOrNew, StateDB.put, Account.fresh]
  have balance (a : Address) : (soleAccount sender).getBalance a = if a = sender then 2100000 else 0 := by
    rw [soleAccount, StateDB.getBalance_put]
    rfl
  have codeless : (soleAccount sender).getCode 0xda08 = [] := by
    rw [soleAccount, StateDB.getCode_put]
    split <;> rfl
  have apart : env.beneficiary (lonelyBlock env number o (plainTransfer v r s)).header ≠
      env.fairAddr := lonelyBlock_beneficiary vault
  obtain ⟨applied, done, suicided, held⟩ :=
    transitionDb_plain rate v r s nonce (by simp [balance]) codeless apart
  have signed' : env.signer (lonelyBlock env number o (plainTransfer v r s)).header.number
      (plainTransfer v r s) = .ok sender := signed
  simp only [applyTransaction, signed', done, suicided]
  refine ⟨_, rfl, ?_⟩
  rw [StateDB.getBalance_finalise, held, StateDB.getBalance_subBalance, balance]
  split <;> simp

theorem process_plain (c : Deb) (production : env.chainid ≠ .dvlpNetId)
    (vault : env.feeVault ≠ some env.fairAddr) (priced : joinPriced env.reward o)
    (signed : env.signer number (plainTransfer v r s) = .ok sender) :
    ∃ outcome, process env c (lonelyBlock env number o (plainTransfer v r s)) (soleAccount sender) =
      some outcome ∧ outcome.state.getBalance env.fairAddr = 21000 * c.rate := by
  obtain ⟨applied, done, held⟩ := applyTransaction_plain (o := o) c.rate vault signed
  have finishing : ∃ final, finalize env c.otprn (lonelyBlock env number o (plainTransfer v r s))
      applied.state = some final ∧
      ∀ a ≠ env.fairAddr + 1, final.getBalance a = applied.state.getBalance a :=
    finalize_joinless production c.otprn applied.state rfl priced
  obtain ⟨final, finalized, kept⟩ := finishing
  have applyAll : applyTransactions env c.rate
      (lonelyBlock env number o (plainTransfer v r s)).header
      (lonelyBlock env number o (plainTransfer v r s)).transactions (soleAccount sender)
      (lonelyBlock env number o (plainTransfer v r s)).header.gasLimit 0 [] =
        some {
          state := applied.state
          receipts := [newReceipt env (lonelyBlock env number o (plainTransfer v r s)).header applied
            (0 + applied.usedGas)]
          usedGas := 0 + applied.usedGas
          err := none } := by
    rw [show (lonelyBlock env number o (plainTransfer v r s)).transactions =
      [plainTransfer v r s] from rfl, applyTransactions]
    simp only [show (lonelyBlock env number o (plainTransfer v r s)).header.gasLimit = txGas from rfl,
      done, applyTransactions, nil_append]
  refine ⟨{
    state := final
    receipts := [newReceipt env (lonelyBlock env number o (plainTransfer v r s)).header applied
      (0 + applied.usedGas)]
    usedGas := 0 + applied.usedGas
    err := none }, ?_, ?_⟩
  · rw [process, applyAll]
    simp [finalized]
  · exact (kept env.fairAddr (by simp)).trans held

end Distinguishing

/-- Two nodes agree on every block with the OTPRN `o` exactly when their histories and
paths put the same fee rate in force for it. -/
theorem execute_agrees_iff (env : ExecEnv) (start : Deb) (path₁ path₂ : ImportPath)
    (history₁ history₂ : List EngineEvent) (o : Bytes) (production : env.chainid ≠ .dvlpNetId)
    (vault : env.feeVault ≠ some env.fairAddr) (priced : joinPriced env.reward o)
    (payer : ∃ number v r s sender, env.signer number (plainTransfer v r s) = .ok sender) :
    (∀ block parent, block.header.otprn = o →
      execute env path₁ (start.replay history₁) block parent =
        execute env path₂ (start.replay history₂) block parent) ↔
      rateInForce path₁ (start.replay history₁) o = rateInForce path₂ (start.replay history₂) o := by
  constructor
  · intro agree
    obtain ⟨number, v, r, s, sender, signed⟩ := payer
    have same := agree (lonelyBlock env number o (plainTransfer v r s)) (soleAccount sender) rfl
    obtain ⟨outcome₁, run₁, held₁⟩ := process_plain ((start.replay history₁).prepare o path₁)
      production vault priced signed
    obtain ⟨outcome₂, run₂, held₂⟩ := process_plain ((start.replay history₂).prepare o path₂)
      production vault priced signed
    have outcomes : outcome₁ = outcome₂ :=
      Option.some.inj (run₁.symm.trans (same.trans run₂))
    rw [outcomes, held₂, Deb.prepare_rate, Deb.prepare_rate] at held₁
    omega
  · rintro same block parent rfl
    apply process_of_rate production
    rw [Deb.prepare_rate, Deb.prepare_rate, same]

def sampleExec : ExecEnv where
  crypto := sampleCrypto
  config := { eip150Block := none, eip150Hash := 0, fairPubKey := [] }
  chainid := .loaded 7
  forks := {
    homesteadBlock := some 0
    eip158Block := some 0
    byzantiumBlock := some 0
    pohangBlock := some 0
    ulsanBlock := some 0 }
  feeVault := none
  reward := sampleEnv
  signer _ _ := .ok 9
  precompiles _ := { requiredGas := fun _ => 0, run := .ok }
  interpret _ _ contract state := .idle state contract.gas
  stateRoot _ := 0

def sampleFeeOtprn (fnFee : Bytes) : Bytes :=
  { sampleOtprn 0xfa with data := { sampleConfig with fnFee } : Otprn }.encodeOtprn

def sampleHeld (path : ImportPath) (history : List EngineEvent) (fnFee : Bytes) : Option ℤ :=
  (execute sampleExec path ({ rate := 30, otprn := none : Deb }.replay history)
    (lonelyBlock sampleExec 1 (sampleFeeOtprn fnFee) (plainTransfer 0 0 0)) (soleAccount 9)).map
      fun outcome => outcome.state.getBalance sampleExec.fairAddr

/-- Under an OTPRN with the text "10" nodes that import the block agree, whatever they did before. -/
theorem sampleExec_agrees :
    rateInForce .insertChain { rate := 30, otprn := none } (sampleFeeOtprn [0x31, 0x30]) = 10 ∧
      ∀ block parent, block.header.otprn = sampleFeeOtprn [0x31, 0x30] →
        execute sampleExec .insertChain ({ rate := 30, otprn := none : Deb }.replay []) block parent =
          execute sampleExec .insertChain ({ rate := 30, otprn := none : Deb }.replay
            [.executed .insertChain (sampleFeeOtprn [0x32, 0x30])]) block parent :=
  ⟨by decide +kernel, (execute_agrees_iff sampleExec { rate := 30, otprn := none } .insertChain
    .insertChain [] [.executed .insertChain (sampleFeeOtprn [0x32, 0x30])]
    (sampleFeeOtprn [0x31, 0x30]) (by decide) (by decide) (by decide +kernel)
    ⟨1, 0, 0, 0, 9, rfl⟩).mpr (by decide +kernel)⟩

/-- The text "0.5" leaves each importing node at the rate of its past, and the worker of a
node that never saw the text "10" finalizes at its old rate. -/
theorem sampleHeld_by_history :
    sampleHeld .insertChain [] [0x30, 0x2e, 0x35] = some 630000 ∧
      sampleHeld .insertChain [.executed .insertChain (sampleFeeOtprn [0x32, 0x30])]
        [0x30, 0x2e, 0x35] = some 420000 ∧
      sampleHeld .insertChain [] [0x31, 0x30] = some 210000 ∧
      sampleHeld .worker [] [0x31, 0x30] = some 630000 := by
  decide +kernel

end Anduschain
