import Anduschain.MessageGas

/-! Filling the block under construction (miner/worker.go, core/state_processor.go): what
`commitTransaction` leaves of a transaction it cannot include. The state goes back to its
snapshot; the gas pool keeps what the failed message took. -/
namespace Anduschain
open ByteOrder CheckedSteps

structure Environment where
  state : StateDB
  gasPool : UInt64
  header : Header
  txs : List Transaction
  receipts : List Receipt

inductive CommitError where
  | l1DataFee (msg : String)
  | transition (err : TxError)
  deriving DecidableEq

inductive Commit where
  | committed (logs : List Log) (current : Environment)
  | failed (err : CommitError) (current : Environment)
  | panicked

/-- A node that builds blocks: the Deb part of its configuration, which other networks lack, and
`CalculateL1DataFee`, whose result nothing uses. -/
structure Miner where
  exec : ExecEnv
  deb : Option DebFees
  l1DataFee : Transaction → StateDB → Except String ℤ

namespace Miner
variable (miner : Miner) (coinbase : Address) (tx : Transaction) (current : Environment)

def newEVM (header : Header) (tx : Transaction) : Evm where
  coinbase := miner.exec.feeVault.getD coinbase
  homestead := miner.exec.isHomestead header
  deb := miner.deb
  create caller _ gas _ state := miner.exec.create header tx caller state gas
  call caller addr _ gas _ state := miner.exec.call header tx caller addr state gas

/-- `ApplyTransaction` on the worker's environment; a failure shows the changes made so far. -/
def applyTransaction : Commit :=
  match miner.exec.signer current.header.number tx with
  | .error msg => .failed (.transition (.invalidSender msg)) current
  | .ok sender =>
    match miner.l1DataFee tx current.state with
    | .error msg => .failed (.l1DataFee msg) current
    | .ok _ =>
      match (tx.asMessage sender).transitionDb (miner.newEVM coinbase current.header tx)
          current.state current.gasPool with
      | .panicked => .panicked
      | .failed err state gasPool =>
        .failed (.transition err) { current with state, gasPool }
      | .done applied =>
        let deleteEmpty :=
          miner.exec.isByzantium current.header || miner.exec.isEIP158 current.header
        let applied := { applied with
          state := applied.state.finalise deleteEmpty applied.dirties applied.suicided }
        let gasUsed := current.header.gasUsed + applied.usedGas
        .committed applied.logs { current with
          state := applied.state
          gasPool := applied.gp
          header := { current.header with gasUsed }
          receipts := current.receipts ++ [newReceipt miner.exec current.header applied gasUsed] }

/-- On an error the state is reverted to the snapshot taken first. -/
def commitTransaction : Commit :=
  let snap := current.state
  match miner.applyTransaction coinbase tx current with
  | .panicked => .panicked
  | .failed err left => .failed err { left with state := snap }
  | .committed logs next => .committed logs { next with txs := next.txs ++ [tx] }

def Traceless : Prop :=
  ∀ err left, miner.commitTransaction coinbase tx current = .failed err left → left = current

end Miner

/-- Byte code and precompiled contracts do not end in the error of a transfer without funds, which
inner calls report to the caller's stack. -/
structure ExecEnv.TransfersReported (env : ExecEnv) : Prop where
  interpret : ∀ header tx contract state,
    (env.interpret header tx contract state).err ≠ some .insufficientBalance
  precompile : ∀ addr input, (env.precompiles addr).run input ≠ .error .insufficientBalance

section Frames
variable {env : ExecEnv} {header : Header} {tx : Transaction} {sender : Address} {state : StateDB}
  {gas : UInt64}

theorem run_err (reported : env.TransfersReported) (contract : Contract) (state : StateDB) :
    (env.run header tx contract state).err ≠ some .insufficientBalance := by
  unfold ExecEnv.run
  split
  · dsimp only
    split
    · simp
    · split
      · simp [Frame.idle]
      · rename_i err failed
        intro same
        exact reported.precompile _ _ (failed.trans (congrArg _ (Option.some.inj same)))
  · split
    · simp [Frame.idle]
    · exact reported.interpret _ _ _ _

theorem call_err (reported : env.TransfersReported) (addr : Address)
    (funds : tx.amount ≤ state.getBalance sender) :
    (env.call header tx sender addr state gas).err ≠ some .insufficientBalance := by
  unfold ExecEnv.call
  rw [if_neg (not_lt.mpr funds)]
  split
  · simp [Frame.idle]
  · dsimp only
    generalize (if (state addr).isNone then state.createAccount addr else state) = opened
    generalize running : env.run header tx _ _ = frame
    have other : frame.err ≠ some .insufficientBalance := running ▸ run_err reported _ _
    split
    · exact other
    · exact other

theorem storeCode_err {frame : Frame} (address : Address) (exceeded : Bool)
    (other : frame.err ≠ some .insufficientBalance) :
    (ExecEnv.storeCode address exceeded frame).err ≠ some .insufficientBalance := by
  unfold ExecEnv.storeCode
  split
  · dsimp only
    split
    · simp
    · exact other
  · exact other

theorem create_err (reported : env.TransfersReported) (funds : tx.amount ≤ state.getBalance sender) :
    (env.create header tx sender state gas).err ≠ some .insufficientBalance := by
  unfold ExecEnv.create
  dsimp only
  rw [if_neg (not_lt.mpr funds)]
  split
  · simp
  · generalize running : env.run header tx _ _ = ran
    have other : ran.err ≠ some .insufficientBalance := running ▸ run_err reported _ _
    generalize storing : ExecEnv.storeCode _ _ ran = frame
    have stored : frame.err ≠ some .insufficientBalance := storing ▸ storeCode_err _ _ other
    split
    · -- a reverted creation keeps its error, or the code was too long
      intro same
      rcases Option.or_eq_some_iff.mp same with same | ⟨-, same⟩
      · exact stored same
      · simp at same
    · exact stored

end Frames

structure Purchasable (tx : Transaction) (sender : Address) (state : StateDB) (gp : UInt64) : Prop where
  nonce : state.getNonce sender = tx.accountNonce
  funds : tx.gasLimit.toNat * tx.price ≤ state.getBalance sender
  room : tx.gasLimit ≤ gp

/-- What is asked once the gas was bought: that it pays for the bytes, and that the value is left.
-/
structure Payable (env : ExecEnv) (header : Header) (tx : Transaction) (sender : Address)
    (state : StateDB) : Prop where
  intrinsic : ∃ gas, intrinsicGas tx.payload tx.recipient.isNone (env.isHomestead header) = some gas ∧
    (tx.recipient = some jtxAddress ∨ gas ≤ tx.gasLimit)
  funds : tx.gasLimit.toNat * tx.price + tx.amount ≤ state.getBalance sender

section Checks
variable {env : ExecEnv} {header : Header} {tx : Transaction} {sender : Address} {state : StateDB}
  {gp : UInt64}

theorem preCheck_of_purchasable (h : Purchasable tx sender state gp) :
    (tx.asMessage sender).preCheck state gp =
      .ok ((tx.asMessage sender).bought state, gp - tx.gasLimit) := by
  rw [asMessage_preCheck]
  have high : ¬ state.getNonce sender < tx.accountNonce := by
    rw [h.nonce]
    exact UInt64.lt_irrefl _
  have low : ¬ tx.accountNonce < state.getNonce sender := by
    rw [h.nonce]
    exact UInt64.lt_irrefl _
  have funds : ¬ state.getBalance sender < (tx.gasLimit.toNat * tx.price : ℕ) := by
    push_cast
    exact not_lt.mpr h.funds
  simp only [preCheck, buyGas, rejectIf, high, low, funds, UInt64.not_lt.mpr h.room, if_false,
    Message.bought, asMessage_cost]
  rfl

theorem purchasable_of_preCheck {pair : StateDB × UInt64}
    (checked : (tx.asMessage sender).preCheck state gp = .ok pair) :
    Purchasable tx sender state gp := by
  rw [asMessage_preCheck] at checked
  simp only [preCheck, buyGas, bind_eq_ok, exists_unit, rejectIf_eq_ok] at checked
  obtain ⟨high, low, funds, room, -⟩ := checked
  refine ⟨UInt64.le_antisymm (UInt64.not_lt.mp low) (UInt64.not_lt.mp high), ?_,
    UInt64.not_lt.mp room⟩
  push_cast at funds
  exact not_lt.mp funds

theorem getBalance_bought (state : StateDB) :
    ((tx.asMessage sender).bought state).getBalance sender =
      state.getBalance sender - tx.gasLimit.toNat * tx.price := by
  simp [Message.bought, Transaction.asMessage, Message.cost]

theorem useIntrinsicGas_ok_iff (bought : Purchasable tx sender state gp) :
    (∃ gas, useIntrinsicGas env header tx sender ((tx.asMessage sender).bought state) = .ok gas) ↔
      Payable env header tx sender state := by
  have credit := bought.funds
  simp only [useIntrinsicGas, bind_eq_ok, exists_unit, rejectIf_eq_ok, orReject_eq_ok,
    getBalance_bought]
  constructor
  · rintro ⟨-, prescribed, found, enough, funds, -⟩
    refine ⟨⟨prescribed, found, ?_⟩, by omega⟩
    by_cases join : tx.recipient = some jtxAddress
    · exact .inl join
    · rw [if_neg join, UInt64.not_lt] at enough
      exact .inr enough
  · rintro ⟨⟨prescribed, found, enough⟩, funds⟩
    refine ⟨_, prescribed, found, ?_, by omega, rfl⟩
    rw [UInt64.not_lt]
    split
    · exact UInt64.zero_le
    · exact enough.resolve_left ‹_›

end Checks

section Traces
variable {miner : Miner} {coinbase : Address} {tx : Transaction} {sender : Address}
  {current : Environment}

theorem newEVM_homestead (miner : Miner) (coinbase : Address) (header : Header) (tx : Transaction) :
    (miner.newEVM coinbase header tx).homestead = miner.exec.isHomestead header := rfl

variable {err : TxError} {state : StateDB} {gp : UInt64}

theorem transitionDb_payable (reported : miner.exec.TransfersReported)
    (bought : Purchasable tx sender current.state current.gasPool)
    (payable : Payable miner.exec current.header tx sender current.state) :
    (tx.asMessage sender).transitionDb (miner.newEVM coinbase current.header tx) current.state
      current.gasPool ≠ .failed err state gp := by
  obtain ⟨gas, paid⟩ := (useIntrinsicGas_ok_iff bought).mpr payable
  have funds : (tx.amount : ℤ) ≤ ((tx.asMessage sender).bought current.state).getBalance sender := by
    have := payable.funds
    rw [getBalance_bought]
    omega
  have solvent : ((tx.asMessage sender).enter (miner.newEVM coinbase current.header tx)
      ((tx.asMessage sender).bought current.state) gas).err ≠ some .insufficientBalance := by
    unfold Message.enter
    split
    · exact create_err reported funds
    · exact call_err reported _ (by rwa [StateDB.getBalance_setNonce])
  unfold Message.transitionDb
  simp only [preCheck_of_purchasable bought, asMessage_useIntrinsicGas (newEVM_homestead ..), paid,
    if_neg solvent]
  unfold Message.settle
  dsimp only
  cases addGas (current.gasPool - tx.gasLimit) _ with
  | none => simp
  | some left => simp

theorem transitionDb_unpayable (bought : Purchasable tx sender current.state current.gasPool)
    (short : ¬ Payable miner.exec current.header tx sender current.state) :
    ∃ err state, (tx.asMessage sender).transitionDb (miner.newEVM coinbase current.header tx)
      current.state current.gasPool = .failed err state (current.gasPool - tx.gasLimit) := by
  unfold Message.transitionDb
  simp only [preCheck_of_purchasable bought, asMessage_useIntrinsicGas (newEVM_homestead ..)]
  cases paid : useIntrinsicGas miner.exec current.header tx sender
      ((tx.asMessage sender).bought current.state) with
  | error err => exact ⟨err, _, rfl⟩
  | ok gas => exact absurd ((useIntrinsicGas_ok_iff bought).mp ⟨gas, paid⟩) short

theorem transitionDb_unbought (evm : Evm)
    (unbought : ¬ Purchasable tx sender current.state current.gasPool) :
    ∃ err, (tx.asMessage sender).transitionDb evm current.state current.gasPool =
      .failed err current.state current.gasPool := by
  unfold Message.transitionDb
  cases checked : (tx.asMessage sender).preCheck current.state current.gasPool with
  | error err => exact ⟨err, rfl⟩
  | ok pair => exact absurd (purchasable_of_preCheck checked) unbought

theorem failed_pool (reported : miner.exec.TransfersReported)
    (ran : (tx.asMessage sender).transitionDb (miner.newEVM coinbase current.header tx) current.state
      current.gasPool = .failed err state gp)
    (chargeable : Purchasable tx sender current.state current.gasPool →
      tx.gasLimit = 0 ∨ Payable miner.exec current.header tx sender current.state) :
    gp = current.gasPool := by
  by_cases bought : Purchasable tx sender current.state current.gasPool
  · by_cases payable : Payable miner.exec current.header tx sender current.state
    · exact absurd ran (transitionDb_payable reported bought payable)
    · obtain ⟨reason, final, failed⟩ := transitionDb_unpayable bought payable
      obtain ⟨-, -, rfl⟩ := Transition.failed.inj (ran.symm.trans failed)
      rw [(chargeable bought).resolve_right payable, UInt64.sub_zero]
  · obtain ⟨reason, failed⟩ := transitionDb_unbought (miner.newEVM coinbase current.header tx) bought
    exact (Transition.failed.inj (ran.symm.trans failed)).2.2

theorem pool_sub_eq_iff {gas : UInt64} : gp - gas = gp ↔ gas = 0 := by
  constructor
  · intro kept
    have same := congrArg UInt64.toNat kept
    have bound := gas.toNat_lt
    rw [UInt64.toNat_sub] at same
    rw [← UInt64.toNat_inj, UInt64.toNat_zero]
    omega
  · rintro rfl
    exact UInt64.sub_zero gp

theorem commitTransaction_of_failed {fee : ℤ}
    (signed : miner.exec.signer current.header.number tx = .ok sender)
    (priced : miner.l1DataFee tx current.state = .ok fee)
    (ran : (tx.asMessage sender).transitionDb (miner.newEVM coinbase current.header tx) current.state
      current.gasPool = .failed err state gp) :
    miner.commitTransaction coinbase tx current =
      .failed (.transition err) { current with gasPool := gp } := by
  simp only [Miner.commitTransaction, Miner.applyTransaction, signed, priced, ran]

/-- A transaction that cannot be included leaves no trace exactly if, wherever its gas can
be bought, it is payable as well or buys no gas. -/
theorem commitTransaction_traceless_iff (miner : Miner) (reported : miner.exec.TransfersReported)
    (coinbase : Address) (tx : Transaction) (current : Environment) :
    miner.Traceless coinbase tx current ↔
      ∀ sender fee, miner.exec.signer current.header.number tx = .ok sender →
        miner.l1DataFee tx current.state = .ok fee →
        Purchasable tx sender current.state current.gasPool →
        tx.gasLimit = 0 ∨ Payable miner.exec current.header tx sender current.state := by
  constructor
  · intro traceless sender fee signed priced bought
    by_contra! neither
    obtain ⟨err, state, ran⟩ := transitionDb_unpayable bought neither.2
    have same := traceless _ _ (commitTransaction_of_failed signed priced ran)
    exact neither.1 (pool_sub_eq_iff.mp (congrArg Environment.gasPool same))
  · intro chargeable err left failed
    cases signed : miner.exec.signer current.header.number tx with
    | error msg =>
      simp only [Miner.commitTransaction, Miner.applyTransaction, signed, Commit.failed.injEq] at failed
      exact failed.2.symm
    | ok sender =>
      cases priced : miner.l1DataFee tx current.state with
      | error msg =>
        simp only [Miner.commitTransaction, Miner.applyTransaction, signed, priced,
          Commit.failed.injEq] at failed
        exact failed.2.symm
      | ok fee =>
        cases ran : (tx.asMessage sender).transitionDb (miner.newEVM coinbase current.header tx)
            current.state current.gasPool with
        | done applied =>
          simp [Miner.commitTransaction, Miner.applyTransaction, signed, priced, ran] at failed
        | panicked =>
          simp [Miner.commitTransaction, Miner.applyTransaction, signed, priced, ran] at failed
        | failed reason state gp =>
          rw [commitTransaction_of_failed signed priced ran, Commit.failed.injEq] at failed
          have kept : gp = current.gasPool :=
            failed_pool reported ran (chargeable sender fee signed priced)
          rw [← failed.2, kept]

end Traces

def sampleMiner : Miner where
  exec := sampleExec
  deb := some ⟨0xfa, 30⟩
  l1DataFee _ _ := .ok 0

def sampleCurrent (balance : ℤ) : Environment where
  state := sampleFunds balance
  gasPool := 210000
  header := sampleHeader
  txs := []
  receipts := []

def sampleSpend : Transaction := { plainTransfer 27 1 1 with price := 1, amount := 50 }

theorem sampleExec_reported : sampleExec.TransfersReported where
  interpret _ _ _ _ := by simp [sampleExec, Frame.idle]
  precompile _ _ := by simp [sampleExec]

/-- The gas price alone is more than the sender has. -/
theorem sampleSpend_traceless : sampleMiner.Traceless 0xc0 sampleSpend (sampleCurrent 10) := by
  refine (commitTransaction_traceless_iff sampleMiner sampleExec_reported 0xc0 sampleSpend
    (sampleCurrent 10)).mpr ?_
  intro sender fee signed _ bought
  obtain rfl : 9 = sender := Except.ok.inj signed
  exact absurd bought.funds (by decide +kernel)

/-- Enough for the gas but not for the value: the block has lost the gas of a transfer. -/
theorem sampleSpend_leaves_trace : ∃ left,
    sampleMiner.commitTransaction 0xc0 sampleSpend (sampleCurrent 21010) =
      .failed (.transition (.insufficientFundsForTransfer 9)) left ∧
    left.gasPool = 189000 ∧ left ≠ sampleCurrent 21010 := by
  refine ⟨{ sampleCurrent 21010 with gasPool := 189000 }, rfl, rfl, fun same => ?_⟩
  exact absurd (congrArg Environment.gasPool same) (by decide)

end Anduschain
