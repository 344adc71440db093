import Anduschain.JoinReward

/-! Applying one transaction (core/state_transition.go, core/state_processor.go): gas
purchase, the outermost EVM frame, refund, and the split of the fee between miner and
fairnode. What byte code and precompiled contracts do is a parameter. -/
namespace Anduschain
open ByteOrder CheckedSteps

structure Forks where
  homesteadBlock : Option ℕ
  eip158Block : Option ℕ
  byzantiumBlock : Option ℕ
  pohangBlock : Option ℕ
  ulsanBlock : Option ℕ

def isForked (s : Option ℕ) (head : ℕ) : Bool := s.any (· ≤ head)

inductive VmError where
  | outOfGas
  | codeStoreOutOfGas
  | insufficientBalance
  | contractAddressCollision
  | executionReverted
  | maxCodeSizeExceeded
  | other (msg : String)
  deriving DecidableEq

structure Contract where
  caller : Address
  self : Address
  value : ℕ
  code : Bytes
  input : Bytes
  gas : UInt64

structure Log where
  address : Address
  topics : List Hash
  data : Bytes
  deriving DecidableEq

/-- What a frame leaves behind; `dirties` are the addresses the journal names. -/
structure Frame where
  ret : Bytes
  state : StateDB
  gas : UInt64
  refund : UInt64
  err : Option VmError
  dirties : List Address
  suicided : List Address
  touchedRipemd : Bool
  logs : List Log

structure Precompile where
  requiredGas : Bytes → UInt64
  run : Bytes → Except VmError Bytes

/-- A node's configuration apart from its fee rate, and what the model leaves open. -/
structure ExecEnv where
  crypto : Crypto
  config : NetConfig
  chainid : ChainId
  forks : Forks
  feeVault : Option Address
  reward : RewardEnv
  signer : ℕ → Transaction → Except String Address
  precompiles : Address → Precompile
  interpret : Header → Transaction → Contract → StateDB → Frame
  stateRoot : StateDB → Hash

def txGas : UInt64 := 21000
def txGasContractCreation : UInt64 := 53000
def txDataNonZeroGas : UInt64 := 68
def txDataZeroGas : UInt64 := 4
def createDataGas : UInt64 := 200
def maxCodeSize : ℕ := 24576
def maxUint64 : UInt64 := 0xffffffffffffffff

def jtxAddress : Address := 0xda07

def ripemd : Address := 3

/-- `IntrinsicGas`; `none` is the out-of-gas error. -/
def intrinsicGas (data : Bytes) (contractCreation homestead : Bool) : Option UInt64 :=
  let gas := if contractCreation && homestead then txGasContractCreation else txGas
  if data = [] then some gas
  else
    let nz := UInt64.ofNat (data.countP (· ≠ 0))
    if (maxUint64 - gas) / txDataNonZeroGas < nz then none
    else
      let gas := gas + nz * txDataNonZeroGas
      let z := UInt64.ofNat data.length - nz
      if (maxUint64 - gas) / txDataZeroGas < z then none else some (gas + z * txDataZeroGas)

/-- The miner's part of a fee and the fairnode's; `big.Int.Div` is Euclidean. -/
def fairFee (fee fnFeeRate : ℤ) : ℤ × ℤ :=
  let fnFee := fee * fnFeeRate / 100
  (fee - fnFee, fnFee)

/-- `GasPool.AddGas`; `none` is its panic. -/
def addGas (gp amount : UInt64) : Option UInt64 :=
  if maxUint64 - amount < gp then none else some (gp + amount)

/-- The precompiled contracts stand at the addresses from 1 on. -/
def precompiled (count : ℕ) (addr : Address) : Bool := 1 ≤ addr.toNat && addr.toNat ≤ count

def Frame.idle (state : StateDB) (gas : UInt64) : Frame where
  ret := []
  state
  gas
  refund := 0
  err := none
  dirties := []
  suicided := []
  touchedRipemd := false
  logs := []

/-- `RevertToSnapshot`, which a touch of the RIPEMD contract outlives; an error other than a
revert takes the gas left. -/
def Frame.revertTo (frame : Frame) (snapshot : StateDB) : Frame :=
  { frame with
    state := snapshot
    refund := 0
    dirties := if frame.touchedRipemd then [ripemd] else []
    suicided := []
    logs := []
    gas := if frame.err = some .executionReverted then frame.gas else 0 }

def createAddress (crypto : Crypto) (b : Address) (nonce : UInt64) : Address :=
  bytesToAddress (hashBytes (crypto.keccak (rlpFeed (.list [goAddress b, .uint nonce]))))

namespace ExecEnv
variable (env : ExecEnv)

def fairAddr : Address := env.config.fairAddr env.crypto

variable (header : Header) (tx : Transaction)

def beneficiary : Address := env.feeVault.getD header.coinbase

def isHomestead : Bool := isForked env.forks.homesteadBlock header.number

def isEIP158 : Bool := isForked env.forks.eip158Block header.number

def isByzantium : Bool := isForked env.forks.byzantiumBlock header.number

/-- `run` knows the precompiled contracts of two rule sets only. -/
def runPrecompiles : ℕ := if env.isByzantium header then 8 else 4

def callPrecompiles : ℕ :=
  if isForked env.forks.ulsanBlock header.number then 18
  else if isForked env.forks.pohangBlock header.number then 18
  else env.runPrecompiles header

def run (contract : Contract) (state : StateDB) : Frame :=
  if precompiled (env.runPrecompiles header) contract.self then
    let p := env.precompiles contract.self
    if contract.gas < p.requiredGas contract.input then
      { Frame.idle state contract.gas with err := some .outOfGas }
    else
      let frame := Frame.idle state (contract.gas - p.requiredGas contract.input)
      match p.run contract.input with
      | .ok ret => { frame with ret }
      | .error err => { frame with err := some err }
  else if contract.code = [] then Frame.idle state contract.gas
  else env.interpret header tx contract state

def call (caller addr : Address) (state : StateDB)
    (gas : UInt64) : Frame :=
  if state.getBalance caller < tx.amount then
    { Frame.idle state gas with err := some .insufficientBalance }
  else if (state addr).isNone && !precompiled (env.callPrecompiles header) addr &&
      env.isEIP158 header && tx.amount == 0 then
    Frame.idle state gas
  else
    let opened := if (state addr).isNone then state.createAccount addr else state
    let moved := opened.transfer caller addr tx.amount
    let frame := env.run header tx
      { caller, self := addr, value := tx.amount, code := moved.getCode addr, input := tx.payload,
        gas } moved
    let touched := addr == ripemd && tx.amount == 0 && (opened.getOrNew addr).empty
    let frame := { frame with touchedRipemd := touched || frame.touchedRipemd }
    if frame.err = none then { frame with dirties := addr :: frame.dirties }
    else frame.revertTo state

/-- The deployment code's result is stored if its size and the gas allow. -/
def storeCode (address : Address) (exceeded : Bool) (frame : Frame) : Frame :=
  if frame.err = none ∧ !exceeded then
    let dataGas := UInt64.ofNat frame.ret.length * createDataGas
    if frame.gas < dataGas then { frame with err := some .codeStoreOutOfGas }
    else { frame with gas := frame.gas - dataGas, state := frame.state.setCode address frame.ret }
  else frame

def create (caller : Address) (state : StateDB)
    (gas : UInt64) : Frame :=
  let address := createAddress env.crypto caller (state.getNonce caller)
  if state.getBalance caller < tx.amount then
    { Frame.idle state gas with err := some .insufficientBalance }
  else
    let numbered := state.setNonce caller (state.getNonce caller + 1)
    if numbered.getNonce address ≠ 0 ∨ numbered.getCode address ≠ [] then
      { Frame.idle numbered 0 with err := some .contractAddressCollision }
    else
      let opened := numbered.createAccount address
      let opened := if env.isEIP158 header then opened.setNonce address 1 else opened
      let frame := env.run header tx
        { caller, self := address, value := tx.amount, code := tx.payload, input := [], gas }
        (opened.transfer caller address tx.amount)
      let exceeded := env.isEIP158 header && maxCodeSize < frame.ret.length
      let frame := storeCode address exceeded frame
      if exceeded ∨ (frame.err ≠ none ∧
          (env.isHomestead header ∨ frame.err ≠ some .codeStoreOutOfGas)) then
        let reverted := frame.revertTo numbered
        { reverted with err := reverted.err.or (some .maxCodeSizeExceeded) }
      else { frame with dirties := address :: frame.dirties }

end ExecEnv

inductive TxError where
  | invalidSender (msg : String)
  | nonceTooHigh
  | nonceTooLow
  | insufficientBalanceForGas
  | gasLimitReached
  | outOfGas
  | insufficientFundsForTransfer (addr : Address)
  | insufficientBalance
  deriving DecidableEq

structure Applied where
  state : StateDB
  gp : UInt64
  usedGas : UInt64
  failed : Bool
  logs : List Log
  dirties : List Address
  suicided : List Address

/-- A transaction that fails leaves the changes made so far in the state. -/
inductive TxOutcome where
  | done (applied : Applied)
  | failed (err : TxError) (state : StateDB)
  | panicked

def TxOutcome.applied? : TxOutcome → Option Applied
  | .done applied => some applied
  | _ => none

theorem TxOutcome.eq_done {outcome : TxOutcome} {applied : Applied}
    (found : outcome.applied? = some applied) : outcome = .done applied := by
  cases outcome <;> cases found
  rfl

def buyGas (tx : Transaction) (sender : Address) (state : StateDB) (gp : UInt64) :
    Except TxError (StateDB × UInt64) := do
  let mgval := tx.gasLimit.toNat * tx.price
  rejectIf (state.getBalance sender < mgval) .insufficientBalanceForGas
  rejectIf (gp < tx.gasLimit) .gasLimitReached
  return (state.subBalance sender mgval, gp - tx.gasLimit)

def preCheck (tx : Transaction) (sender : Address) (state : StateDB) (gp : UInt64) :
    Except TxError (StateDB × UInt64) := do
  rejectIf (state.getNonce sender < tx.accountNonce) .nonceTooHigh
  rejectIf (tx.accountNonce < state.getNonce sender) .nonceTooLow
  buyGas tx sender state gp

variable (env : ExecEnv)

/-- The gas the outermost frame starts with; a call of the join address is free. -/
def useIntrinsicGas (header : Header) (tx : Transaction) (sender : Address)
    (state : StateDB) : Except TxError UInt64 := do
  let prescribed ← orReject (intrinsicGas tx.payload tx.recipient.isNone (env.isHomestead header))
    .outOfGas
  let gas := if tx.recipient = some jtxAddress then 0 else prescribed
  rejectIf (tx.gasLimit < gas) .outOfGas
  rejectIf (0 < tx.amount ∧ state.getBalance sender < tx.amount) (.insufficientFundsForTransfer sender)
  return tx.gasLimit - gas

/-- The outermost frame, with the sender's nonce taken. -/
def enterEvm (header : Header) (tx : Transaction) (sender : Address)
    (state : StateDB) (gas : UInt64) : Frame :=
  match tx.recipient with
  | none => env.create header tx sender state gas
  | some addr =>
    env.call header tx sender addr (state.setNonce sender (state.getNonce sender + 1)) gas

/-- From `refundGas` on: the sender gets the gas that is left, miner and fairnode share the fee.
-/
def settleFee (rate : ℤ) (header : Header) (tx : Transaction) (sender : Address)
    (frame : Frame) (gp : UInt64) : TxOutcome :=
  let half := (tx.gasLimit - frame.gas) / 2
  let gas := frame.gas + if frame.refund < half then frame.refund else half
  let usedGas := tx.gasLimit - gas
  let refunded := frame.state.addBalance sender (gas.toNat * tx.price : ℕ)
  let fees := fairFee (usedGas.toNat * tx.price : ℕ) rate
  (addGas gp gas).elim .panicked fun gp => .done {
    state := (refunded.addBalance (env.beneficiary header) fees.1).addBalance env.fairAddr fees.2
    gp
    usedGas
    failed := frame.err.isSome
    logs := frame.logs
    dirties := sender :: env.beneficiary header :: env.fairAddr :: frame.dirties
    suicided := frame.suicided }

def transitionDb (rate : ℤ) (header : Header) (tx : Transaction)
    (sender : Address) (state : StateDB) (gp : UInt64) : TxOutcome :=
  match preCheck tx sender state gp with
  | .error err => .failed err state
  | .ok (bought, gp) =>
    match useIntrinsicGas env header tx sender bought with
    | .error err => .failed err bought
    | .ok gas =>
      let frame := enterEvm env header tx sender bought gas
      if frame.err = some .insufficientBalance then .failed .insufficientBalance frame.state
      else settleFee env rate header tx sender frame gp

def applyTransaction (rate : ℤ) (header : Header) (tx : Transaction)
    (state : StateDB) (gp : UInt64) : TxOutcome :=
  match env.signer header.number tx with
  | .error msg => .failed (.invalidSender msg) state
  | .ok sender =>
    match transitionDb env rate header tx sender state gp with
    | .done applied =>
      let deleteEmpty := env.isByzantium header || env.isEIP158 header
      .done { applied with
        state := applied.state.finalise deleteEmpty applied.dirties applied.suicided
        dirties := []
        suicided := [] }
    | outcome => outcome

/-- A frame that ran no code: all gas is left and every balance is as before. -/
structure Frame.Quiet (frame : Frame) (state : StateDB) (gas : UInt64) : Prop where
  err : frame.err = none
  gas : frame.gas = gas
  refund : frame.refund = 0
  suicided : frame.suicided = []
  balance : ∀ a, frame.state.getBalance a = state.getBalance a

section Plain
variable {env : ExecEnv} {header : Header} {tx : Transaction} {sender addr : Address}
  {state : StateDB} {gas : UInt64}

theorem runPrecompiles_le : env.runPrecompiles header ≤ 8 := by
  unfold ExecEnv.runPrecompiles
  split <;> omega

theorem run_codeless {contract : Contract} (codeless : contract.code = [])
    (ordinary : 8 < contract.self.toNat) :
    env.run header tx contract state = .idle state contract.gas := by
  have other : precompiled (env.runPrecompiles header) contract.self = false := by
    have : env.runPrecompiles header ≤ 8 := runPrecompiles_le
    simp only [precompiled, Bool.and_eq_false_iff, decide_eq_false_iff_not]
    omega
  simp [ExecEnv.run, other, codeless]

theorem call_codeless (free : tx.amount = 0) (funds : 0 ≤ state.getBalance sender)
    (codeless : state.getCode addr = []) (ordinary : 8 < addr.toNat) :
    (env.call header tx sender addr state gas).Quiet state gas := by
  have enough : ¬ state.getBalance sender < (tx.amount : ℤ) := by simp [free, funds]
  unfold ExecEnv.call
  rw [if_neg enough]
  split
  · exact ⟨rfl, rfl, rfl, rfl, fun _ => rfl⟩
  · dsimp only
    generalize opening : (if (state addr).isNone then state.createAccount addr else state) = opened
    have code : opened.getCode addr = [] := by
      rw [← opening]
      split
      · simp [StateDB.createAccount, StateDB.getCode_put, Account.fresh]
      · exact codeless
    have balance (a : Address) : opened.getBalance a = state.getBalance a := by
      rw [← opening]
      split <;> simp
    rw [run_codeless (by simp [StateDB.transfer, code]) ordinary]
    exact ⟨rfl, rfl, rfl, rfl, fun a => by simp [Frame.idle, free, balance]⟩

theorem enterEvm_codeless (called : tx.recipient = some addr) (free : tx.amount = 0)
    (funds : 0 ≤ state.getBalance sender) (codeless : state.getCode addr = [])
    (ordinary : 8 < addr.toNat) : (enterEvm env header tx sender state gas).Quiet state gas := by
  simp only [enterEvm, called]
  have quiet : (env.call header tx sender addr
      (state.setNonce sender (state.getNonce sender + 1)) gas).Quiet _ gas :=
    call_codeless free (by simpa) (by simpa) ordinary
  exact { quiet with balance := fun a => by rw [quiet.balance, StateDB.getBalance_setNonce] }

theorem maxUint64_toNat : maxUint64.toNat = 2 ^ 64 - 1 := by decide

theorem addGas_zero (gp : UInt64) : addGas gp 0 = some gp := by
  have fits : ¬ maxUint64 - 0 < gp := by
    have := gp.toNat_lt
    rw [UInt64.sub_zero, UInt64.not_lt, UInt64.le_iff_toNat_le, maxUint64_toNat]
    omega
  rw [addGas, if_neg fits, UInt64.add_zero]

theorem settleFee_spent (tx : Transaction) (sender : Address) (rate : ℤ) (gp : UInt64)
    {frame : Frame} (spent : frame.gas = 0) (refund : frame.refund = 0)
    (apart : env.beneficiary header ≠ env.fairAddr) :
    ∃ applied, settleFee env rate header tx sender frame gp = .done applied ∧
      applied.suicided = frame.suicided ∧
      applied.state.getBalance env.fairAddr =
        frame.state.getBalance env.fairAddr + (tx.gasLimit.toNat * tx.price : ℕ) * rate / 100 := by
  have left (half : UInt64) : (if 0 < half then 0 else half) = 0 := by
    split
    · rfl
    · exact UInt64.le_antisymm (UInt64.not_lt.mp ‹_›) UInt64.zero_le
  unfold settleFee
  simp only [refund, left]
  simp only [spent, UInt64.add_zero, addGas_zero, UInt64.sub_zero]
  refine ⟨_, rfl, rfl, ?_⟩
  simp [fairFee, apart.symm]

def plainTransfer (v r s : ℕ) : Transaction where
  txType := 0
  accountNonce := 0
  price := 100
  gasLimit := txGas
  recipient := some 0xda08
  amount := 0
  payload := []
  v
  r
  s

theorem preCheck_plain {v r s : ℕ} (nonce : state.getNonce sender = 0)
    (funds : state.getBalance sender = 2100000) :
    preCheck (plainTransfer v r s) sender state txGas = .ok (state.subBalance sender 2100000, 0) := by
  have gas : txGas.toNat = 21000 := by decide
  simp [preCheck, buyGas, plainTransfer, nonce, funds, gas, pure, Except.pure]

theorem useIntrinsicGas_plain {v r s : ℕ} :
    useIntrinsicGas env header (plainTransfer v r s) sender state = .ok 0 := by
  simp [useIntrinsicGas, intrinsicGas, plainTransfer, jtxAddress, pure, Except.pure]

theorem transitionDb_plain (rate : ℤ) (v r s : ℕ) (nonce : state.getNonce sender = 0)
    (funds : state.getBalance sender = 2100000) (codeless : state.getCode 0xda08 = [])
    (apart : env.beneficiary header ≠ env.fairAddr) :
    ∃ applied, transitionDb env rate header (plainTransfer v r s) sender state txGas = .done applied ∧
      applied.suicided = [] ∧
      applied.state.getBalance env.fairAddr =
        (state.subBalance sender 2100000).getBalance env.fairAddr + 21000 * rate := by
  have quiet : (enterEvm env header (plainTransfer v r s) sender (state.subBalance sender 2100000)
      0).Quiet (state.subBalance sender 2100000) 0 :=
    enterEvm_codeless rfl rfl (by simp [funds]) (by rw [StateDB.getCode_subBalance, codeless])
      (by decide)
  obtain ⟨applied, settled, suicided, balance⟩ :=
    settleFee_spent (plainTransfer v r s) sender rate 0 quiet.gas quiet.refund apart
  refine ⟨applied, ?_, suicided.trans quiet.suicided, ?_⟩
  · simp only [transitionDb, preCheck_plain nonce funds, useIntrinsicGas_plain, quiet.err, settled]
    simp
  · have fee : (((plainTransfer v r s).gasLimit.toNat * (plainTransfer v r s).price : ℕ) : ℤ) =
        2100000 := by simp [plainTransfer, show txGas.toNat = 21000 by decide]
    rw [balance, quiet.balance, fee]
    omega

end Plain

end Anduschain
