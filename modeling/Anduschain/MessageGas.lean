import Anduschain.BalanceSafety

/-! `TransitionDb` for any message and any EVM (core/state_transition.go, core/gaspool.go):
what a message's gas costs its sender, what comes back, and what is left in the gas pool,
also where the message fails. The transition of a transaction is an instance. -/
namespace Anduschain
open ByteOrder CheckedSteps SignedPostings StateDB
open UInt64 (le_iff_toNat_le toNat_sub_of_le toNat_add)

structure Message where
  sender : Address
  recipient : Option Address
  gasPrice : ℤ
  gas : UInt64
  value : ℤ
  nonce : UInt64
  checkNonce : Bool
  data : Bytes

structure DebFees where
  fairAddr : Address
  fnFeeRate : ℤ

structure Evm where
  coinbase : Address
  homestead : Bool
  deb : Option DebFees
  create : (caller : Address) → (code : Bytes) → (gas : UInt64) → (value : ℤ) → StateDB → Frame
  call : (caller addr : Address) → (input : Bytes) → (gas : UInt64) → (value : ℤ) → StateDB → Frame

/-- How a transition ends; a failure leaves state and gas pool as they are by then. -/
inductive Transition where
  | done (applied : Applied)
  | failed (err : TxError) (state : StateDB) (gp : UInt64)
  | panicked

namespace Message
variable (msg : Message) (evm : Evm)

def cost (gas : UInt64) : ℤ := gas.toNat * msg.gasPrice

variable (state : StateDB)

def buyGas (gp : UInt64) : Except TxError (StateDB × UInt64) := do
  rejectIf (state.getBalance msg.sender < msg.cost msg.gas) .insufficientBalanceForGas
  rejectIf (gp < msg.gas) .gasLimitReached
  return (state.subBalance msg.sender (msg.cost msg.gas), gp - msg.gas)

def preCheck (gp : UInt64) : Except TxError (StateDB × UInt64) := do
  rejectIf (msg.checkNonce ∧ state.getNonce msg.sender < msg.nonce) .nonceTooHigh
  rejectIf (msg.checkNonce ∧ msg.nonce < state.getNonce msg.sender) .nonceTooLow
  msg.buyGas state gp

def useIntrinsicGas : Except TxError UInt64 := do
  let prescribed ← orReject (intrinsicGas msg.data msg.recipient.isNone evm.homestead) .outOfGas
  let gas := if msg.recipient = some jtxAddress then 0 else prescribed
  rejectIf (msg.gas < gas) .outOfGas
  rejectIf (0 < msg.value ∧ state.getBalance msg.sender < msg.value)
    (.insufficientFundsForTransfer msg.sender)
  return msg.gas - gas

def enter (gas : UInt64) : Frame :=
  match msg.recipient with
  | none => evm.create msg.sender msg.data gas msg.value state
  | some addr =>
    evm.call msg.sender addr msg.data gas msg.value
      (state.setNonce msg.sender (state.getNonce msg.sender + 1))

def gasAfterRefund (frame : Frame) : UInt64 :=
  let half := (msg.gas - frame.gas) / 2
  frame.gas + if frame.refund < half then frame.refund else half

end Message

/-- The fee goes to the miner and the fairnode; without a Deb configuration to nobody. -/
def Evm.shareFee (evm : Evm) (fee : ℤ) (state : StateDB) : StateDB :=
  match evm.deb with
  | none => state
  | some deb =>
    (state.addBalance evm.coinbase (fairFee fee deb.fnFeeRate).1).addBalance deb.fairAddr
      (fairFee fee deb.fnFeeRate).2

namespace Message
variable (msg : Message) (evm : Evm)

/-- `refundGas` and the sharing of the fee. -/
def settle (frame : Frame) (gp : UInt64) : Transition :=
  let gas := msg.gasAfterRefund frame
  let usedGas := msg.gas - gas
  (addGas gp gas).elim .panicked fun gp => .done {
    state := evm.shareFee (msg.cost usedGas) (frame.state.addBalance msg.sender (msg.cost gas))
    gp
    usedGas
    failed := frame.err.isSome
    logs := frame.logs
    dirties := msg.sender ::
      evm.deb.elim frame.dirties fun deb => evm.coinbase :: deb.fairAddr :: frame.dirties
    suicided := frame.suicided }

def transitionDb (state : StateDB) (gp : UInt64) : Transition :=
  match msg.preCheck state gp with
  | .error err => .failed err state gp
  | .ok (bought, gp) =>
    match msg.useIntrinsicGas evm bought with
    | .error err => .failed err bought gp
    | .ok gas =>
      let frame := msg.enter evm bought gas
      if frame.err = some .insufficientBalance then .failed .insufficientBalance frame.state gp
      else msg.settle evm frame gp

end Message

def Transaction.asMessage (tx : Transaction) (sender : Address) : Message where
  sender
  recipient := tx.recipient
  gasPrice := tx.price
  gas := tx.gasLimit
  value := tx.amount
  nonce := tx.accountNonce
  checkNonce := true
  data := tx.payload

def ExecEnv.newEVM (env : ExecEnv) (rate : ℤ) (header : Header) (tx : Transaction) : Evm where
  coinbase := env.beneficiary header
  homestead := env.isHomestead header
  deb := some ⟨env.fairAddr, rate⟩
  create caller _ gas _ state := env.create header tx caller state gas
  call caller addr _ gas _ state := env.call header tx caller addr state gas

def Transition.outcome : Transition → TxOutcome
  | .done applied => .done applied
  | .failed err state _ => .failed err state
  | .panicked => .panicked

section Instance
variable {env : ExecEnv} {rate : ℤ} {header : Header} {tx : Transaction} {sender : Address}

theorem asMessage_cost (gas : UInt64) :
    (tx.asMessage sender).cost gas = (gas.toNat * tx.price : ℕ) := by
  simp [Message.cost, Transaction.asMessage]

theorem asMessage_preCheck (state : StateDB) (gp : UInt64) :
    (tx.asMessage sender).preCheck state gp = preCheck tx sender state gp := by
  have checked (p : Prop) : (tx.asMessage sender).checkNonce ∧ p ↔ p := and_iff_right rfl
  simp only [Message.preCheck, Message.buyGas, preCheck, buyGas, asMessage_cost]
  rw [rejectIf_congr (checked _), rejectIf_congr (checked _)]
  rfl

theorem asMessage_useIntrinsicGas {evm : Evm} (rules : evm.homestead = env.isHomestead header)
    (state : StateDB) :
    (tx.asMessage sender).useIntrinsicGas evm state = useIntrinsicGas env header tx sender state := by
  have positive : (0 : ℤ) < tx.amount ∧ state.getBalance sender < tx.amount ↔
      0 < tx.amount ∧ state.getBalance sender < tx.amount := by
    rw [Int.natCast_pos]
  simp only [Message.useIntrinsicGas, useIntrinsicGas, ← rejectIf_congr positive, rules]
  rfl

theorem asMessage_enter (state : StateDB) (gas : UInt64) :
    (tx.asMessage sender).enter (env.newEVM rate header tx) state gas =
      enterEvm env header tx sender state gas := by
  unfold Message.enter enterEvm
  cases target : tx.recipient <;> simp only [Transaction.asMessage, ExecEnv.newEVM, target]

theorem asMessage_settle (frame : Frame) (gp : UInt64) :
    ((tx.asMessage sender).settle (env.newEVM rate header tx) frame gp).outcome =
      settleFee env rate header tx sender frame gp := by
  unfold Message.settle settleFee
  simp only [asMessage_cost]
  change Transition.outcome (Option.elim (addGas gp (gasLeft tx frame)) _ _) =
    Option.elim (addGas gp (gasLeft tx frame)) _ _
  cases addGas gp (gasLeft tx frame) with
  | none => rfl
  | some gp => rfl

theorem transitionDb_eq_asMessage (state : StateDB) (gp : UInt64) :
    transitionDb env rate header tx sender state gp =
      ((tx.asMessage sender).transitionDb (env.newEVM rate header tx) state gp).outcome := by
  have rules : (env.newEVM rate header tx).homestead = env.isHomestead header := rfl
  unfold transitionDb Message.transitionDb
  rw [asMessage_preCheck]
  cases preCheck tx sender state gp with
  | error err => rfl
  | ok bought =>
    simp only [asMessage_useIntrinsicGas rules]
    cases useIntrinsicGas env header tx sender bought.1 with
    | error err => rfl
    | ok gas =>
      simp only [asMessage_enter]
      by_cases short : (enterEvm env header tx sender bought.1 gas).err = some .insufficientBalance
      · simp only [short, if_true, Transition.outcome]
      · simp only [short, if_false, asMessage_settle]

end Instance

/-- Code that runs moves balances and creates none, and returns at most the gas it was given. The
refund counter is left open. -/
structure Evm.Conserves (evm : Evm) : Prop where
  create_total : ∀ caller code gas value state,
    (evm.create caller code gas value state).state.total = state.total
  create_gas : ∀ caller code gas value state, (evm.create caller code gas value state).gas ≤ gas
  call_total : ∀ caller addr input gas value state,
    (evm.call caller addr input gas value state).state.total = state.total
  call_gas : ∀ caller addr input gas value state,
    (evm.call caller addr input gas value state).gas ≤ gas

namespace Message
variable {msg : Message} {evm : Evm} {state : StateDB} {gp : UInt64}

def bought (msg : Message) (state : StateDB) : StateDB :=
  state.subBalance msg.sender (msg.cost msg.gas)

theorem enter_total (conserves : evm.Conserves) (state : StateDB) (gas : UInt64) :
    (msg.enter evm state gas).state.total = state.total := by
  unfold enter
  cases msg.recipient with
  | none => exact conserves.create_total _ _ _ _ _
  | some addr =>
    simp only
    rw [conserves.call_total]
    simp only [StateDB.total, getBalance_setNonce]

theorem enter_gas (conserves : evm.Conserves) (state : StateDB) (gas : UInt64) :
    (msg.enter evm state gas).gas ≤ gas := by
  unfold enter
  cases msg.recipient with
  | none => exact conserves.create_gas _ _ _ _ _
  | some addr => exact conserves.call_gas _ _ _ _ _ _

theorem preCheck_eq_ok {pair : StateDB × UInt64} (checked : msg.preCheck state gp = .ok pair) :
    msg.gas ≤ gp ∧ pair = (msg.bought state, gp - msg.gas) := by
  simp only [preCheck, buyGas, bind_eq_ok, exists_unit, rejectIf_eq_ok] at checked
  obtain ⟨-, -, -, room, paid⟩ := checked
  exact ⟨UInt64.not_lt.mp room, (Except.ok.inj paid).symm⟩

theorem useIntrinsicGas_le {gas : UInt64} (paid : msg.useIntrinsicGas evm state = .ok gas) :
    gas ≤ msg.gas := by
  simp only [useIntrinsicGas, bind_eq_ok, exists_unit, rejectIf_eq_ok] at paid
  obtain ⟨prescribed, -, enough, -, left⟩ := paid
  obtain rfl := Except.ok.inj left
  rw [UInt64.not_lt] at enough
  rw [le_iff_toNat_le, toNat_sub_of_le _ _ enough]
  exact Nat.sub_le _ _

theorem transitionDb_done {applied : Applied} (done : msg.transitionDb evm state gp = .done applied) :
    msg.gas ≤ gp ∧ ∃ gas ≤ msg.gas,
      msg.settle evm (msg.enter evm (msg.bought state) gas) (gp - msg.gas) = .done applied := by
  unfold transitionDb at done
  cases checked : msg.preCheck state gp with
  | error err => simp [checked] at done
  | ok pair =>
    obtain ⟨room, rfl⟩ := preCheck_eq_ok checked
    simp only [checked] at done
    cases intrinsic : msg.useIntrinsicGas evm (msg.bought state) with
    | error err => simp [intrinsic] at done
    | ok gas =>
      simp only [intrinsic] at done
      refine ⟨room, gas, useIntrinsicGas_le intrinsic, ?_⟩
      split at done
      · simp at done
      · exact done

theorem gasAfterRefund_le {frame : Frame} (bounded : frame.gas ≤ msg.gas) :
    msg.gasAfterRefund frame ≤ msg.gas := by
  have half : ((msg.gas - frame.gas) / 2).toNat = (msg.gas.toNat - frame.gas.toNat) / 2 := by
    rw [UInt64.toNat_div, toNat_sub_of_le _ _ bounded]
    rfl
  have limit := msg.gas.toNat_lt
  rw [le_iff_toNat_le] at bounded ⊢
  unfold gasAfterRefund
  dsimp only
  rw [toNat_add]
  split
  · rename_i capped
    rw [UInt64.lt_iff_toNat_lt, half] at capped
    omega
  · rw [half]
    omega

end Message

theorem addGas_fits {gp amount : UInt64} (fits : gp.toNat + amount.toNat < 2 ^ 64) :
    addGas gp amount = some (gp + amount) := by
  have room : ¬ maxUint64 - amount < gp := by
    have top : amount ≤ maxUint64 := by
      have := amount.toNat_lt
      rw [le_iff_toNat_le, maxUint64_toNat]
      omega
    rw [UInt64.lt_iff_toNat_lt, toNat_sub_of_le _ _ top, maxUint64_toNat]
    omega
  rw [addGas, if_neg room]

theorem fairFee_shares (fee : ℤ) {rate : ℤ} (low : 0 ≤ rate) (high : rate ≤ 100) :
    (fairFee fee rate).1 + (fairFee fee rate).2 = fee ∧
      (0 ≤ fee → 0 ≤ (fairFee fee rate).1 ∧ 0 ≤ (fairFee fee rate).2) := by
  refine ⟨by simp [fairFee], fun credit => ?_⟩
  have below : fee * rate ≤ fee * 100 := by gcongr
  have above : 0 ≤ fee * rate := by positivity
  simp only [fairFee]
  omega

/-- The books after an applied message. Apart from what the EVM moved, the sender paid for the
used gas, and the miner and the fairnode share it. -/
structure Accounted (msg : Message) (evm : Evm) (deb : DebFees) (state : StateDB) (gp : UInt64)
    (applied : Applied) : Prop where
  used : applied.usedGas ≤ msg.gas
  pool : applied.gp.toNat + applied.usedGas.toNat = gp.toNat
  total : applied.state.total = state.total
  paid : ∃ gas ≤ msg.gas, ∃ minerFee fnFee : ℤ,
    (∀ a, applied.state.getBalance a - state.getBalance a =
      ((msg.enter evm (msg.bought state) gas).state.getBalance a -
          (msg.bought state).getBalance a) +
        net [(msg.sender, -msg.cost applied.usedGas), (evm.coinbase, minerFee),
          (deb.fairAddr, fnFee)] a) ∧
    minerFee + fnFee = msg.cost applied.usedGas ∧
    (0 ≤ msg.gasPrice → 0 ≤ minerFee ∧ 0 ≤ fnFee)

namespace Message
variable {msg : Message} {evm : Evm} {deb : DebFees} {state : StateDB} {gp : UInt64}

theorem cost_sub {used : UInt64} (le : used ≤ msg.gas) :
    msg.cost (msg.gas - used) = msg.cost msg.gas - msg.cost used := by
  rw [le_iff_toNat_le] at le
  rw [cost, toNat_sub_of_le _ _ (le_iff_toNat_le.mpr le), Nat.cast_sub le, sub_mul]
  rfl

theorem settle_fits (configured : evm.deb = some deb) {frame : Frame} (bounded : frame.gas ≤ msg.gas)
    (room : msg.gas ≤ gp) :
    ∃ applied, msg.settle evm frame (gp - msg.gas) = .done applied ∧
      applied.usedGas = msg.gas - msg.gasAfterRefund frame ∧
      applied.gp = gp - msg.gas + msg.gasAfterRefund frame ∧
      applied.state = ((frame.state.addBalance msg.sender
        (msg.cost (msg.gasAfterRefund frame))).addBalance evm.coinbase
          (fairFee (msg.cost applied.usedGas) deb.fnFeeRate).1).addBalance deb.fairAddr
            (fairFee (msg.cost applied.usedGas) deb.fnFeeRate).2 := by
  have left := le_iff_toNat_le.mp (gasAfterRefund_le bounded)
  have fits : (gp - msg.gas).toNat + (msg.gasAfterRefund frame).toNat < 2 ^ 64 := by
    have := gp.toNat_lt
    rw [toNat_sub_of_le _ _ room]
    rw [le_iff_toNat_le] at room
    omega
  unfold settle
  simp only [addGas_fits fits, Option.elim_some]
  refine ⟨_, rfl, rfl, rfl, ?_⟩
  simp only [Evm.shareFee, configured]

/-- Used gas, gas pool and balances agree after every message that succeeds. -/
theorem transitionDb_accounted (conserves : evm.Conserves) (configured : evm.deb = some deb)
    (low : 0 ≤ deb.fnFeeRate) (high : deb.fnFeeRate ≤ 100) {applied : Applied}
    (done : msg.transitionDb evm state gp = .done applied) :
    Accounted msg evm deb state gp applied := by
  obtain ⟨room, gas, given, settled⟩ := transitionDb_done done
  have bounded : (msg.enter evm (msg.bought state) gas).gas ≤ msg.gas :=
    UInt64.le_trans (enter_gas conserves _ _) given
  have conserved : (msg.enter evm (msg.bought state) gas).state.total = (msg.bought state).total :=
    enter_total conserves _ _
  generalize entering : msg.enter evm (msg.bought state) gas = frame at *
  obtain ⟨direct, same, used, pool, books⟩ := settle_fits configured bounded room
  obtain rfl : applied = direct := Transition.done.inj (settled.symm.trans same)
  have left := gasAfterRefund_le bounded
  have shares := fairFee_shares (msg.cost applied.usedGas) low high
  have spent := cost_sub left
  rw [← used] at spent
  refine ⟨?_, ?_, ?_, gas, given, _, _, ?_, shares.1, ?_⟩
  · rw [used, le_iff_toNat_le, toNat_sub_of_le _ _ left]
    exact Nat.sub_le _ _
  · rw [pool, used, toNat_add, toNat_sub_of_le _ _ left,
      toNat_sub_of_le _ _ room]
    have := gp.toNat_lt
    rw [le_iff_toNat_le] at left room
    omega
  · rw [books]
    simp only [total_addBalance, conserved, bought, total_subBalance]
    have := shares.1
    omega
  · intro a
    rw [books, entering]
    simp only [getBalance_addBalance, bought, getBalance_subBalance, net_cons, net_nil]
    by_cases own : a = msg.sender
    · simp only [own, if_true]
      linarith
    · simp only [own, if_false]
      ring
  · intro price
    refine shares.2 ?_
    exact mul_nonneg (Int.natCast_nonneg _) price

end Message

def Transition.usedGas : Transition → Option UInt64
  | .done applied => some applied.usedGas
  | _ => none

def sampleEvm : Evm where
  coinbase := 9
  homestead := true
  deb := some ⟨0xfa, 30⟩
  create _ _ gas _ state := .idle state gas
  call caller addr _ gas value state :=
    { Frame.idle (state.transfer caller addr value) (gas / 2) with refund := 4800 }

def sampleMessage : Message where
  sender := 9
  recipient := some 0xb2
  gasPrice := 7
  gas := 50000
  value := 100
  nonce := 3
  checkNonce := false
  data := []

theorem sampleEvm_conserves : sampleEvm.Conserves where
  create_total _ _ _ _ _ := rfl
  create_gas _ _ _ _ _ := UInt64.le_refl _
  call_total caller addr input gas value state := by
    simp only [sampleEvm, Frame.idle, StateDB.transfer, total_addBalance, total_subBalance]
    omega
  call_gas caller addr input gas value state := by
    rw [le_iff_toNat_le]
    exact Nat.div_le_self _ _

theorem sampleMessage_accounted : ∃ applied,
    sampleMessage.transitionDb sampleEvm (sampleFunds 1000000) 60000 = .done applied ∧
      applied.usedGas = 30700 ∧
      Accounted sampleMessage sampleEvm ⟨0xfa, 30⟩ (sampleFunds 1000000) 60000 applied := by
  have used : (sampleMessage.transitionDb sampleEvm (sampleFunds 1000000) 60000).usedGas = some 30700 := by
    decide +kernel
  cases ran : sampleMessage.transitionDb sampleEvm (sampleFunds 1000000) 60000 with
  | done applied =>
    rw [ran] at used
    exact ⟨applied, rfl, Option.some.inj used,
      Message.transitionDb_accounted sampleEvm_conserves rfl (by decide) (by decide) ran⟩
  | failed err state gp => simp [ran, Transition.usedGas] at used
  | panicked => simp [ran, Transition.usedGas] at used

end Anduschain
