import Anduschain.BalanceSafety
import Anduschain.ImportSafety
import Anduschain.MessageGas

/-! Which transactions of a block run below their intrinsic gas: `TransitionDb` waives it by the
recipient, while `Finalize` charges the join price by the type. The gas of a block stays within its limit. -/
namespace Anduschain
open ByteOrder CheckedSteps
open UInt64 (le_iff_toNat_le toNat_sub_of_le lt_iff_toNat_lt)

namespace ExecEnv

/-- No code leaves more gas than it was given. -/
def Metered (env : ExecEnv) : Prop :=
  ∀ header tx contract state, (env.interpret header tx contract state).gas ≤ contract.gas

end ExecEnv

def RunsFree (env : ExecEnv) (header : Header) (tx : Transaction) (sender : Address)
    (state : StateDB) (gp : UInt64) : Prop :=
  ∃ frame prescribed, entered env header tx sender state gp = some frame ∧
    intrinsicGas tx.payload tx.recipient.isNone (env.isHomestead header) = some prescribed ∧
    tx.gasLimit - frame.gas < prescribed

def OnlyJoinsFree (env : ExecEnv) (c : Deb) (block : Block) (parent : StateDB) : Prop :=
  AlongBlock env c.rate block.header
    (fun tx sender state gp => RunsFree env block.header tx sender state gp → tx.txType = joinTx)
    (fun _ => True) block.transactions parent block.header.gasLimit

/-- There is code at the join address, and what it leaves of the gas limit it was called with
covers no part of the intrinsic gas. -/
def JoinCodeBurns (env : ExecEnv) (header : Header) (tx : Transaction) (sender : Address)
    (state : StateDB) : Prop :=
  let bought := state.subBalance sender (tx.gasLimit.toNat * tx.price : ℕ)
  let called := (bought.setNonce sender (bought.getNonce sender + 1)).transfer sender jtxAddress
    tx.amount
  let ran := env.interpret header tx
    { caller := sender, self := jtxAddress, value := tx.amount, code := called.getCode jtxAddress,
      input := tx.payload, gas := tx.gasLimit } called
  state.getCode jtxAddress ≠ [] ∧
    ∀ prescribed,
      intrinsicGas tx.payload tx.recipient.isNone (env.isHomestead header) = some prescribed →
      prescribed ≤ tx.gasLimit -
        if ran.err = none ∨ ran.err = some .executionReverted then ran.gas else 0

def JoinAddressKept (env : ExecEnv) (c : Deb) (block : Block) (parent : StateDB) : Prop :=
  AlongBlock env c.rate block.header
    (fun tx sender state _ => tx.recipient = some jtxAddress →
      tx.txType = joinTx ∨ JoinCodeBurns env block.header tx sender state)
    (fun _ => True) block.transactions parent block.header.gasLimit

section Metering
variable {env : ExecEnv} {header : Header} {tx : Transaction} {sender addr : Address}
  {state : StateDB} {gas gp : UInt64}

theorem revertTo_gas_le {frame : Frame} (snapshot : StateDB) (bound : frame.gas ≤ gas) :
    (frame.revertTo snapshot).gas ≤ gas := by
  unfold Frame.revertTo
  dsimp only
  split
  · exact bound
  · exact UInt64.zero_le

theorem run_gas_le (metered : env.Metered) (contract : Contract) :
    (env.run header tx contract state).gas ≤ contract.gas := by
  unfold ExecEnv.run
  split
  · dsimp only
    split
    · exact UInt64.le_refl _
    · rename_i enough
      have left : contract.gas - (env.precompiles contract.self).requiredGas contract.input ≤
          contract.gas := UInt64.sub_le (UInt64.not_lt.mp enough)
      split <;> exact left
  · split
    · exact UInt64.le_refl _
    · exact metered header tx contract state

theorem call_gas_le (metered : env.Metered) :
    (env.call header tx sender addr state gas).gas ≤ gas := by
  unfold ExecEnv.call
  split
  · exact UInt64.le_refl _
  split
  · exact UInt64.le_refl _
  · dsimp only
    generalize (if (state addr).isNone then state.createAccount addr else state) = opened
    have ran : (env.run header tx
        { caller := sender, self := addr, value := tx.amount,
          code := (opened.transfer sender addr tx.amount).getCode addr, input := tx.payload, gas }
        (opened.transfer sender addr tx.amount)).gas ≤ gas := run_gas_le metered _
    generalize env.run header tx _ _ = frame at ran ⊢
    split
    · exact ran
    · exact revertTo_gas_le _ ran

theorem storeCode_gas_le (address : Address) (exceeded : Bool) {frame : Frame}
    (bound : frame.gas ≤ gas) : (ExecEnv.storeCode address exceeded frame).gas ≤ gas := by
  unfold ExecEnv.storeCode
  split
  · dsimp only
    split
    · exact bound
    · rename_i enough
      exact UInt64.le_trans (UInt64.sub_le (UInt64.not_lt.mp enough)) bound
  · exact bound

theorem create_gas_le (metered : env.Metered) :
    (env.create header tx sender state gas).gas ≤ gas := by
  unfold ExecEnv.create
  dsimp only
  split
  · exact UInt64.le_refl _
  split
  · exact UInt64.zero_le
  · generalize createAddress env.crypto sender (state.getNonce sender) = address
    generalize (if env.isEIP158 header = true then _ else _ : StateDB) = opened
    have ran : (env.run header tx
        { caller := sender, self := address, value := tx.amount, code := tx.payload, input := [], gas }
        (opened.transfer sender address tx.amount)).gas ≤ gas := run_gas_le metered _
    generalize env.run header tx _ _ = frame at ran ⊢
    split
    · exact revertTo_gas_le (state.setNonce sender (state.getNonce sender + 1))
        (storeCode_gas_le _ _ ran)
    · exact storeCode_gas_le _ _ ran

theorem enterEvm_gas_le (metered : env.Metered) :
    (enterEvm env header tx sender state gas).gas ≤ gas := by
  unfold enterEvm
  split
  · exact create_gas_le metered
  · exact call_gas_le metered

theorem useIntrinsicGas_ok (passed : useIntrinsicGas env header tx sender state = .ok gas) :
    ∃ prescribed,
      intrinsicGas tx.payload tx.recipient.isNone (env.isHomestead header) = some prescribed ∧
      (if tx.recipient = some jtxAddress then 0 else prescribed) ≤ tx.gasLimit ∧
      gas = tx.gasLimit - if tx.recipient = some jtxAddress then 0 else prescribed := by
  simp only [useIntrinsicGas, bind_eq_ok, exists_unit, orReject_eq_ok, rejectIf_eq_ok] at passed
  obtain ⟨prescribed, priced, enough, -, left⟩ := passed
  exact ⟨prescribed, priced, UInt64.not_lt.mp enough, (Except.ok.inj left).symm⟩

theorem not_runsFree (metered : env.Metered) (elsewhere : tx.recipient ≠ some jtxAddress) :
    ¬ RunsFree env header tx sender state gp := by
  rintro ⟨frame, prescribed, ran, priced, less⟩
  unfold entered at ran
  cases checked : preCheck tx sender state gp with
  | error err => simp [checked] at ran
  | ok result =>
    cases intrinsic : useIntrinsicGas env header tx sender result.1 with
    | error err => simp [checked, intrinsic] at ran
    | ok gas =>
      simp only [checked, intrinsic, Option.some.injEq] at ran
      obtain ⟨_, same, enough, left⟩ := useIntrinsicGas_ok intrinsic
      obtain rfl := Option.some.inj (priced.symm.trans same)
      rw [if_neg elsewhere] at enough left
      have bound : frame.gas ≤ tx.gasLimit - prescribed := left ▸ ran ▸ enterEvm_gas_le metered
      have limit : frame.gas ≤ tx.gasLimit := UInt64.le_trans bound (UInt64.sub_le enough)
      rw [lt_iff_toNat_lt, toNat_sub_of_le _ _ limit] at less
      rw [le_iff_toNat_le, toNat_sub_of_le _ _ enough] at bound
      rw [le_iff_toNat_le] at enough
      omega

theorem charge_toNat {base count cost : UInt64} (fits : ¬ (maxUint64 - base) / cost < count) :
    (base + count * cost).toNat = base.toNat + count.toNat * cost.toNat := by
  have top : base ≤ maxUint64 := by
    have := base.toNat_lt
    rw [le_iff_toNat_le, maxUint64_toNat]
    omega
  rw [UInt64.not_lt, le_iff_toNat_le, UInt64.toNat_div, toNat_sub_of_le _ _ top,
    maxUint64_toNat] at fits
  have room : count.toNat * cost.toNat ≤ 2 ^ 64 - 1 - base.toNat := Nat.mul_le_of_le_div _ _ _ fits
  have below := base.toNat_lt
  rw [UInt64.toNat_add, UInt64.toNat_mul, Nat.add_mod_mod]
  exact Nat.mod_eq_of_lt (by omega)

theorem intrinsicGas_pos {data : Bytes} {contractCreation homestead : Bool} {prescribed : UInt64}
    (priced : intrinsicGas data contractCreation homestead = some prescribed) : 0 < prescribed := by
  unfold intrinsicGas at priced
  dsimp only at priced
  generalize base_eq : (if (contractCreation && homestead) = true then txGasContractCreation
    else txGas) = base at priced
  have base_pos : 0 < base := by
    rw [← base_eq]
    split <;> decide
  split at priced
  · exact Option.some.inj priced ▸ base_pos
  split at priced
  · simp at priced
  rename_i fits
  split at priced
  · simp at priced
  rename_i fits'
  rw [← Option.some.inj priced, lt_iff_toNat_lt, charge_toNat fits', charge_toNat fits]
  rw [lt_iff_toNat_lt] at base_pos
  exact Nat.add_pos_left (Nat.add_pos_left base_pos _) _

theorem call_join_gas (funds : ¬ state.getBalance sender < tx.amount) :
    (env.call header tx sender jtxAddress state gas).gas =
      if state.getCode jtxAddress = [] then gas
      else
        let called := state.transfer sender jtxAddress tx.amount
        let ran := env.interpret header tx
          { caller := sender, self := jtxAddress, value := tx.amount,
            code := called.getCode jtxAddress, input := tx.payload, gas } called
        if ran.err = none ∨ ran.err = some .executionReverted then ran.gas else 0 := by
  have ordinary : 8 < jtxAddress.toNat := by decide
  unfold ExecEnv.call
  rw [if_neg funds]
  by_cases codeless : state.getCode jtxAddress = []
  · rw [if_pos codeless]
    split
    · rfl
    · dsimp only
      generalize opening : (if (state jtxAddress).isNone then state.createAccount jtxAddress
        else state) = opened
      have code : opened.getCode jtxAddress = [] := by
        rw [← opening]
        split
        · simp [StateDB.createAccount, StateDB.getCode_put, Account.fresh]
        · exact codeless
      rw [run_codeless (by simp [StateDB.transfer, code]) ordinary]
      rfl
  · have present : (state jtxAddress).isNone = false := by
      cases found : state jtxAddress with
      | none => exact absurd (by simp [StateDB.getCode, StateDB.getOrNew, found, Account.fresh]) codeless
      | some acc => rfl
    have other : precompiled (env.runPrecompiles header) jtxAddress = false := by
      have : env.runPrecompiles header ≤ 8 := runPrecompiles_le
      simp only [precompiled, Bool.and_eq_false_iff, decide_eq_false_iff_not]
      omega
    have code : (state.transfer sender jtxAddress tx.amount).getCode jtxAddress ≠ [] := by
      simpa [StateDB.transfer] using codeless
    rw [if_neg codeless]
    simp only [present, Bool.false_and, Bool.false_eq_true, if_false, ExecEnv.run, other, code]
    generalize env.interpret header tx _ _ = ran
    by_cases clean : ran.err = none
    · simp [clean]
    · by_cases reverted : ran.err = some .executionReverted
      · simp [reverted, Frame.revertTo]
      · simp [clean, reverted, Frame.revertTo]

theorem entered_join {rate : ℤ} {applied : Applied} (called : tx.recipient = some jtxAddress)
    (done : transitionDb env rate header tx sender state gp = .done applied) :
    ∃ prescribed,
      intrinsicGas tx.payload tx.recipient.isNone (env.isHomestead header) = some prescribed ∧
      let bought := state.subBalance sender (tx.gasLimit.toNat * tx.price : ℕ)
      let numbered := bought.setNonce sender (bought.getNonce sender + 1)
      entered env header tx sender state gp =
          some (env.call header tx sender jtxAddress numbered tx.gasLimit) ∧
        ¬ numbered.getBalance sender < tx.amount := by
  unfold transitionDb at done
  unfold entered
  cases checked : preCheck tx sender state gp with
  | error err => simp [checked] at done
  | ok result =>
    obtain ⟨bought, left⟩ := result
    have paid : bought = state.subBalance sender (tx.gasLimit.toNat * tx.price : ℕ) := by
      simp only [preCheck, buyGas, bind_eq_ok, exists_unit, rejectIf_eq_ok] at checked
      exact (congrArg Prod.fst (Except.ok.inj checked.2.2.2.2)).symm
    cases intrinsic : useIntrinsicGas env header tx sender bought with
    | error err => simp [checked, intrinsic] at done
    | ok gas =>
      obtain ⟨prescribed, priced, -, all⟩ := useIntrinsicGas_ok intrinsic
      rw [if_pos called, UInt64.sub_zero] at all
      simp only [checked, intrinsic] at done ⊢
      subst paid all
      refine ⟨prescribed, priced, ?_, ?_⟩
      · simp only [enterEvm, called]
      · intro short
        have broke : (enterEvm env header tx sender (state.subBalance sender
            (tx.gasLimit.toNat * tx.price : ℕ)) tx.gasLimit).err = some .insufficientBalance := by
          simp only [enterEvm, called, ExecEnv.call]
          rw [if_pos short]
        rw [if_pos broke] at done
        cases done

theorem runsFree_join_iff {rate : ℤ} {applied : Applied} (called : tx.recipient = some jtxAddress)
    (done : transitionDb env rate header tx sender state gp = .done applied) :
    RunsFree env header tx sender state gp ↔ ¬ JoinCodeBurns env header tx sender state := by
  obtain ⟨prescribed, priced, ran, funds⟩ := entered_join called done
  have left : (env.call header tx sender jtxAddress _ tx.gasLimit).gas = _ := call_join_gas funds
  simp only [StateDB.getCode_setNonce, StateDB.getCode_subBalance] at left
  generalize env.call header tx sender jtxAddress _ tx.gasLimit = frame at ran left
  have free_iff : RunsFree env header tx sender state gp ↔
      tx.gasLimit - frame.gas < prescribed := by
    constructor
    · rintro ⟨_, _, same, again, less⟩
      obtain rfl := Option.some.inj (priced.symm.trans again)
      obtain rfl := Option.some.inj (ran.symm.trans same)
      exact less
    · intro less
      exact ⟨_, prescribed, ran, priced, less⟩
  rw [free_iff, left]
  unfold JoinCodeBurns
  by_cases codeless : state.getCode jtxAddress = []
  · simp only [codeless, if_true, UInt64.sub_self, ne_eq, not_true, false_and, not_false_iff, iff_true]
    exact intrinsicGas_pos priced
  · simp only [codeless, if_false, ne_eq, not_false_iff, true_and, priced, Option.some.injEq,
      forall_eq', UInt64.not_le]

/-- Only join transactions run free in a block exactly when no other transaction is sent to the
join address, code there apart that takes the gas. -/
theorem onlyJoinsFree_iff (env : ExecEnv) (c : Deb) (block : Block) (parent : StateDB)
    (metered : env.Metered) :
    OnlyJoinsFree env c block parent ↔ JoinAddressKept env c block parent := by
  refine alongBlock_congr (fun _ => True) ?_ (fun _ _ _ _ _ _ _ _ _ => trivial)
    (fun _ _ => Iff.rfl) block.transactions trivial
  intro tx sender state gp applied _ signed done
  by_cases called : tx.recipient = some jtxAddress
  · obtain ⟨inner, ran, -⟩ := applyTransaction_done signed done
    rw [runsFree_join_iff called ran]
    constructor
    · intro only _
      by_cases join : tx.txType = joinTx
      · exact .inl join
      · exact .inr (not_not.mp (mt only join))
    · intro kept free
      exact (kept called).resolve_right free
  · constructor
    · intro _ sent
      exact absurd sent called
    · intro _ free
      exact absurd free (not_runsFree metered called)

theorem Message.transitionDb_gas (msg : Message) (evm : Evm) (state : StateDB) (gp : UInt64)
    {deb : DebFees} (configured : evm.deb = some deb)
    (within : ∀ state gas, (msg.enter evm state gas).gas ≤ gas) :
    (∃ err left gp', msg.transitionDb evm state gp = .failed err left gp') ∨
      ∃ applied, msg.transitionDb evm state gp = .done applied ∧
        applied.usedGas.toNat + applied.gp.toNat = gp.toNat := by
  unfold transitionDb
  cases checked : msg.preCheck state gp with
  | error err => exact .inl ⟨_, _, _, rfl⟩
  | ok pair =>
    obtain ⟨room, rfl⟩ := preCheck_eq_ok checked
    dsimp only
    cases intrinsic : msg.useIntrinsicGas evm (msg.bought state) with
    | error err => exact .inl ⟨_, _, _, rfl⟩
    | ok gas =>
      dsimp only
      split
      · exact .inl ⟨_, _, _, rfl⟩
      · have bounded := UInt64.le_trans (within (msg.bought state) gas) (useIntrinsicGas_le intrinsic)
        obtain ⟨applied, done, used, pool, -⟩ := settle_fits configured bounded room
        have left := gasAfterRefund_le bounded
        refine .inr ⟨applied, done, ?_⟩
        rw [used, pool, UInt64.toNat_add, toNat_sub_of_le _ _ left, toNat_sub_of_le _ _ room]
        rw [le_iff_toNat_le] at left room
        have := gp.toNat_lt
        omega

theorem applyTransaction_gas (metered : env.Metered) (rate : ℤ) (tx : Transaction) (state : StateDB)
    (gp : UInt64) :
    (∃ err left, applyTransaction env rate header tx state gp = .failed err left) ∨
      ∃ applied, applyTransaction env rate header tx state gp = .done applied ∧
        applied.usedGas.toNat + applied.gp.toNat = gp.toNat := by
  unfold applyTransaction
  cases env.signer header.number tx with
  | error msg => exact .inl ⟨_, _, rfl⟩
  | ok sender =>
    have within (state : StateDB) (gas : UInt64) :
        ((tx.asMessage sender).enter (env.newEVM rate header tx) state gas).gas ≤ gas := by
      rw [asMessage_enter]
      exact enterEvm_gas_le metered
    rcases Message.transitionDb_gas _ _ state gp rfl within with
      ⟨err, left, gp', failed⟩ | ⟨applied, done, gas⟩
    · exact .inl ⟨err, left, by simp only [transitionDb_eq_asMessage, failed, Transition.outcome]⟩
    · simp only [transitionDb_eq_asMessage, done, Transition.outcome]
      exact .inr ⟨_, rfl, gas⟩

end Metering

def sampleFreeRide : Transaction := { plainTransfer 0 0 0 with
  price := 0
  gasLimit := 0
  recipient := some jtxAddress }

theorem sampleSetup_metered : sampleSetup.exec.Metered := fun _ _ _ _ => UInt64.le_refl _

theorem sampleJoinless_pays :
    OnlyJoinsFree sampleSetup.exec { rate := 10, otprn := none } sampleJoinless (soleAccount 9) := by
  rw [onlyJoinsFree_iff _ _ _ _ sampleSetup_metered]
  refine fun sender applied _ _ => ⟨?_, trivial⟩
  intro sent
  exact absurd sent (by decide)

def sampleFreeBlock : Block := sampleNext (soleAccount 9) [sampleFreeRide] 0

/-- `insertChain` accepts a block with a general transaction that runs free, and no join price
is charged for it. -/
theorem sampleFreeBlock_accepted :
    Accepted sampleSetup.env (sampleFullNode (soleAccount 9)) sampleFreeBlock ∧
      sampleFreeRide.txType ≠ joinTx ∧
      ¬ OnlyJoinsFree sampleSetup.exec { rate := 10, otprn := none } sampleFreeBlock
        (soleAccount 9) := by
  refine ⟨?_, by decide, ?_⟩
  · have ran : (sampleOutcome (soleAccount 9) sampleFreeBlock).any
        (fun outcome => executionError sampleSetup.env sampleFreeBlock outcome = none) = true := by
      decide +kernel
    obtain ⟨outcome, ran, sound⟩ := (Option.any_eq_true _ _).mp ran
    have weighed : (sampleFullNode (soleAccount 9)).chain.totalDifficulty
        ((sampleGenesis (soleAccount 9)).hash sampleCrypto) 0 = some 1 := by decide +kernel
    exact accepted_on_head (by decide +kernel) (by decide +kernel) weighed (by decide +kernel)
      (sampleFullNode_holds _) rfl (by decide +kernel) ran (of_decide_eq_true sound)
  · intro only
    have applies : (applyTransaction sampleSetup.exec 10 sampleFreeBlock.header sampleFreeRide
        (soleAccount 9) sampleFreeBlock.header.gasLimit).applied?.isSome := by decide +kernel
    obtain ⟨applied, found⟩ := Option.isSome_iff_exists.mp applies
    have done := TxOutcome.eq_done found
    obtain ⟨inner, ran, -⟩ := applyTransaction_done rfl done
    have free := (runsFree_join_iff rfl ran).mpr fun burns => burns.1 (by decide)
    exact absurd ((only 9 applied rfl done).1 free) (by decide)

end Anduschain
