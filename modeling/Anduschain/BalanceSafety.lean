import Anduschain.SignedPostings
import Anduschain.TxPoolRules

/-! Where balances can fall below zero. Gas purchase, transfers, frames and refunds check
what they take; the split of a fee and the join fees of `Finalize` are posted unchecked. -/
namespace Anduschain
open ByteOrder BinaryRounding CheckedSteps SignedPostings List StateDB

namespace StateDB

def Nonneg (s : StateDB) : Prop := ∀ a, 0 ≤ s.getBalance a

variable {s : StateDB} {addr : Address} {amount : Int}

theorem Nonneg.addBalance (h : s.Nonneg) (addr : Address) (credit : 0 ≤ amount) :
    (s.addBalance addr amount).Nonneg := by
  intro a
  rw [getBalance_addBalance]
  have := h a
  split <;> omega

theorem Nonneg.subBalance (h : s.Nonneg) (funds : amount ≤ s.getBalance addr) :
    (s.subBalance addr amount).Nonneg := by
  intro a
  rw [getBalance_subBalance]
  split
  · subst a
    omega
  · simpa using h a

theorem Nonneg.transfer (h : s.Nonneg) (recipient : Address) (credit : 0 ≤ amount)
    (funds : amount ≤ s.getBalance addr) : (s.transfer addr recipient amount).Nonneg :=
  (h.subBalance funds).addBalance recipient credit

theorem Nonneg.of_balance {s' : StateDB} (h : s.Nonneg)
    (same : ∀ a, s'.getBalance a = s.getBalance a) : s'.Nonneg := by
  intro a
  rw [same]
  exact h a

theorem getBalance_setCode (s : StateDB) (addr a : Address) (code : Bytes) :
    (s.setCode addr code).getBalance a = s.getBalance a := by
  rw [setCode, getBalance_put]
  by_cases same : a = addr <;> simp [same, getBalance]

theorem Nonneg.finalise (h : s.Nonneg) (deleteEmptyObjects : Bool) (dirties suicided : List Address) :
    (s.finalise deleteEmptyObjects dirties suicided).Nonneg := by
  intro a
  have held := h a
  simp only [getBalance, getOrNew, StateDB.finalise] at held ⊢
  cases found : s a with
  | none => simp [Account.fresh]
  | some acc =>
    rw [found] at held
    rw [Option.filter_some]
    split
    · exact held
    · simp [Account.fresh]

end StateDB

variable (env : ExecEnv)

def ExecEnv.Solvent : Prop :=
  ∀ header tx contract state, state.Nonneg → (env.interpret header tx contract state).state.Nonneg

section Frames
variable {env : ExecEnv} {header : Header} {tx : Transaction} {sender : Address} {state : StateDB}
  {gas gp : UInt64}

theorem run_nonneg (solvent : env.Solvent) (contract : Contract) (start : state.Nonneg) :
    (env.run header tx contract state).state.Nonneg := by
  unfold ExecEnv.run
  split
  · dsimp only
    split
    · exact start
    · split
      · exact start
      · exact start
  · split
    · exact start
    · exact solvent header tx contract state start

theorem call_nonneg (solvent : env.Solvent) (addr : Address) (start : state.Nonneg) :
    (env.call header tx sender addr state gas).state.Nonneg := by
  unfold ExecEnv.call
  split
  · exact start
  · rename_i funds
    split
    · exact start
    · dsimp only
      generalize opening : (if (state addr).isNone then state.createAccount addr else state) = opened
      have balance (a : Address) : opened.getBalance a = state.getBalance a := by
        rw [← opening]
        split <;> simp
      have moved : (opened.transfer sender addr tx.amount).Nonneg :=
        (start.of_balance balance).transfer addr (by omega) (by rw [balance]; omega)
      split
      · exact run_nonneg solvent _ moved
      · exact start

theorem storeCode_nonneg {frame : Frame} (address : Address) (exceeded : Bool)
    (start : frame.state.Nonneg) : (ExecEnv.storeCode address exceeded frame).state.Nonneg := by
  unfold ExecEnv.storeCode
  split
  · dsimp only
    split
    · exact start
    · exact start.of_balance fun a => getBalance_setCode _ _ a _
  · exact start

theorem create_nonneg (solvent : env.Solvent) (start : state.Nonneg) :
    (env.create header tx sender state gas).state.Nonneg := by
  unfold ExecEnv.create
  dsimp only
  split
  · exact start
  · rename_i funds
    generalize numbering : state.setNonce sender (state.getNonce sender + 1) = numbered
    have balance (a : Address) : numbered.getBalance a = state.getBalance a := by
      rw [← numbering, getBalance_setNonce]
    have numberedNonneg : numbered.Nonneg := start.of_balance balance
    split
    · exact numberedNonneg
    · generalize createAddress env.crypto sender (state.getNonce sender) = address
      generalize opening : (if env.isEIP158 header = true then
        (numbered.createAccount address).setNonce address 1 else numbered.createAccount address) = opened
      have opened_balance (a : Address) : opened.getBalance a = numbered.getBalance a := by
        rw [← opening]
        split <;> simp
      have moved : (opened.transfer sender address tx.amount).Nonneg :=
        (numberedNonneg.of_balance opened_balance).transfer address (by omega)
          (by rw [opened_balance, balance]; omega)
      split
      · exact numberedNonneg
      · exact storeCode_nonneg _ _ (run_nonneg solvent _ moved)

theorem enterEvm_nonneg (solvent : env.Solvent) (start : state.Nonneg) :
    (enterEvm env header tx sender state gas).state.Nonneg := by
  unfold enterEvm
  split
  · exact create_nonneg solvent start
  · exact call_nonneg solvent _ (start.of_balance fun a => getBalance_setNonce _ _ a _)

theorem preCheck_nonneg {bought : StateDB × UInt64} (start : state.Nonneg)
    (checked : preCheck tx sender state gp = .ok bought) : bought.1.Nonneg := by
  simp only [preCheck, buyGas, bind_eq_ok, exists_unit, rejectIf_eq_ok] at checked
  obtain ⟨-, -, funds, -, paid⟩ := checked
  obtain rfl := Except.ok.inj paid
  exact start.subBalance (not_lt.mp funds)

end Frames

def gasLeft (tx : Transaction) (frame : Frame) : UInt64 :=
  let half := (tx.gasLimit - frame.gas) / 2
  frame.gas + if frame.refund < half then frame.refund else half

def refunded (tx : Transaction) (sender : Address) (frame : Frame) : StateDB :=
  frame.state.addBalance sender ((gasLeft tx frame).toNat * tx.price : ℕ)

def feeSplit (rate : ℤ) (header : Header) (tx : Transaction) (frame : Frame) : List (Address × ℤ) :=
  let fees := fairFee ((tx.gasLimit - gasLeft tx frame).toNat * tx.price : ℕ) rate
  [(env.beneficiary header, fees.1), (env.fairAddr, fees.2)]

def rewardPostings (engineOtprn : Option Otprn) (block : Block) : List (Address × ℤ) :=
  if env.chainid = .generalId ∨ env.chainid = .sideId then [(block.header.coinbase, 2 * 10 ^ 18)]
  else if block.transactions = [] then []
  else
    let joins := block.transactions.filter (·.txType = joinTx)
    match decodeOtprn (rewardOtprn env.chainid engineOtprn block.header) with
    | none => []
    | some otprn =>
      match env.reward.setString otprn.data.price.joinTxPrice,
          env.reward.setString otprn.data.fnFee with
      | some jtxFee, some fnFeeRate =>
        if joinCount block.transactions = 0 ∧ env.chainid ≠ .dvlpNetId then []
        else
          let (mReward, fnFee) := calRewardAndFnFee (joinCount block.transactions) jtxFee fnFeeRate
          joins.map (fun tx => ((env.reward.sender tx).toOption.getD 0, -trunc (joinPrice jtxFee))) ++
            [(block.header.coinbase, mReward), (otprn.fnAddr, fnFee)]
      | _, _ => []

def entered (header : Header) (tx : Transaction) (sender : Address) (state : StateDB)
    (gp : UInt64) : Option Frame :=
  match preCheck tx sender state gp with
  | .error _ => none
  | .ok (bought, _) =>
    match useIntrinsicGas env header tx sender bought with
    | .error _ => none
    | .ok gas => some (enterEvm env header tx sender bought gas)

/-- A property of every transaction where `Process` applies it, and of the state it leaves
to `Finalize`. A transaction that fails ends the block. -/
def AlongBlock (env : ExecEnv) (rate : ℤ) (header : Header)
    (each : Transaction → Address → StateDB → UInt64 → Prop) (last : StateDB → Prop) :
    List Transaction → StateDB → UInt64 → Prop
  | [], state, _ => last state
  | tx :: txs, state, gp =>
    ∀ sender applied, env.signer header.number tx = .ok sender →
      applyTransaction env rate header tx state gp = .done applied →
        each tx sender state gp ∧ AlongBlock env rate header each last txs applied.state applied.gp

def BalancesStay (c : Deb) (block : Block) (parent : StateDB) : Prop :=
  AlongBlock env c.rate block.header
    (fun tx sender state gp => ∀ applied,
      transitionDb env c.rate block.header tx sender state gp = .done applied → applied.state.Nonneg)
    (fun state => ∀ final, finalize env c.otprn block state = some final → final.Nonneg)
    block.transactions parent block.header.gasLimit

def PostingsCovered (c : Deb) (block : Block) (parent : StateDB) : Prop :=
  AlongBlock env c.rate block.header
    (fun tx sender state gp => ∀ frame, entered env block.header tx sender state gp = some frame →
      Covered (refunded tx sender frame).getBalance (feeSplit env c.rate block.header tx frame))
    (fun state => ∀ final, finalize env c.otprn block state = some final →
      Covered state.getBalance (rewardPostings env c.otprn block))
    block.transactions parent block.header.gasLimit

section Along
variable {env : ExecEnv} {rate : ℤ} {header : Header} {tx : Transaction} {sender : Address}
  {state : StateDB} {gp : UInt64}

theorem alongBlock_congr {each each' : Transaction → Address → StateDB → UInt64 → Prop}
    {last last' : StateDB → Prop} (inv : StateDB → Prop)
    (agree : ∀ tx sender state gp applied, inv state → env.signer header.number tx = .ok sender →
      applyTransaction env rate header tx state gp = .done applied →
      (each tx sender state gp ↔ each' tx sender state gp))
    (carries : ∀ tx sender state gp applied, inv state → env.signer header.number tx = .ok sender →
      applyTransaction env rate header tx state gp = .done applied → each tx sender state gp →
      inv applied.state)
    (ends : ∀ state, inv state → (last state ↔ last' state)) (txs : List Transaction)
    (start : inv state) :
    AlongBlock env rate header each last txs state gp ↔
      AlongBlock env rate header each' last' txs state gp := by
  induction txs generalizing state gp with
  | nil => exact ends state start
  | cons tx txs ih =>
    simp only [AlongBlock]
    refine forall_congr' fun sender => forall_congr' fun applied => forall_congr' fun signed =>
      forall_congr' fun done => ?_
    rw [← agree tx sender state gp applied start signed done]
    refine and_congr_right fun held => ?_
    exact ih (carries tx sender state gp applied start signed done held)

variable {applied : Applied} {engineOtprn : Option Otprn} {block : Block}

theorem transitionDb_done (done : transitionDb env rate header tx sender state gp = .done applied) :
    ∃ frame, entered env header tx sender state gp = some frame ∧
      ∀ a, applied.state.getBalance a = (refunded tx sender frame).getBalance a +
        net (feeSplit env rate header tx frame) a := by
  unfold transitionDb at done
  unfold entered
  cases checked : preCheck tx sender state gp with
  | error err => simp [checked] at done
  | ok result =>
    obtain ⟨bought, left⟩ := result
    simp only [checked] at done ⊢
    cases intrinsic : useIntrinsicGas env header tx sender bought with
    | error err => simp [intrinsic] at done
    | ok gas =>
      simp only [intrinsic] at done ⊢
      refine ⟨_, rfl, ?_⟩
      generalize enterEvm env header tx sender bought gas = frame at done
      split at done
      · simp at done
      · simp only [settleFee] at done
        generalize addGas _ _ = pool at done
        cases pool with
        | none => simp at done
        | some gp' =>
          simp only [Option.elim_some, TxOutcome.done.injEq] at done
          subst done
          intro a
          simp [feeSplit, refunded, gasLeft, add_assoc]

theorem entered_nonneg (solvent : env.Solvent) (start : state.Nonneg) {frame : Frame}
    (run : entered env header tx sender state gp = some frame) :
    (refunded tx sender frame).Nonneg := by
  unfold entered at run
  split at run
  · simp at run
  · rename_i bought _ checked
    split at run
    · simp at run
    · obtain rfl := Option.some.inj run
      exact (enterEvm_nonneg solvent (preCheck_nonneg start checked)).addBalance sender (by positivity)

theorem transitionDb_nonneg_iff (solvent : env.Solvent) (start : state.Nonneg)
    (done : transitionDb env rate header tx sender state gp = .done applied) :
    applied.state.Nonneg ↔ ∀ frame, entered env header tx sender state gp = some frame →
      Covered (refunded tx sender frame).getBalance (feeSplit env rate header tx frame) := by
  obtain ⟨frame, run, balance⟩ := transitionDb_done done
  simp only [run, Option.some.injEq, forall_eq', covered_iff (entered_nonneg solvent start run),
    StateDB.Nonneg, balance]

theorem applyTransaction_done (signed : env.signer header.number tx = .ok sender)
    (done : applyTransaction env rate header tx state gp = .done applied) :
    ∃ direct, transitionDb env rate header tx sender state gp = .done direct ∧
      applied.state = direct.state.finalise (env.isByzantium header || env.isEIP158 header)
        direct.dirties direct.suicided := by
  simp only [applyTransaction, signed] at done
  split at done
  · rename_i direct _
    simp only [TxOutcome.done.injEq] at done
    exact ⟨direct, ‹_›, by rw [← done]⟩
  · rename_i outcome other
    exact absurd done (by intro same; exact other _ same)

theorem feeSplit_covered (start : state.Nonneg) (low : 0 ≤ rate) (high : rate ≤ 100) (frame : Frame) :
    Covered state.getBalance (feeSplit env rate header tx frame) := by
  apply covered_of_credits start
  have shares (fee : ℕ) : 0 ≤ (fairFee fee rate).1 ∧ 0 ≤ (fairFee fee rate).2 := by
    have below : (fee : ℤ) * rate ≤ fee * 100 := by gcongr
    have above : 0 ≤ (fee : ℤ) * rate := by positivity
    simp only [fairFee]
    omega
  intro p member
  simp only [feeSplit, mem_cons, not_mem_nil, or_false] at member
  rcases member with rfl | rfl
  · exact (shares _).1
  · exact (shares _).2

theorem chargeJoins_balance (price : ℤ) (txs : List Transaction) (acc : StateDB × ℕ) (a : Address) :
    (txs.foldl (chargeJoin env.reward price) acc).1.getBalance a = acc.1.getBalance a +
      net ((txs.filter (·.txType = joinTx)).map fun tx =>
        ((env.reward.sender tx).toOption.getD 0, -price)) a := by
  induction txs generalizing acc with
  | nil => simp
  | cons tx txs ih =>
    rw [foldl_cons, ih, chargeJoin]
    by_cases join : tx.txType = joinTx
    · simp only [join, if_true, decide_true, filter_cons_of_pos, map_cons, net_cons,
        getBalance_subBalance, getBalance_addJoinNonce]
      split <;> ring
    · simp [join]

theorem reward_balance {rewarded : StateDB}
    (success : changeJoinNonceAndReword env.reward env.chainid engineOtprn state block.transactions
      block.header = .ok rewarded) (a : Address) :
    rewarded.getBalance a = state.getBalance a + net (rewardPostings env engineOtprn block) a := by
  unfold rewardPostings
  unfold changeJoinNonceAndReword at success
  by_cases test : env.chainid = .generalId ∨ env.chainid = .sideId
  · rw [if_pos test] at success ⊢
    obtain rfl := Except.ok.inj success
    simp
  · rw [if_neg test] at success ⊢
    by_cases empty : block.transactions = []
    · rw [if_pos empty] at success ⊢
      obtain rfl := Except.ok.inj success
      simp
    · rw [if_neg empty] at success ⊢
      simp only [bind_eq_ok, orReject_eq_ok, exists_unit, rejectIf_eq_ok, chargeJoins_count,
        zero_add] at success
      obtain ⟨otprn, decoded, jtxFee, price, joined, fnFeeRate, rate, paid⟩ := success
      obtain rfl := Except.ok.inj paid
      simp only [decoded, price, rate, joined, if_false, getBalance_resetJoinNonce,
        getBalance_addBalance, chargeJoins_balance, net_append, net_cons, net_nil]
      ring

theorem rewardPostings_error {e : RewardError}
    (failure : changeJoinNonceAndReword env.reward env.chainid engineOtprn state block.transactions
      block.header = .error e) : rewardPostings env engineOtprn block = [] := by
  unfold changeJoinNonceAndReword at failure
  unfold rewardPostings
  by_cases test : env.chainid = .generalId ∨ env.chainid = .sideId
  · simp [test] at failure
  · rw [if_neg test] at failure ⊢
    by_cases empty : block.transactions = []
    · simp [empty] at failure
    · rw [if_neg empty] at failure ⊢
      cases decoded : decodeOtprn (rewardOtprn env.chainid engineOtprn block.header) with
      | none => rfl
      | some otprn =>
        cases price : env.reward.setString otprn.data.price.joinTxPrice with
        | none => simp [price]
        | some jtxFee =>
          cases rate : env.reward.setString otprn.data.fnFee with
          | none => simp [price, rate]
          | some fnFeeRate =>
            by_cases joinless : joinCount block.transactions = 0 ∧ env.chainid ≠ .dvlpNetId
            · simp [price, rate, joinless]
            · simp [decoded, price, rate, orReject, rejectIf, chargeJoins_count, joinless, bind,
                Except.bind] at failure

theorem finalize_balance {final : StateDB}
    (done : finalize env engineOtprn block state = some final) (a : Address) :
    final.getBalance a = state.getBalance a + net (rewardPostings env engineOtprn block) a := by
  unfold finalize at done
  split at done
  · rename_i rewarded success
    obtain rfl := Option.some.inj done
    rw [getBalance_finalise]
    exact reward_balance success a
  · simp at done
  · rename_i e _ failure
    obtain rfl := Option.some.inj done
    rw [rewardPostings_error failure, net_nil, add_zero]

end Along

def sampleJoinTx : Transaction where
  txType := joinTx
  accountNonce := 0
  price := 0
  gasLimit := 0
  recipient := some jtxAddress
  amount := 0
  payload := List.replicate 40 0
  v := 0
  r := 0
  s := 0

def sampleJoinExec : ExecEnv :=
  { sampleExec with
    config := sampleChain.config
    reward := { sampleEnv with sender := fun _ => .ok 9 } }

def sampleJoinBlock : Block where
  header := { sampleHeader with number := 1, otprn := (sampleOtprn 0xfa).encodeOtprn }
  transactions := [sampleJoinTx]
  voters := []

def sampleFunds (balance : ℤ) : StateDB := StateDB.put (fun _ => none) 9 { Account.fresh with balance }

theorem sampleFunds_nonneg {balance : ℤ} (funds : 0 ≤ balance) : (sampleFunds balance).Nonneg := by
  intro a
  rw [sampleFunds, getBalance_put]
  split
  · exact funds
  · exact le_rfl

theorem sampleJoinExec_solvent : sampleJoinExec.Solvent := fun _ _ _ _ start => start

end Anduschain
