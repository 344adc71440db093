import Anduschain.BalanceSafety
import Anduschain.FiniteRun
import Anduschain.JoinNonce

/-! Replay protection: which nonces the transactions of one account carry along a chain of blocks
that `Process` executes, whatever contracts are created and run in between. -/
namespace Anduschain
open ByteOrder CheckedSteps FiniteRun List

namespace StateDB

/-- There is no contract at `a`, and its next transaction takes `nonce`. -/
structure Owned (s : StateDB) (a : Address) (nonce : UInt64) : Prop where
  next : s.getNonce a = nonce
  codeless : s.getCode a = []

section
variable {s : StateDB} {a : Address} {nonce : UInt64} (owned : s.Owned a nonce)
include owned

theorem Owned.put {addr : Address} {acc : Account}
    (same : addr = a → acc.nonce = nonce ∧ acc.code = []) : (s.put addr acc).Owned a nonce := by
  by_cases here : a = addr
  · constructor <;> simp [getNonce, getCode, getOrNew, StateDB.put, here, same here.symm]
  · constructor
    · simpa [getNonce, getOrNew, StateDB.put, here] using owned.next
    · simpa [getCode, getOrNew, StateDB.put, here] using owned.codeless

theorem Owned.addBalance (addr : Address) (amount : Int) :
    (s.addBalance addr amount).Owned a nonce :=
  owned.put fun same => same ▸ ⟨owned.next, owned.codeless⟩

theorem Owned.subBalance (addr : Address) (amount : Int) :
    (s.subBalance addr amount).Owned a nonce :=
  owned.put fun same => same ▸ ⟨owned.next, owned.codeless⟩

theorem Owned.transfer (sender recipient : Address) (amount : Int) :
    (s.transfer sender recipient amount).Owned a nonce :=
  (owned.subBalance sender amount).addBalance recipient amount

theorem Owned.createMissing {addr : Address} (missing : (s addr).isNone) :
    (s.createAccount addr).Owned a nonce := by
  refine owned.put fun same => ⟨?_, rfl⟩
  subst same
  rw [← owned.next, getNonce, getOrNew, Option.isNone_iff_eq_none.mp missing]
  rfl

theorem Owned.numbered (sender : Address) :
    (s.setNonce sender (s.getNonce sender + 1)).Owned a
      (if sender = a then nonce + 1 else nonce) := by
  by_cases same : sender = a
  · subst same
    rw [if_pos rfl, ← owned.next]
    exact ⟨by simp [getNonce, getOrNew, setNonce, StateDB.put], by rw [getCode_setNonce, owned.codeless]⟩
  · rw [if_neg same]
    exact owned.put fun here => absurd here same

theorem Owned.finalise (deleteEmptyObjects : Bool) (dirties : List Address)
    {suicided : List Address} (alive : a ∉ suicided) :
    (s.finalise deleteEmptyObjects dirties suicided).Owned a nonce := by
  obtain ⟨rfl, codeless⟩ := owned
  simp only [getCode, getOrNew] at codeless
  cases found : s a with
  | none => constructor <;> simp [getNonce, getCode, getOrNew, StateDB.finalise, found, Account.fresh]
  | some acc =>
    -- An empty account has the nonce that is read once it is deleted.
    have empty : acc.empty = true → acc.nonce = 0 := by simp +contextual [Account.empty]
    constructor <;>
      simp only [getNonce, getCode, getOrNew, StateDB.finalise, found, Option.filter_some] <;>
      split <;> simp_all [Account.fresh]

end

end StateDB

def Frame.Leaves (frame : Frame) (a : Address) (nonce : UInt64) : Prop :=
  frame.state.Owned a nonce ∧ a ∉ frame.suicided

/-- No contract gets the address `a`, and code that runs elsewhere leaves the account as it is. -/
structure ExecEnv.Spares (env : ExecEnv) (a : Address) : Prop where
  apart : ∀ caller nonce, createAddress env.crypto caller nonce ≠ a
  interpret : ∀ header tx contract state nonce, contract.self ≠ a → state.Owned a nonce →
    (env.interpret header tx contract state).Leaves a nonce

theorem storeCode_leaves {address a : Address} {nonce : UInt64} {exceeded : Bool} {frame : Frame}
    (apart : address ≠ a) (left : frame.Leaves a nonce) :
    (ExecEnv.storeCode address exceeded frame).Leaves a nonce := by
  unfold ExecEnv.storeCode
  split
  · dsimp only
    split
    · exact left
    · exact ⟨left.1.put fun same => absurd same apart, left.2⟩
  · exact left

section Execution
variable {env : ExecEnv} {header : Header} {tx : Transaction} {sender a : Address}
  {state : StateDB} {gas gp nonce : UInt64} {rate : ℤ} {applied : Applied}
  (spares : env.Spares a) (owned : state.Owned a nonce)
include spares owned

theorem run_leaves (contract : Contract) (codeless : contract.self = a → contract.code = []) :
    (env.run header tx contract state).Leaves a nonce := by
  have idle : state.Owned a nonce ∧ a ∉ [] := ⟨owned, not_mem_nil⟩
  unfold ExecEnv.run
  split
  · dsimp only
    split
    · exact idle
    · split <;> exact idle
  · split
    · exact idle
    · rename_i code
      exact spares.interpret _ _ _ _ _ (mt codeless code) owned

theorem call_leaves (addr : Address) : (env.call header tx sender addr state gas).Leaves a nonce := by
  unfold ExecEnv.call
  split
  · exact ⟨owned, not_mem_nil⟩
  split
  · exact ⟨owned, not_mem_nil⟩
  · dsimp only
    generalize opening : (if (state addr).isNone then state.createAccount addr else state) = opened
    have moved : (opened.transfer sender addr tx.amount).Owned a nonce := by
      rw [← opening]
      split
      · exact (owned.createMissing ‹_›).transfer _ _ _
      · exact owned.transfer _ _ _
    split
    · refine run_leaves spares moved _ ?_
      rintro rfl
      exact moved.codeless
    · exact ⟨owned, not_mem_nil⟩

theorem create_leaves
    (funded : (env.create header tx sender state gas).err ≠ some .insufficientBalance) :
    (env.create header tx sender state gas).Leaves a (if sender = a then nonce + 1 else nonce) := by
  have numbered := owned.numbered sender
  have apart := spares.apart sender (state.getNonce sender)
  unfold ExecEnv.create at funded ⊢
  dsimp only at funded ⊢
  split
  · rename_i poor
    simp [poor] at funded
  clear funded
  generalize createAddress env.crypto sender (state.getNonce sender) = address at apart ⊢
  generalize (if sender = a then nonce + 1 else nonce) = next at numbered ⊢
  generalize state.setNonce sender (state.getNonce sender + 1) = counted at numbered ⊢
  split
  · exact ⟨numbered, not_mem_nil⟩
  · have created : (counted.createAccount address).Owned a next :=
      numbered.put fun same => absurd same apart
    have opened : (if env.isEIP158 header then (counted.createAccount address).setNonce address 1
        else counted.createAccount address).Owned a next := by
      split
      · exact created.put fun same => absurd same apart
      · exact created
    generalize (if env.isEIP158 header = true then _ else _ : StateDB) = s at opened ⊢
    split
    · exact ⟨numbered, not_mem_nil⟩
    · exact storeCode_leaves apart
        (run_leaves spares (opened.transfer _ _ _) _ fun same => absurd same apart)

theorem enterEvm_leaves
    (funded : (enterEvm env header tx sender state gas).err ≠ some .insufficientBalance) :
    (enterEvm env header tx sender state gas).Leaves a (if sender = a then nonce + 1 else nonce) := by
  unfold enterEvm at funded ⊢
  split at funded
  · exact create_leaves spares owned funded
  · exact call_leaves spares (owned.numbered sender) _

theorem transitionDb_leaves
    (done : transitionDb env rate header tx sender state gp = .done applied) :
    tx.accountNonce = state.getNonce sender ∧ a ∉ applied.suicided ∧
      applied.state.Owned a (if sender = a then nonce + 1 else nonce) := by
  unfold transitionDb at done
  split at done
  · cases done
  · rename_i bought left checked
    simp only [preCheck, buyGas, bind_eq_ok, exists_unit, rejectIf_eq_ok] at checked
    obtain ⟨low, high, -, -, paid⟩ := checked
    obtain ⟨rfl, -⟩ := Prod.mk.inj (Except.ok.inj paid)
    split at done
    · cases done
    dsimp only at done
    split at done
    · cases done
    · rename_i funded
      obtain ⟨entered, alive⟩ := enterEvm_leaves spares (owned.subBalance sender _) funded
      simp only [settleFee] at done
      generalize addGas _ _ = pool at done
      cases pool with
      | none => cases done
      | some gp' =>
        cases done
        exact ⟨UInt64.le_antisymm (UInt64.not_lt.mp low) (UInt64.not_lt.mp high), alive,
          ((entered.addBalance _ _).addBalance _ _).addBalance _ _⟩

theorem applyTransaction_leaves (signed : env.signer header.number tx = .ok sender)
    (done : applyTransaction env rate header tx state gp = .done applied) :
    tx.accountNonce = state.getNonce sender ∧
      applied.state.Owned a (if sender = a then nonce + 1 else nonce) := by
  obtain ⟨direct, transitioned, same⟩ := applyTransaction_done signed done
  obtain ⟨taken, alive, left⟩ := transitionDb_leaves spares owned transitioned
  exact ⟨taken, same ▸ left.finalise _ _ alive⟩

end Execution

def sentBy (env : ExecEnv) (a : Address) (block : Block) : List Transaction :=
  block.transactions.filter fun tx => (env.signer block.header.number tx).toOption = some a

/-- The account has sent `sent` since its nonce was `start`. -/
structure Counted (start : UInt64) (a : Address) (state : StateDB) (sent : List Transaction) :
    Prop where
  numbered : sent.map (·.accountNonce) = (range sent.length).map (start + UInt64.ofNat ·)
  owned : state.Owned a (start + UInt64.ofNat sent.length)

/-- `Process` of one block after another, each with the engine as it is by then. -/
def processStep (env : ExecEnv) (state : StateDB) (call : Deb × Block) : Option StateDB :=
  ((process env call.1 call.2 state).filter (·.err = none)).map Outcome.state

section Chain
variable {env : ExecEnv} {a : Address} {state after : StateDB} {start : UInt64}
  {sent : List Transaction} (counted : Counted start a state sent)

theorem finalize_owned {engineOtprn : Option Otprn} {block : Block} {nonce : UInt64}
    (owned : state.Owned a nonce) (finalized : finalize env engineOtprn block state = some after) :
    after.Owned a nonce := by
  unfold finalize at finalized
  split at finalized
  · rename_i rewarded success
    have keeps : StateDB.Keeps (fun _ => True) state rewarded := by
      unfold changeJoinNonceAndReword at success
      split at success
      · cases success
        exact .addBalance trivial _
      split at success
      · cases success
        exact .refl
      · simp only [bind_eq_ok, orReject_eq_ok, exists_unit, rejectIf_eq_ok] at success
        obtain ⟨otprn, -, jtxFee, -, -, fnFeeRate, -, success⟩ := success
        cases success
        exact (chargeJoins_keeps _ _ _ (state, 0) fun _ _ => trivial).trans
          (.trans (.addBalance trivial _) (.trans (.addBalance trivial _) (.resetJoinNonce trivial)))
    cases finalized
    exact StateDB.Owned.finalise ⟨(keeps.nonce a).trans owned.next,
      (keeps.code a).trans owned.codeless⟩ _ _ not_mem_nil
  · cases finalized
  · cases finalized
    exact owned

include counted

theorem Counted.sends {tx : Transaction} (taken : tx.accountNonce = state.getNonce a)
    (owned : after.Owned a (start + UInt64.ofNat sent.length + 1)) :
    Counted start a after (sent ++ [tx]) := by
  constructor
  · rw [map_append, counted.numbered, length_append, length_singleton, range_succ, map_append,
      map_singleton, map_singleton, taken, counted.owned.next]
  · rwa [length_append, length_singleton, UInt64.ofNat_add, ← UInt64.add_assoc]

variable (spares : env.Spares a)
include spares

theorem Counted.applyTransactions {rate : ℤ} {header : Header} {txs : List Transaction}
    {gp used : UInt64} {receipts : List Receipt} {outcome : Outcome}
    (ran : applyTransactions env rate header txs state gp used receipts = some outcome)
    (fine : outcome.err = none) : Counted start a outcome.state
      (sent ++ txs.filter fun tx => (env.signer header.number tx).toOption = some a) := by
  induction txs generalizing state gp used receipts sent with
  | nil =>
    cases ran
    simpa using counted
  | cons tx txs ih =>
    rw [Anduschain.applyTransactions] at ran
    split at ran
    · rename_i applied done
      cases signed : env.signer header.number tx with
      | error msg => simp [applyTransaction, signed] at done
      | ok sender =>
        obtain ⟨taken, owned⟩ := applyTransaction_leaves spares counted.owned signed done
        by_cases own : sender = a
        · subst own
          rw [if_pos rfl] at owned
          simpa [signed, Except.toOption] using ih (counted.sends taken owned) ran
        · rw [if_neg own] at owned
          simpa [signed, Except.toOption, own] using ih ⟨counted.numbered, owned⟩ ran
    · cases ran
      cases fine
    · cases ran

theorem Counted.processStep {call : Deb × Block} (stepped : processStep env state call = some after) :
    Counted start a after (sent ++ sentBy env a call.2) := by
  simp only [Anduschain.processStep, process, Option.map_eq_some_iff, Option.filter_eq_some_iff,
    Option.bind_eq_bind, Option.bind_eq_some_iff, decide_eq_true_eq] at stepped
  obtain ⟨_, ⟨⟨outcome, ran, finished⟩, fine⟩, rfl⟩ := stepped
  split at finished
  · rename_i ok
    obtain ⟨final, finalized, same⟩ := Option.bind_eq_some_iff.mp finished
    cases same
    have applied := counted.applyTransactions spares ran ok
    exact ⟨applied.numbered, finalize_owned applied.owned finalized⟩
  · cases finished
    contradiction

theorem Counted.run {chain : List (Deb × Block)}
    (ran : run (Anduschain.processStep env) state chain = some after) :
    Counted start a after (sent ++ chain.flatMap fun call => sentBy env a call.2) := by
  induction chain generalizing state sent with
  | nil =>
    cases ran
    simpa using counted
  | cons call chain ih =>
    obtain ⟨next, stepped, ran⟩ := run_cons.mp ran
    simpa using ih (counted.processStep spares stepped) ran

end Chain

/-- Along every chain that `Process` executes without an error, the transactions of an account
that is no contract carry its nonces one after another. So none is executed twice, unless there
are more than `2 ^ 64`. -/
theorem chain_nonces_consecutive (env : ExecEnv) (a : Address) (parent after : StateDB)
    (chain : List (Deb × Block)) (spares : env.Spares a) (codeless : parent.getCode a = [])
    (ran : run (processStep env) parent chain = some after) :
    let sent := chain.flatMap fun call => sentBy env a call.2
    sent.map (·.accountNonce) = (range sent.length).map (parent.getNonce a + UInt64.ofNat ·) ∧
      after.getNonce a = parent.getNonce a + UInt64.ofNat sent.length ∧
      (sent.length ≤ 2 ^ 64 → (sent.map (·.accountNonce)).Nodup) := by
  have unsent : Counted (parent.getNonce a) a parent [] := ⟨rfl, by simp, codeless⟩
  have counted := unsent.run spares ran
  rw [nil_append] at counted
  refine ⟨counted.numbered, counted.owned.next, fun few => ?_⟩
  rw [counted.numbered]
  refine nodup_range.map_on fun i i_mem j j_mem same => ?_
  have reduced := congrArg UInt64.toNat (UInt64.add_right_inj _ |>.mp same)
  rw [mem_range] at i_mem j_mem
  rw [UInt64.toNat_ofNat', UInt64.toNat_ofNat'] at reduced
  omega

def sampleSparing : ExecEnv := { sampleExec with crypto := { sampleCrypto with keccak := fun _ => 0 } }

def samplePayments : List (Deb × Block) :=
  [plainTransfer 0 0 0, { plainTransfer 0 0 0 with accountNonce := 1, price := 0 }].map fun tx =>
    ({ rate := 10, otprn := none }, lonelyBlock sampleSparing 1 [] tx)

/-- Two blocks with a transfer each. -/
theorem samplePayments_counted :
    ∃ after, run (processStep sampleSparing) (soleAccount 9) samplePayments = some after ∧
      after.getNonce 9 = 2 := by
  have spares : sampleSparing.Spares 9 :=
    ⟨fun _ _ => show bytesToAddress (hashBytes 0) ≠ 9 by decide,
      fun _ _ _ _ _ _ owned => ⟨owned, not_mem_nil⟩⟩
  have evaluated : (run (processStep sampleSparing) (soleAccount 9) samplePayments).isSome := by
    decide +kernel
  obtain ⟨after, ran⟩ := Option.isSome_iff_exists.mp evaluated
  exact ⟨after, ran, (chain_nonces_consecutive sampleSparing 9 _ after _ spares rfl ran).2.1⟩

end Anduschain
