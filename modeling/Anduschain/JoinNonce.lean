import Anduschain.JoinReward

/-! How join nonces evolve under `ChangeJoinNonceAndReword`: each join transaction
counts for its sender, the coinbase starts again from zero, and nothing else of
an account changes but balances. -/
namespace Anduschain
open ByteOrder BinaryRounding CheckedSteps List

namespace StateDB
variable (s : StateDB) (addr a : Address)

theorem getJoinNonce_put (acc : Account) :
    (s.put addr acc).getJoinNonce a = if a = addr then acc.joinNonce else s.getJoinNonce a := by
  by_cases same : a = addr <;> simp [getJoinNonce, getOrNew, put, same]

@[simp] theorem getJoinNonce_addBalance (amount : Int) :
    (s.addBalance addr amount).getJoinNonce a = s.getJoinNonce a := by
  rw [addBalance, getJoinNonce_put]
  by_cases same : a = addr <;> simp [same, getJoinNonce]

@[simp] theorem getJoinNonce_subBalance (amount : Int) :
    (s.subBalance addr amount).getJoinNonce a = s.getJoinNonce a := by
  rw [subBalance, getJoinNonce_put]
  by_cases same : a = addr <;> simp [same, getJoinNonce]

theorem getJoinNonce_addJoinNonce :
    (s.addJoinNonce addr).getJoinNonce a =
      if a = addr ∧ (s addr).isSome then s.getJoinNonce a + 1 else s.getJoinNonce a := by
  unfold addJoinNonce
  split
  · rename_i acc found
    rw [getJoinNonce_put]
    by_cases same : a = addr <;> simp [same, getJoinNonce, getOrNew, found]
  · rename_i missing
    simp [missing]

@[simp] theorem getJoinNonce_resetJoinNonce :
    (s.resetJoinNonce addr).getJoinNonce a = if a = addr then 0 else s.getJoinNonce a := by
  unfold resetJoinNonce
  split
  · rw [getJoinNonce_put]
  · rename_i missing
    by_cases same : a = addr
    · simp [same, getJoinNonce, getOrNew, missing, Account.fresh]
    · simp [same]

/-- What may change of the accounts from `s` to `t`: join nonces and balances, of the
addresses in `touched`. -/
structure Keeps (touched : Address → Prop) (s t : StateDB) : Prop where
  others : ∀ a, ¬ touched a → t a = s a
  nonce : ∀ a, t.getNonce a = s.getNonce a
  code : ∀ a, t.getCode a = s.getCode a
  storage : ∀ a, (t.getOrNew a).storage = (s.getOrNew a).storage

variable {s addr} {touched : Address → Prop} {t u : StateDB}

theorem Keeps.refl : Keeps touched s s :=
  ⟨fun _ _ => rfl, fun _ => rfl, fun _ => rfl, fun _ => rfl⟩

theorem Keeps.trans (first : Keeps touched s t) (second : Keeps touched t u) :
    Keeps touched s u where
  others a out := (second.others a out).trans (first.others a out)
  nonce a := (second.nonce a).trans (first.nonce a)
  code a := (second.code a).trans (first.code a)
  storage a := (second.storage a).trans (first.storage a)

theorem Keeps.put {acc : Account} (within : touched addr)
    (nonce : acc.nonce = s.getNonce addr) (code : acc.code = s.getCode addr)
    (storage : acc.storage = (s.getOrNew addr).storage) : Keeps touched s (s.put addr acc) where
  others a out := by
    have other : a ≠ addr := fun same => out (same ▸ within)
    simp [StateDB.put, other]
  nonce a := by by_cases same : a = addr <;> simp_all [getNonce, getOrNew, StateDB.put]
  code a := by by_cases same : a = addr <;> simp_all [getCode, getOrNew, StateDB.put]
  storage a := by by_cases same : a = addr <;> simp_all [getOrNew, StateDB.put]

theorem Keeps.addBalance (within : touched addr) (amount : Int) :
    Keeps touched s (s.addBalance addr amount) := .put within rfl rfl rfl

theorem Keeps.subBalance (within : touched addr) (amount : Int) :
    Keeps touched s (s.subBalance addr amount) := .put within rfl rfl rfl

theorem Keeps.addJoinNonce (within : touched addr) : Keeps touched s (s.addJoinNonce addr) := by
  unfold StateDB.addJoinNonce
  split
  · rename_i acc found
    exact .put within (by simp [getNonce, getOrNew, found]) (by simp [getCode, getOrNew, found])
      (by simp [getOrNew, found])
  · exact .refl

theorem Keeps.resetJoinNonce (within : touched addr) : Keeps touched s (s.resetJoinNonce addr) := by
  unfold StateDB.resetJoinNonce
  split
  · rename_i acc found
    exact .put within (by simp [getNonce, getOrNew, found]) (by simp [getCode, getOrNew, found])
      (by simp [getOrNew, found])
  · exact .refl

end StateDB

/-- The first result of `tx.Sender`: the zero address where no sender is recovered. -/
def joinSender (env : RewardEnv) (tx : Transaction) : Address := (env.sender tx).toOption.getD 0

def joinsFrom (env : RewardEnv) (txs : List Transaction) (a : Address) : ℕ :=
  txs.countP fun tx => tx.txType = joinTx ∧ joinSender env tx = a

def rewarded (env : RewardEnv) (txs : List Transaction) (header : Header) (otprn : Otprn)
    (a : Address) : Prop :=
  0 < joinsFrom env txs a ∨ a = header.coinbase ∨ a = otprn.fnAddr

/-- How many joins of an address go uncounted: its first, where it had no account. -/
def uncounted (s : StateDB) (a : Address) : ℕ := if (s a).isSome then 0 else 1

section Loop
variable (env : RewardEnv) (price : ℤ) (txs : List Transaction) (acc : StateDB × ℕ) (a : Address)

def joinedBy (tx : Transaction) : ℕ := if tx.txType = joinTx ∧ joinSender env tx = a then 1 else 0

theorem joinsFrom_cons (tx : Transaction) :
    joinsFrom env (tx :: txs) a = joinsFrom env txs a + joinedBy env a tx := by
  simp [joinsFrom, joinedBy, countP_cons]

theorem chargeJoin_of_join {tx : Transaction} (join : tx.txType = joinTx) :
    (chargeJoin env price acc tx).1 =
      (acc.1.addJoinNonce (joinSender env tx)).subBalance (joinSender env tx) price := by
  rw [chargeJoin, if_pos join]
  rfl

theorem chargeJoin_of_other {tx : Transaction} (other : tx.txType ≠ joinTx) :
    chargeJoin env price acc tx = acc := by
  rw [chargeJoin, if_neg other]

theorem chargeJoin_joinNonce (tx : Transaction) :
    (chargeJoin env price acc tx).1.getJoinNonce a =
      acc.1.getJoinNonce a + UInt64.ofNat (joinedBy env a tx - uncounted acc.1 a) := by
  by_cases join : tx.txType = joinTx
  · rw [chargeJoin_of_join env price acc join, StateDB.getJoinNonce_subBalance,
      StateDB.getJoinNonce_addJoinNonce]
    by_cases same : a = joinSender env tx
    · subst same
      by_cases known : (acc.1 (joinSender env tx)).isSome <;> simp [joinedBy, join, uncounted, known]
    · simp [joinedBy, same, Ne.symm same]
  · simp [chargeJoin_of_other env price acc join, joinedBy, join]

theorem chargeJoin_uncounted (tx : Transaction) :
    uncounted (chargeJoin env price acc tx).1 a = uncounted acc.1 a - joinedBy env a tx := by
  by_cases join : tx.txType = joinTx
  · rw [chargeJoin_of_join env price acc join]
    by_cases same : a = joinSender env tx
    · subst same
      have created : uncounted ((acc.1.addJoinNonce (joinSender env tx)).subBalance
          (joinSender env tx) price) (joinSender env tx) = 0 := by
        simp [uncounted, StateDB.subBalance, StateDB.put]
      rw [created]
      simp only [joinedBy, join, and_self, if_true, uncounted]
      split <;> rfl
    · have frame : StateDB.Keeps (· = joinSender env tx) acc.1
          (acc.1.addJoinNonce (joinSender env tx)) := StateDB.Keeps.addJoinNonce rfl
      have kept := frame.others a same
      simp [uncounted, joinedBy, StateDB.subBalance, StateDB.put, same, Ne.symm same, kept]
  · simp [chargeJoin_of_other env price acc join, joinedBy, join]

theorem chargeJoins_joinNonce :
    (txs.foldl (chargeJoin env price) acc).1.getJoinNonce a =
      acc.1.getJoinNonce a + UInt64.ofNat (joinsFrom env txs a - uncounted acc.1 a) := by
  induction txs generalizing acc with
  | nil => simp [joinsFrom]
  | cons tx txs ih =>
    have split : joinsFrom env (tx :: txs) a - uncounted acc.1 a =
        (joinedBy env a tx - uncounted acc.1 a) +
          (joinsFrom env txs a - (uncounted acc.1 a - joinedBy env a tx)) := by
      rw [joinsFrom_cons]
      unfold uncounted joinedBy
      split <;> split <;> omega
    rw [foldl_cons, ih, chargeJoin_joinNonce, chargeJoin_uncounted, split, UInt64.ofNat_add,
      UInt64.add_assoc]

theorem chargeJoins_keeps {touched : Address → Prop}
    (within : ∀ b, 0 < joinsFrom env txs b → touched b) :
    StateDB.Keeps touched acc.1 (txs.foldl (chargeJoin env price) acc).1 := by
  induction txs generalizing acc with
  | nil => exact .refl
  | cons tx txs ih =>
    have rest := ih (chargeJoin env price acc tx) fun b sends =>
      within b (by rw [joinsFrom_cons]; omega)
    refine .trans ?_ rest
    by_cases join : tx.txType = joinTx
    · have sender := within (joinSender env tx) (by simp [joinsFrom_cons, joinedBy, join])
      rw [chargeJoin_of_join env price acc join]
      exact .trans (.addJoinNonce sender) (.subBalance sender price)
    · rw [chargeJoin_of_other env price acc join]
      exact .refl

end Loop

structure JoinEvolution (env : RewardEnv) (txs : List Transaction) (header : Header) (otprn : Otprn)
    (state state' : StateDB) : Prop where
  joinNonce : ∀ a, (state'.getJoinNonce a).toNat =
    if a = header.coinbase then 0 else (state.getJoinNonce a).toNat + joinsFrom env txs a
  keeps : StateDB.Keeps (rewarded env txs header otprn) state state'

section Evolution
variable {env : RewardEnv} {chainid : ChainId} {engineOtprn : Option Otprn} {state state' : StateDB}
  {txs : List Transaction} {header : Header} {otprn : Otprn} (general : chainid ≠ .generalId)
  (side : chainid ≠ .sideId) (joins : 0 < joinCount txs)
  (decoded : decodeOtprn (rewardOtprn chainid engineOtprn header) = some otprn)
  (success : changeJoinNonceAndReword env chainid engineOtprn state txs header = .ok state')
include general side joins decoded success

theorem changeJoinNonceAndReword_cases :
    ∃ price mReward fnFee, state' =
      ((((txs.foldl (chargeJoin env price) (state, 0)).1.addBalance header.coinbase mReward).addBalance
        otprn.fnAddr fnFee).resetJoinNonce header.coinbase) := by
  have nonempty : txs ≠ [] := by
    rintro rfl
    simp [joinCount] at joins
  rw [changeJoinNonceAndReword, if_neg (by simp [general, side]), if_neg nonempty] at success
  simp only [decoded, bind_eq_ok, orReject_eq_ok, Option.some.injEq] at success
  obtain ⟨_, rfl, jtxFee, -, -, -, fnFeeRate, -, success⟩ := success
  exact ⟨_, _, _, (Except.ok.inj success).symm⟩

theorem changeJoinNonceAndReword_joinNonce (a : Address) :
    state'.getJoinNonce a = if a = header.coinbase then 0 else
      state.getJoinNonce a + UInt64.ofNat (joinsFrom env txs a - uncounted state a) := by
  obtain ⟨price, mReward, fnFee, rfl⟩ :=
    changeJoinNonceAndReword_cases general side joins decoded success
  simp only [StateDB.getJoinNonce_resetJoinNonce, StateDB.getJoinNonce_addBalance,
    chargeJoins_joinNonce]

theorem changeJoinNonceAndReword_keeps :
    StateDB.Keeps (rewarded env txs header otprn) state state' := by
  obtain ⟨price, mReward, fnFee, rfl⟩ :=
    changeJoinNonceAndReword_cases general side joins decoded success
  have coinbase : rewarded env txs header otprn header.coinbase := .inr (.inl rfl)
  exact (chargeJoins_keeps env price txs (state, 0) fun b sends => .inl sends).trans
    (.trans (.addBalance coinbase mReward)
      (.trans (.addBalance (.inr (.inr rfl)) fnFee) (.resetJoinNonce coinbase)))

end Evolution

theorem counted_toNat_iff (state : StateDB) (a : Address) (n : ℕ) :
    (state.getJoinNonce a + UInt64.ofNat (n - uncounted state a)).toNat =
        (state.getJoinNonce a).toNat + n ↔
      (0 < n → (state a).isSome ∧ (state.getJoinNonce a).toNat + n < 2 ^ 64) := by
  have fits := (state.getJoinNonce a).toNat_lt
  rw [UInt64.toNat_add, UInt64.toNat_ofNat']
  cases found : state a with
  | none =>
    have zero : state.getJoinNonce a = 0 := by
      simp [StateDB.getJoinNonce, StateDB.getOrNew, found, Account.fresh]
    simp only [uncounted, found, zero, Option.isSome_none, Bool.false_eq_true, if_false, false_and,
      imp_false, UInt64.toNat_zero, not_lt]
    omega
  | some acc =>
    simp only [uncounted, found, Option.isSome_some, if_true, true_and, Nat.sub_zero]
    omega

def sampleAccounts : StateDB := fun a => if a = 1 ∨ a = 2 ∨ a = 3 then some .fresh else none

def sampleJoined (state : StateDB) : Except RewardError StateDB :=
  changeJoinNonceAndReword sampleEnv (.loaded 7) none state sampleJoins (sampleJoinHeader [0x31])

theorem sampleJoins_sender {a : Address} (sends : 0 < joinsFrom sampleEnv sampleJoins a) :
    (a = 1 ∨ a = 2 ∨ a = 3) ∧ joinsFrom sampleEnv sampleJoins a = 1 := by
  obtain ⟨tx, sent, join⟩ := countP_pos_iff.mp sends
  simp only [sampleJoins, map_cons, map_nil, mem_cons, not_mem_nil, or_false] at sent
  rcases sent with rfl | rfl | rfl
  all_goals
    obtain ⟨-, rfl⟩ := of_decide_eq_true join
    decide +kernel

end Anduschain
