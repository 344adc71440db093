import Anduschain.HeaderVerification
import Anduschain.WorldState

/-! The reward of a league block (`ChangeJoinNonceAndReword`): join fees are taken
from the senders one by one and paid out as two shares of a product. Values of
`big.Float` are rationals rounded to the precision of each operation. -/
namespace Anduschain
open ByteOrder BinaryRounding CheckedSteps

/-- A chain identifier, compared by pointer with the variables of package params, so that one read
from a genesis file is none of them. -/
inductive ChainId where
  | generalId
  | sideId
  | dvlpNetId
  | loaded (id : Nat)
  deriving DecidableEq

structure Transaction where
  txType : UInt64
  accountNonce : UInt64
  price : Nat
  gasLimit : UInt64
  recipient : Option Address
  amount : Nat
  payload : Bytes
  v : Nat
  r : Nat
  s : Nat
  deriving DecidableEq

def joinTx : UInt64 := 1

def daon : ℚ := 10 ^ 18

def testOtprnBytes : Bytes := beBytes
  0xf886940eb16fc8e911b30cab0186546bc417376349f8ef9471562b71999873db5b286df957af199ec94617f780d78080823330808080cd30821518887fffffffffffffff80b8413a1dde25d1e9e6923a70877e71a9205170b8aa664d0bd6812db5b9290c73090d095cc94422abd6626e7d17567b4e7a7bbc9e0257e3acb9425656d32f95a866d601

/-- What is left open: the sender a signature recovers to, and the value a text denotes to
`SetString` before it is rounded. -/
structure RewardEnv where
  sender : Transaction → Except String Address
  floatText : Bytes → Option ℚ

inductive RewardError where
  | decodeOtprn
  | joinTxNil
  /-- The nil dereference after a text that `SetString` rejects. -/
  | nilFloat
  deriving DecidableEq

variable (env : RewardEnv)

def RewardEnv.setString (text : Bytes) : Option ℚ :=
  (env.floatText text).map (roundTo 64)

def joinPrice (jtxFee : ℚ) : ℚ := roundTo 64 (daon * jtxFee)

/-- A `float64` counter stops growing at 2^53. -/
def float64Count (n : ℕ) : ℕ := min n (2 ^ 53)

def rewardTotal (jtxFee : ℚ) (jCnt : ℕ) : ℚ :=
  roundTo 64 (daon * roundTo 64 (jtxFee * float64Count jCnt))

variable (jtxFee fnFeeRate : ℚ) (price : ℤ) (joinTxPrice : Bytes) (txs : List Transaction)

def fairnodeShare (jCnt : ℕ) : ℚ :=
  roundTo 64 (rewardTotal jtxFee jCnt * roundTo 64 (fnFeeRate / 100))

def minerShare (jCnt : ℕ) : ℚ :=
  roundTo 64 (rewardTotal jtxFee jCnt - fairnodeShare jtxFee fnFeeRate jCnt)

def calRewardAndFnFee (jCnt : ℕ) (jtxFee fnFeeRate : ℚ) : ℤ × ℤ :=
  (trunc (minerShare jtxFee fnFeeRate jCnt), trunc (fairnodeShare jtxFee fnFeeRate jCnt))

/-- One turn of the loop over the transactions; a sender that does not recover is
the zero address. -/
def chargeJoin (acc : StateDB × ℕ) (tx : Transaction) : StateDB × ℕ :=
  if tx.txType = joinTx then
    let sender := (env.sender tx).toOption.getD 0
    ((acc.1.addJoinNonce sender).subBalance sender price, acc.2 + 1)
  else acc

/-- The OTPRN the reward is computed from: a development engine with the test fairnode's OTPRN
writes the test OTPRN into the header. -/
def rewardOtprn (chainid : ChainId) (engineOtprn : Option Otprn) (header : Header) : Bytes :=
  if chainid = .dvlpNetId ∧ engineOtprn.map Otprn.fnAddr = (decodeOtprn testOtprnBytes).map Otprn.fnAddr
  then testOtprnBytes
  else header.otprn

def changeJoinNonceAndReword (chainid : ChainId) (engineOtprn : Option Otprn)
    (state : StateDB) (txs : List Transaction) (header : Header) : Except RewardError StateDB :=
  if chainid = .generalId ∨ chainid = .sideId then
    .ok (state.addBalance header.coinbase (2 * 10 ^ 18))
  else if txs = [] then .ok state
  else do
    let otprn ← orReject (decodeOtprn (rewardOtprn chainid engineOtprn header)) .decodeOtprn
    let jtxFee ← orReject (env.setString otprn.data.price.joinTxPrice) .nilFloat
    let (charged, jCnt) := txs.foldl (chargeJoin env (trunc (joinPrice jtxFee))) (state, 0)
    rejectIf (jCnt = 0 ∧ chainid ≠ .dvlpNetId) .joinTxNil
    let fnFeeRate ← orReject (env.setString otprn.data.fnFee) .nilFloat
    let (mReward, fnFee) := calRewardAndFnFee jCnt jtxFee fnFeeRate
    .ok (((charged.addBalance header.coinbase mReward).addBalance otprn.fnAddr fnFee).resetJoinNonce
      header.coinbase)

def joinCount : ℕ := txs.countP (·.txType = joinTx)

theorem chargeJoin_total (acc : StateDB × ℕ) (tx : Transaction) :
    (chargeJoin env price acc tx).1.total =
      acc.1.total - price * ((chargeJoin env price acc tx).2 - acc.2 : ℤ) := by
  unfold chargeJoin
  split
  · simp only [StateDB.total_subBalance, StateDB.total_addJoinNonce]
    push_cast
    ring
  · simp

theorem chargeJoins_total (acc : StateDB × ℕ) :
    (txs.foldl (chargeJoin env price) acc).1.total =
      acc.1.total - price * ((txs.foldl (chargeJoin env price) acc).2 - acc.2 : ℤ) := by
  induction txs generalizing acc with
  | nil => simp
  | cons tx txs ih =>
    rw [List.foldl_cons, ih, chargeJoin_total]
    ring

theorem chargeJoins_count (acc : StateDB × ℕ) :
    (txs.foldl (chargeJoin env price) acc).2 = acc.2 + joinCount txs := by
  induction txs generalizing acc with
  | nil => rfl
  | cons tx txs ih =>
    rw [List.foldl_cons, ih, joinCount, joinCount, List.countP_cons, chargeJoin]
    split
    · simp_all
      omega
    · simp_all

def unpaid (jtxFee : ℚ) (n : ℕ) : ℚ := n * (joinPrice jtxFee - trunc (joinPrice jtxFee))

def dropped (n : ℕ) : ℚ :=
  (minerShare jtxFee fnFeeRate n - trunc (minerShare jtxFee fnFeeRate n)) +
    (fairnodeShare jtxFee fnFeeRate n - trunc (fairnodeShare jtxFee fnFeeRate n))

/-- What the roundings of the products add to `n` times the rounded price. -/
def drift (n : ℕ) : ℚ :=
  minerShare jtxFee fnFeeRate n + fairnodeShare jtxFee fnFeeRate n - n * joinPrice jtxFee

section Reward
variable {env : RewardEnv} {chainid : ChainId} {engineOtprn : Option Otprn} {state state' : StateDB}
  {txs : List Transaction} {header : Header} {otprn : Otprn} {jtxFee fnFeeRate : ℚ}

theorem changeJoinNonceAndReword_total (general : chainid ≠ .generalId) (side : chainid ≠ .sideId)
    (decoded : decodeOtprn (rewardOtprn chainid engineOtprn header) = some otprn)
    (price : env.setString otprn.data.price.joinTxPrice = some jtxFee)
    (rate : env.setString otprn.data.fnFee = some fnFeeRate)
    (success : changeJoinNonceAndReword env chainid engineOtprn state txs header = .ok state') :
    state'.total = state.total - trunc (joinPrice jtxFee) * joinCount txs +
      ((calRewardAndFnFee (joinCount txs) jtxFee fnFeeRate).1 +
        (calRewardAndFnFee (joinCount txs) jtxFee fnFeeRate).2) := by
  rw [changeJoinNonceAndReword, if_neg (by simp [general, side])] at success
  split at success
  · rename_i empty
    obtain rfl : state = state' := by simpa using success
    simp [empty, joinCount, calRewardAndFnFee, minerShare, fairnodeShare, rewardTotal, float64Count,
      trunc]
  · simp only [decoded, bind_eq_ok, orReject_eq_ok, Option.some.injEq] at success
    obtain ⟨_, rfl, jtxFee', price', -, -, fnFeeRate', rate', success⟩ := success
    obtain rfl : jtxFee = jtxFee' := Option.some.inj (price.symm.trans price')
    obtain rfl : fnFeeRate = fnFeeRate' := Option.some.inj (rate.symm.trans rate')
    rw [← Except.ok.inj success]
    simp only [StateDB.total_resetJoinNonce, StateDB.total_addBalance, chargeJoins_total,
      chargeJoins_count, zero_add, Nat.cast_zero, sub_zero]
    ring

end Reward

def decimalText (text : Bytes) : Option ℚ :=
  let digits := text.filter (· ≠ 0x2e)
  let fraction := (text.dropWhile (· ≠ 0x2e)).drop 1
  if digits ≠ [] ∧ digits.length + 1 ≥ text.length ∧ digits.all (fun c => 0x30 ≤ c ∧ c ≤ 0x39) then
    some ((digits.foldl (fun n c => n * 10 + (c.toNat - 0x30)) 0 : ℕ) / 10 ^ fraction.length)
  else none

def sampleEnv : RewardEnv where
  sender tx := .ok (bytesToAddress tx.payload)
  floatText := decimalText

def sampleJoins : List Transaction :=
  [[1], [2], [3]].map fun payload =>
    { txType := joinTx, accountNonce := 0, price := 0, gasLimit := 0, recipient := none, amount := 0,
      payload, v := 0, r := 0, s := 0 }

def sampleJoinOtprn : Otprn :=
  { sampleOtprn 0xfa with
    data := { sampleConfig with price := { sampleConfig.price with joinTxPrice } } }

def sampleJoinHeader : Header :=
  { sampleHeader with otprn := (sampleJoinOtprn joinTxPrice).encodeOtprn }

def sampleReward : Except RewardError StateDB :=
  changeJoinNonceAndReword sampleEnv (.loaded 7) none (fun _ => none) sampleJoins
    (sampleJoinHeader joinTxPrice)

theorem sampleReward_decoded {text : Bytes}
    (fits : (sampleJoinOtprn text).encodeOtprn.length < 2 ^ 64) :
    decodeOtprn (rewardOtprn (.loaded 7) none (sampleJoinHeader text)) =
      some (sampleJoinOtprn text) := by
  rw [rewardOtprn, if_neg (by simp)]
  exact decodeOtprn_encodeOtprn _ fits

end Anduschain
