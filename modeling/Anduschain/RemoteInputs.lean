import Anduschain.BoundedFloat
import Anduschain.TxPoolRules
import Anduschain.WinningBlock

/-! Panics on what peers send: the reward in the arithmetic of `big.Float` with its infinities,
the check of league blocks, and the handler of `MakeLeagueBlockMsg` (eth/handler.go). A result
`none` is a panic. -/
namespace Anduschain
open ByteOrder CheckedSteps BoundedFloat

def bigFloat : Format where
  precision := 64
  minExp := -2 ^ 31
  maxExp := 2 ^ 31 - 1

namespace BigFloatReward

/-- `infinite` tells which texts denote an infinity, and its sign. -/
structure Env where
  reward : RewardEnv
  infinite : Bytes → Option Bool

def Env.setString (env : Env) (text : Bytes) : Option Value :=
  match env.infinite text with
  | some negative => some (.infinite negative)
  | none => (env.reward.floatText text).map bigFloat.normalize

def rewardTotal (jtxFee : Value) (jCnt : ℕ) : Option Value := do
  let fee ← bigFloat.mul jtxFee (.finite (float64Count jCnt))
  bigFloat.mul (.finite daon) fee

def calRewardAndFnFee (jCnt : ℕ) (jtxFee fnFeeRate : Value) : Option (ℤ × ℤ) := do
  let total ← rewardTotal jtxFee jCnt
  let fnFee ← bigFloat.mul total (bigFloat.quo fnFeeRate 100)
  let mReward ← bigFloat.sub total fnFee
  return (mReward.toInt, fnFee.toInt)

/-- A text that `SetString` rejects is a nil operand of the next operation. -/
def changeJoinNonceAndReword (env : Env) (chainid : ChainId) (engineOtprn : Option Otprn)
    (state : StateDB) (txs : List Transaction) (header : Header) :
    Option (Except RewardError StateDB) :=
  if chainid = .generalId ∨ chainid = .sideId then
    some (.ok (state.addBalance header.coinbase (2 * 10 ^ 18)))
  else if txs = [] then some (.ok state)
  else
    match decodeOtprn (rewardOtprn chainid engineOtprn header) with
    | none => some (.error .decodeOtprn)
    | some otprn => do
        let jtxFee ← env.setString otprn.data.price.joinTxPrice
        let price ← bigFloat.mul (.finite daon) jtxFee
        let (charged, jCnt) := txs.foldl (chargeJoin env.reward price.toInt) (state, 0)
        if jCnt = 0 ∧ chainid ≠ .dvlpNetId then return .error .joinTxNil
        else
          let fnFeeRate ← env.setString otprn.data.fnFee
          let (mReward, fnFee) ← calRewardAndFnFee jCnt jtxFee fnFeeRate
          return .ok (((charged.addBalance header.coinbase mReward).addBalance otprn.fnAddr
            fnFee).resetJoinNonce header.coinbase)

/-- When the reward from an OTPRN's texts returns: both are numbers where needed, and neither zero
is multiplied by infinity nor infinity taken from itself. -/
def Payable (env : Env) (otprn : Otprn) (chainid : ChainId) (jCnt : ℕ) : Prop :=
  ∃ jtxFee, env.setString otprn.data.price.joinTxPrice = some jtxFee ∧
    (jCnt = 0 ∧ chainid ≠ .dvlpNetId ∨
      ∃ fnFeeRate total, env.setString otprn.data.fnFee = some fnFeeRate ∧
        rewardTotal jtxFee jCnt = some total ∧
        (total.isInfinite → (bigFloat.quo fnFeeRate 100).isNegative) ∧
        (total = .finite 0 → ¬ (bigFloat.quo fnFeeRate 100).isInfinite))

theorem calRewardAndFnFee_isSome {jCnt : ℕ} {jtxFee fnFeeRate : Value} :
    (calRewardAndFnFee jCnt jtxFee fnFeeRate).isSome ↔
      ∃ total, rewardTotal jtxFee jCnt = some total ∧
        (total.isInfinite → (bigFloat.quo fnFeeRate 100).isNegative) ∧
        (total = .finite 0 → ¬ (bigFloat.quo fnFeeRate 100).isInfinite) := by
  unfold calRewardAndFnFee
  cases rewardTotal jtxFee jCnt with
  | none => simp
  | some total =>
    simp only [Option.bind_eq_bind, Option.bind_some, Option.some.injEq, exists_eq_left',
      ← Format.share_defined (f := bigFloat)]
    constructor
    · intro returned
      cases part : bigFloat.mul total (bigFloat.quo fnFeeRate 100) with
      | none => simp [part] at returned
      | some fnFee =>
        cases rest : bigFloat.sub total fnFee with
        | none => simp [part, rest] at returned
        | some mReward => exact ⟨_, _, rfl, rest⟩
    · rintro ⟨fnFee, mReward, part, rest⟩
      simp [part, rest]

theorem changeJoinNonceAndReword_isSome {env : Env} {chainid : ChainId}
    {engineOtprn : Option Otprn} {state : StateDB} {txs : List Transaction} {header : Header} :
    (changeJoinNonceAndReword env chainid engineOtprn state txs header).isSome ↔
      chainid = .generalId ∨ chainid = .sideId ∨ txs = [] ∨
        ∀ otprn, decodeOtprn (rewardOtprn chainid engineOtprn header) = some otprn →
          Payable env otprn chainid (joinCount txs) := by
  unfold changeJoinNonceAndReword
  by_cases exempt : chainid = .generalId ∨ chainid = .sideId
  · rw [if_pos exempt]
    simp only [Option.isSome_some, true_iff]
    exact exempt.imp_right .inl
  rw [if_neg exempt]
  simp only [not_or] at exempt
  by_cases empty : txs = []
  · simp [empty]
  simp only [empty, if_false, exempt, false_or]
  cases decodeOtprn (rewardOtprn chainid engineOtprn header) with
  | none => simp
  | some otprn =>
    simp only [Option.some.injEq, forall_eq', Payable]
    cases env.setString otprn.data.price.joinTxPrice with
    | none => simp
    | some jtxFee =>
      obtain ⟨price, charge⟩ : ∃ price, bigFloat.mul (.finite daon) jtxFee = some price := by
        rw [← Option.ne_none_iff_exists', ne_eq, Format.mul_eq_none]
        simp [daon, Value.isInfinite]
      simp only [Option.bind_eq_bind, Option.bind_some, charge, chargeJoins_count, zero_add,
        Option.some.injEq, exists_eq_left']
      by_cases joinless : joinCount txs = 0 ∧ chainid ≠ .dvlpNetId
      · simp [joinless]
      · simp only [joinless, if_false, false_or]
        cases env.setString otprn.data.fnFee with
        | none => simp
        | some fnFeeRate =>
          simp only [Option.bind_some, Option.some.injEq, exists_and_left, exists_eq_left',
            ← calRewardAndFnFee_isSome]
          cases calRewardAndFnFee (joinCount txs) jtxFee fnFeeRate <;> simp

end BigFloatReward

inductive LeagueBlockError where
  | notMatchBlockNumber
  | notMatchOtprn
  | notExistJoinTransaction
  deriving DecidableEq

def findJoinTx (hash : Bytes) : List Transaction → Option (Except LeagueBlockError Unit)
  | [] => some (.error .notExistJoinTransaction)
  | tx :: txs =>
    if tx.txType = joinTx then
      match tx.payloadHash with
      | none => none
      | some phash =>
        if phash.toOption.getD [] = hash then some (.ok ()) else findJoinTx hash txs
    else findJoinTx hash txs

variable (crypto : Crypto)

def validationBlockInJoinTx (header : Header) (txs : List Transaction) :
    Option (Except LeagueBlockError Unit) :=
  findJoinTx (hashBytes (joinDigest crypto header.nonce header.otprn header.coinbase)) txs

/-- `ValidationLeagueBlock`; an engine without an OTPRN compares with an empty list. -/
def validationLeagueBlock (c : Deb) (currentNumber : ℕ) (block : Block) :
    Option (Except LeagueBlockError Unit) :=
  if UInt64.ofNat currentNumber + 1 ≠ block.numberU64 then some (.error .notMatchBlockNumber)
  else if c.otprn.elim [0xc0] Otprn.encodeOtprn ≠ block.header.otprn then some (.error .notMatchOtprn)
  else validationBlockInJoinTx crypto block.header block.transactions

def joinMatches (hash : Bytes) (tx : Transaction) : Bool :=
  tx.txType == joinTx && tx.payloadHash == some (.ok hash)

theorem findJoinTx_isSome {hash : Bytes} {txs : List Transaction} : (findJoinTx hash txs).isSome ↔
    ∀ tx ∈ txs.takeWhile fun tx => !joinMatches hash tx, tx.txType = joinTx →
      32 ≤ tx.payload.length := by
  induction txs with
  | nil => simp [findJoinTx]
  | cons tx txs ih =>
    by_cases join : tx.txType = joinTx
    · have sized := Transaction.payloadHash_isSome join
      have field : tx.payloadHash = (goSlice tx.payload (tx.payload.length - 32)
        tx.payload.length).map .ok := if_pos join
      cases slice : goSlice tx.payload (tx.payload.length - 32) tx.payload.length with
      | none =>
        rw [slice, Option.map_none] at field
        rw [field] at sized
        simp [findJoinTx, join, field, joinMatches, ← sized]
      | some phash =>
        rw [slice, Option.map_some] at field
        rw [field] at sized
        by_cases found : phash = hash
        · simp [findJoinTx, join, field, joinMatches, found, Except.toOption]
        · have long : 32 ≤ tx.payload.length := sized.mp rfl
          simp only [findJoinTx, join, if_true, field, Except.toOption, Option.getD_some, found,
            if_false, ih]
          simp [joinMatches, join, field, found, long]
    · simp only [findJoinTx, join, if_false, ih]
      simp [joinMatches, join]

structure ProtocolManager where
  deb : Bool
  mining : Bool
  currentNumber : ℕ
  possibleWinningBlock : Option Block
  peers : List (String × List Hash)

structure Handled where
  pm : ProtocolManager
  toWorker : Bool
  sent : List String

/-- The `MakeLeagueBlockMsg` case of `handleMsg`. The OTPRN is hashed for a log line before its
decoding error is looked at, and ties are broken by a Deb engine. -/
def handleMakeLeagueBlock (pm : ProtocolManager) (block : Block) : Option Handled :=
  match decodeOtprn block.header.otprn with
  | none => none
  | some otprn =>
    let idle : Handled := { pm, toWorker := pm.mining, sent := [] }
    let announce (receivers : List (String × List Hash)) : Handled :=
      match otprn.validateSignature crypto with
      | .error _ => idle
      | .ok () => { idle with
          pm := { pm with possibleWinningBlock := some block }
          sent := receivers.map Prod.fst }
    if pm.currentNumber < block.header.number then
      match pm.possibleWinningBlock with
      | none => some (announce pm.peers)
      | some pblock =>
        if pblock.header.number < block.header.number then some (announce pm.peers)
        else if !pm.deb then none
        else if (selectWinningBlock (some pblock.header) block.header).hash crypto ≠
            pblock.hash crypto then
          -- the winner is the received block
          some (announce (pm.peers.filter fun peer => block.hash crypto ∉ peer.2))
        else some idle
    else some idle

inductive RemoteCall where
  | verifyHeader (coinbase : Address) (now : ℕ) (chain : ChainReader) (header : Header)
      (parents : List Header) (withSeal : Bool)
  | validationLeagueBlock (c : Deb) (currentNumber : ℕ) (block : Block)
  | validateTx (view : PoolView) (tx : Transaction)
  | changeJoinNonceAndReword (env : BigFloatReward.Env) (chainid : ChainId)
      (engineOtprn : Option Otprn) (state : StateDB) (txs : List Transaction) (header : Header)
  | handleMakeLeagueBlock (pm : ProtocolManager) (block : Block)

namespace RemoteCall

def returns (crypto : Crypto) : RemoteCall → Bool
  | .verifyHeader coinbase now chain header parents withSeal =>
    (some (Anduschain.verifyHeader crypto coinbase now chain header parents withSeal)).isSome
  | .validationLeagueBlock c currentNumber block =>
    (Anduschain.validationLeagueBlock crypto c currentNumber block).isSome
  | .validateTx view tx => (Anduschain.validateTx view tx).isSome
  | .changeJoinNonceAndReword env chainid engineOtprn state txs header =>
    (BigFloatReward.changeJoinNonceAndReword env chainid engineOtprn state txs header).isSome
  | .handleMakeLeagueBlock pm block => (Anduschain.handleMakeLeagueBlock crypto pm block).isSome

def Safe (crypto : Crypto) : RemoteCall → Prop
  | .verifyHeader .. => True
  | .validationLeagueBlock c currentNumber block =>
    UInt64.ofNat currentNumber + 1 = block.numberU64 →
    c.otprn.elim [0xc0] Otprn.encodeOtprn = block.header.otprn →
    let hash := hashBytes
      (joinDigest crypto block.header.nonce block.header.otprn block.header.coinbase)
    ∀ tx ∈ block.transactions.takeWhile fun tx => !joinMatches hash tx, tx.txType = joinTx →
      32 ≤ tx.payload.length
  | .validateTx view tx =>
    (∃ sender, checkSender view tx = .ok sender) → tx.txType = joinTx → 40 ≤ tx.payload.length
  | .changeJoinNonceAndReword env chainid engineOtprn _ txs header =>
    chainid = .generalId ∨ chainid = .sideId ∨ txs = [] ∨
      ∀ otprn, decodeOtprn (rewardOtprn chainid engineOtprn header) = some otprn →
        BigFloatReward.Payable env otprn chainid (joinCount txs)
  | .handleMakeLeagueBlock pm block =>
    (decodeOtprn block.header.otprn).isSome ∧
      (pm.deb ∨ block.header.number ≤ pm.currentNumber ∨
        ∀ pblock, pm.possibleWinningBlock = some pblock → pblock.header.number < block.header.number)

end RemoteCall

theorem validationLeagueBlock_isSome {crypto : Crypto} {c : Deb} {currentNumber : ℕ} {block : Block} :
    (validationLeagueBlock crypto c currentNumber block).isSome ↔
      (RemoteCall.validationLeagueBlock c currentNumber block).Safe crypto := by
  simp only [validationLeagueBlock, RemoteCall.Safe]
  by_cases number : UInt64.ofNat currentNumber + 1 = block.numberU64
  · by_cases otprn : c.otprn.elim [0xc0] Otprn.encodeOtprn = block.header.otprn
    · simp only [number, otprn, ne_eq, not_true_eq_false, if_false, true_imp_iff]
      exact findJoinTx_isSome
    · simp [number, otprn]
  · simp [number]

theorem validateTx_isSome {view : PoolView} {tx : Transaction} :
    (validateTx view tx).isSome ↔ (RemoteCall.validateTx view tx).Safe crypto := by
  simp only [validateTx, RemoteCall.Safe]
  cases checkSender view tx with
  | error e => simp
  | ok sender =>
    by_cases join : tx.txType = joinTx
    · simp [join, Transaction.joinNonce_isSome join]
    · simp only [join, if_false, false_imp_iff, imp_true_iff, iff_true]
      split <;> rfl

theorem handleMakeLeagueBlock_isSome {crypto : Crypto} {pm : ProtocolManager} {block : Block} :
    (handleMakeLeagueBlock crypto pm block).isSome ↔
      (RemoteCall.handleMakeLeagueBlock pm block).Safe crypto := by
  simp only [handleMakeLeagueBlock, RemoteCall.Safe]
  cases decodeOtprn block.header.otprn with
  | none => simp
  | some otprn =>
    simp only [Option.isSome_some, true_and]
    by_cases newer : pm.currentNumber < block.header.number
    · simp only [newer, if_true, Nat.not_le.mpr newer, false_or]
      cases pm.possibleWinningBlock with
      | none => simp
      | some pblock =>
        by_cases later : pblock.header.number < block.header.number
        · simp [later]
        · cases deb : pm.deb with
          | false => simp [later]
          | true =>
            simp only [later, if_false, Bool.not_true, Bool.false_eq_true, true_or, iff_true]
            split <;> rfl
    · simp [newer, Nat.not_lt.mp newer]

/-- Each of the five functions returns exactly on the inputs that are safe for it. -/
theorem remoteCall_returns_iff (crypto : Crypto) (call : RemoteCall) :
    call.returns crypto ↔ call.Safe crypto := by
  cases call with
  | verifyHeader coinbase now chain header parents withSeal => simp [RemoteCall.returns, RemoteCall.Safe]
  | validationLeagueBlock c currentNumber block => exact validationLeagueBlock_isSome
  | validateTx view tx => exact validateTx_isSome crypto
  | changeJoinNonceAndReword env chainid engineOtprn state txs header =>
    exact BigFloatReward.changeJoinNonceAndReword_isSome
  | handleMakeLeagueBlock pm block => exact handleMakeLeagueBlock_isSome

def shortJoin : Transaction := { plainTransfer 0 0 0 with txType := joinTx, price := 0, gasLimit := 0 }

def samplePanics : List RemoteCall := [
  .handleMakeLeagueBlock
    { deb := true, mining := false, currentNumber := 0, possibleWinningBlock := none, peers := [] }
    { header := { sampleHeader with number := 1 }, transactions := [], voters := [] },
  .validationLeagueBlock { rate := 10, otprn := some (sampleOtprn 0xfa) } 0
    { header := { sampleHeader with number := 1, otprn := (sampleOtprn 0xfa).encodeOtprn }
      transactions := [shortJoin]
      voters := [] },
  .validateTx
    { signer := fun _ => .ok 9, currentState := soleAccount 9, currentMaxGas := 0, gasPrice := 0,
      homestead := true } shortJoin,
  .changeJoinNonceAndReword { reward := sampleEnv, infinite := fun _ => none } (.loaded 7) none
    (soleAccount 9) [shortJoin] (sampleJoinHeader [0x78])]

theorem samplePanics_never_return :
    samplePanics.all (fun call => !call.returns sampleCrypto) = true := by decide +kernel

end Anduschain
