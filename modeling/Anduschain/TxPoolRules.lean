import Anduschain.BlockBody

/-! Admission to the transaction pool (`validateTx` of core/tx_pool.go): the checks every
transaction passes, and those of its type. -/
namespace Anduschain
open ByteOrder CheckedSteps

structure PoolView where
  signer : Transaction → Except String Address
  currentState : StateDB
  currentMaxGas : UInt64
  gasPrice : ℤ
  homestead : Bool

inductive PoolError where
  | oversizedData
  | gasLimit
  | invalidSender
  | insufficientFunds
  | nonceTooLow
  | joinField (msg : String)
  | joinNonceNotMatch
  | underpriced
  | outOfGas
  | intrinsicGas
  | notSupportTransactionType
  | knownTransaction (hash : Hash)
  | replaceUnderpriced
  deriving DecidableEq

def maxTxSize : ℕ := 32 * 1024

variable (view : PoolView) (tx : Transaction)

/-- The checks that precede the switch on the type; a value is never negative here. -/
def checkSender : Except PoolError Address := do
  rejectIf (maxTxSize < tx.size) .oversizedData
  rejectIf (view.currentMaxGas < tx.gasLimit) .gasLimit
  let sender ← (view.signer tx).mapError fun _ => .invalidSender
  rejectIf (view.currentState.getBalance sender < tx.cost) .insufficientFunds
  rejectIf (tx.accountNonce < view.currentState.getNonce sender) .nonceTooLow
  return sender

/-- The rule for general and Ethereum transactions: the pool's price, then their own gas. -/
def checkPrice : Except PoolError Unit := do
  rejectIf ((tx.price : ℤ) < view.gasPrice) .underpriced
  let intrGas ← orReject (intrinsicGas tx.payload tx.recipient.isNone view.homestead) .outOfGas
  rejectIf (tx.gasLimit < intrGas) .intrinsicGas

def checkJoinNonce (sender : Address) (field : Except String UInt64) :
    Except PoolError Unit := do
  let jnonce ← field.mapError .joinField
  rejectIf (view.currentState.getJoinNonce sender ≠ jnonce) .joinNonceNotMatch

def priceRuled : Bool := tx.txType == generalTx || tx.txType == ethTx

/-- `validateTx`; `none` is the panic of `JoinNonce` on a short payload. -/
def validateTx : Option (Except PoolError Unit) :=
  match checkSender view tx with
  | .error e => some (.error e)
  | .ok sender =>
    if tx.txType = joinTx then tx.joinNonce.map (checkJoinNonce view sender)
    else if priceRuled tx then some (checkPrice view tx)
    else some (.error .notSupportTransactionType)

section Admitted
variable {view : PoolView} {tx : Transaction}

theorem validateTx_type (admitted : validateTx view tx = some (.ok ())) :
    tx.txType = joinTx ∨ priceRuled tx = true := by
  unfold validateTx at admitted
  split at admitted
  · simp at admitted
  · split at admitted
    · exact .inl ‹_›
    · split at admitted
      · exact .inr ‹_›
      · simp at admitted

theorem validateTx_signed (admitted : validateTx view tx = some (.ok ())) :
    ∃ sender, view.signer tx = .ok sender := by
  unfold validateTx at admitted
  split at admitted
  · simp at admitted
  · rename_i sender checked
    simp only [checkSender, bind_eq_ok, mapError_eq_ok] at checked
    obtain ⟨-, -, -, -, found, signed, -⟩ := checked
    exact ⟨found, signed⟩

theorem priceRuled_ne_join (ruled : priceRuled tx = true) : tx.txType ≠ joinTx := by
  intro join
  rw [priceRuled, join] at ruled
  exact absurd ruled (by decide)

end Admitted

end Anduschain
