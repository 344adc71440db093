import Anduschain.VmMemory

/-! What the interpreter charges for the call instructions (core/vm: callGas, the gas functions of
the four instructions and their use in `Run`), and how much of it goes to the callee. -/
namespace Anduschain.Vm
open CheckedSteps UInt64

structure GasTable where
  calls : UInt64
  createBySuicide : UInt64

def callNewAccountGas : UInt64 := 25000

def callValueTransferGas : UInt64 := 9000

def safeAdd (x y : UInt64) : Except GasError UInt64 := do
  rejectIf (0xffffffffffffffff - x < y) .gasUintOverflow
  return x + y

def callGas (gasTable : GasTable) (availableGas base : UInt64) (callCost : ℕ) :
    Except GasError UInt64 :=
  let rest := availableGas - base
  let gas := rest - rest / 64
  if 0 < gasTable.createBySuicide ∧ (2 ^ 64 ≤ callCost ∨ gas < UInt64.ofNat callCost) then .ok gas
  else if 2 ^ 64 ≤ callCost then .error .gasUintOverflow
  else .ok (UInt64.ofNat callCost)

/-- What the gas functions read of the stack, the rules and the called account. The gas asked for
is a big integer. -/
structure Call where
  callCost : ℕ
  transfersValue : Bool
  eip158 : Bool
  empty : Bool
  exist : Bool

def Call.newAccount (call : Call) : Bool :=
  if call.eip158 then call.transfersValue && call.empty else !call.exist

inductive CallOp where
  | call
  | callCode
  | delegateCall
  | staticCall

def CallOp.base (gt : GasTable) (call : Call) : CallOp → UInt64
  | .call => gt.calls + (if call.newAccount then callNewAccountGas else 0) +
      if call.transfersValue then callValueTransferGas else 0
  | .callCode => gt.calls + if call.transfersValue then callValueTransferGas else 0
  | .delegateCall | .staticCall => gt.calls

/-- From the gas of the frame to the cost, `evm.callGasTemp` and the memory. -/
abbrev GasFunc := GasTable → UInt64 → Call → Memory → UInt64 →
  Except GasError (UInt64 × UInt64 × Memory)

/-- The last two instructions add memory and base in the other order. -/
def gasFor (op : CallOp) : GasFunc := fun gt contractGas call mem memorySize => do
  let (fee, mem) ← memoryGasCost mem memorySize
  let gas ← safeAdd (op.base gt call) fee
  let callGasTemp ← callGas gt contractGas gas call.callCost
  let cost ← safeAdd gas callGasTemp
  return (cost, callGasTemp, mem)

def gasCall := gasFor .call

def gasCallCode := gasFor .callCode

def gasDelegateCall := gasFor .delegateCall

def gasStaticCall := gasFor .staticCall

def CallOp.gasCost : CallOp → GasFunc
  | .call => gasCall
  | .callCode => gasCallCode
  | .delegateCall => gasDelegateCall
  | .staticCall => gasStaticCall

/-- The charge of `Run`: the gas left, `evm.callGasTemp` and the memory, or `none` for
ErrOutOfGas. -/
def chargeCall (op : CallOp) (gt : GasTable) (contractGas : UInt64) (call : Call) (mem : Memory)
    (memorySize : UInt64) : Option (UInt64 × UInt64 × Memory) :=
  match op.gasCost gt contractGas call mem memorySize with
  | .error _ => none
  | .ok (cost, callGasTemp, mem) =>
    if contractGas < cost then none
    else some (contractGas - cost, callGasTemp, mem.resize memorySize)

theorem safeAdd_toNat {x y z : UInt64} (added : safeAdd x y = .ok z) :
    z.toNat = x.toNat + y.toNat := by
  simp only [safeAdd, bind_eq_ok, exists_unit, rejectIf_eq_ok, lt_iff_toNat_lt,
    UInt64.toNat_sub, reduceToNat] at added
  obtain ⟨fits, ⟨⟩⟩ := added
  have bound := x.toNat_lt
  rw [UInt64.toNat_add]
  omega

theorem callGas_toNat {gt : GasTable} {gas base forwarded : UInt64} {callCost : ℕ}
    (eip150 : 0 < gt.createBySuicide) (low : base.toNat ≤ gas.toNat)
    (called : callGas gt gas base callCost = .ok forwarded) :
    forwarded.toNat =
      min callCost (gas.toNat - base.toNat - (gas.toNat - base.toNat) / 64) := by
  have rest := UInt64.toNat_sub_of_le _ _ (le_iff_toNat_le.mpr low)
  have bound := gas.toNat_lt
  have most : (gas - base - (gas - base) / 64).toNat =
      gas.toNat - base.toNat - (gas.toNat - base.toNat) / 64 := by
    simp only [UInt64.toNat_sub, UInt64.toNat_div, rest, reduceToNat]
    omega
  simp only [callGas, eip150, true_and, lt_iff_toNat_lt, most, toNat_ofNat'] at called
  split_ifs at called with asked large
  · cases called
    omega
  · cases called
    rw [toNat_ofNat']
    omega

/-- The base cost `b` and the memory are paid, and of the rest the gas asked for is forwarded, or
all but one 64th. -/
def Forwards (op : CallOp) (gt : GasTable) (gas : UInt64) (call : Call) (mem : Memory)
    (memorySize left forwarded : UInt64) : Prop :=
  ∃ fee b, (memoryGasCost mem memorySize).map Prod.fst = .ok fee ∧
    b = (op.base gt call).toNat + fee.toNat ∧ b ≤ gas.toNat ∧
    forwarded.toNat = min call.callCost (gas.toNat - b - (gas.toNat - b) / 64) ∧
    left.toNat + (b + forwarded.toNat) = gas.toNat

/-- Where the base exceeds the gas, the difference wraps, but then the frame cannot pay. -/
theorem chargeCall_forwards (op : CallOp) (gt : GasTable) (gas : UInt64) (call : Call)
    (mem : Memory) (memorySize left forwarded : UInt64) (mem' : Memory)
    (eip150 : 0 < gt.createBySuicide)
    (charged : chargeCall op gt gas call mem memorySize = some (left, forwarded, mem')) :
    Forwards op gt gas call mem memorySize left forwarded := by
  have same : op.gasCost = gasFor op := by cases op <;> rfl
  rw [chargeCall, same] at charged
  split at charged
  · cases charged
  rename_i costs
  split_ifs at charged with short
  cases charged
  simp only [gasFor, bind_eq_ok, Prod.exists] at costs
  obtain ⟨fee, _, remembered, base, based, _, called, _, costs, ⟨⟩⟩ := costs
  have based := safeAdd_toNat based
  have costs := safeAdd_toNat costs
  have enough := UInt64.not_lt.mp short
  have left := UInt64.toNat_sub_of_le _ _ enough
  rw [le_iff_toNat_le] at enough
  have low : base.toNat ≤ gas.toNat := by omega
  exact ⟨fee, base.toNat, by rw [remembered]; rfl, based, low, callGas_toNat eip150 low called,
    by omega⟩

theorem sampleCall_forwards :
    Forwards .call ⟨700, 25000⟩ 100000 ⟨2 ^ 70, true, true, true, false⟩ newMemory 64 1020 64274 :=
  chargeCall_forwards _ _ _ _ _ _ _ _ ⟨64, 6⟩ (by decide) (by decide)

end Anduschain.Vm
