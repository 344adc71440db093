import Anduschain.ChainTypes
import Mathlib.Algebra.BigOperators.Fin
import Mathlib.Algebra.BigOperators.Group.Finset.Piecewise

/-! Accounts of the state database (core/state) with the join nonce the Deb
engine adds, and the sum of all balances. -/
namespace Anduschain
open ByteOrder

structure Account where
  joinNonce : UInt64
  nonce : UInt64
  balance : Int
  code : Bytes
  storage : Hash → Hash

def Account.fresh : Account where
  joinNonce := 0
  nonce := 0
  balance := 0
  code := []
  storage _ := 0

/-- `stateObject.empty`; the join nonce does not count. -/
def Account.empty (acc : Account) : Bool :=
  acc.nonce == 0 && acc.balance == 0 && acc.code.isEmpty

abbrev StateDB := Address → Option Account

namespace StateDB

variable (s : StateDB) (addr : Address) (amount : Int)

def getOrNew (addr : Address) : Account := (s addr).getD .fresh

def put (addr : Address) (acc : Account) : StateDB :=
  fun a => if a = addr then some acc else s a

def getBalance (addr : Address) : Int := (s.getOrNew addr).balance

def getNonce (addr : Address) : UInt64 := (s.getOrNew addr).nonce

def getJoinNonce (addr : Address) : UInt64 := (s.getOrNew addr).joinNonce

def getCode (addr : Address) : Bytes := (s.getOrNew addr).code

def setNonce (addr : Address) (nonce : UInt64) : StateDB :=
  s.put addr { s.getOrNew addr with nonce }

/-- `AddBalance`; the account is created even when nothing is added. -/
def addBalance (addr : Address) (amount : Int) : StateDB :=
  s.put addr { s.getOrNew addr with balance := s.getBalance addr + amount }

/-- `SubBalance`; nothing keeps the balance from becoming negative. -/
def subBalance (addr : Address) (amount : Int) : StateDB :=
  s.put addr { s.getOrNew addr with balance := s.getBalance addr - amount }

/-- The join nonce of a missing account is not counted. -/
def addJoinNonce (addr : Address) : StateDB :=
  match s addr with
  | some acc => s.put addr { acc with joinNonce := acc.joinNonce + 1 }
  | none => s

def resetJoinNonce (addr : Address) : StateDB :=
  match s addr with
  | some acc => s.put addr { acc with joinNonce := 0 }
  | none => s

/-- `CreateAccount`: of an account that exists only the balance is carried over. -/
def createAccount (addr : Address) : StateDB :=
  s.put addr { Account.fresh with balance := s.getBalance addr }

def setCode (addr : Address) (code : Bytes) : StateDB :=
  s.put addr { s.getOrNew addr with code }

def transfer (sender recipient : Address) (amount : Int) : StateDB :=
  (s.subBalance sender amount).addBalance recipient amount

/-- `Finalise`: of the accounts the journal names, the suicided ones are deleted, and the
empty ones on request. -/
def finalise (deleteEmptyObjects : Bool) (dirties suicided : List Address) : StateDB :=
  fun a => (s a).filter fun acc =>
    !(dirties.contains a && (suicided.contains a || (deleteEmptyObjects && acc.empty)))

section

variable (s : StateDB)

theorem getBalance_put (addr a : Address) (acc : Account) :
    (s.put addr acc).getBalance a = if a = addr then acc.balance else s.getBalance a := by
  by_cases same : a = addr <;> simp [getBalance, getOrNew, put, same]

@[simp] theorem getBalance_addBalance (addr a : Address) (amount : Int) :
    (s.addBalance addr amount).getBalance a = s.getBalance a + if a = addr then amount else 0 := by
  rw [addBalance, getBalance_put]
  by_cases same : a = addr <;> simp [same]

@[simp] theorem getBalance_subBalance (addr a : Address) (amount : Int) :
    (s.subBalance addr amount).getBalance a = s.getBalance a - if a = addr then amount else 0 := by
  rw [subBalance, getBalance_put]
  by_cases same : a = addr <;> simp [same]

@[simp] theorem getBalance_addJoinNonce (addr a : Address) :
    (s.addJoinNonce addr).getBalance a = s.getBalance a := by
  unfold addJoinNonce
  split
  · rename_i acc found
    rw [getBalance_put]
    by_cases same : a = addr <;> simp [same, getBalance, getOrNew, found]
  · rfl

@[simp] theorem getBalance_resetJoinNonce (addr a : Address) :
    (s.resetJoinNonce addr).getBalance a = s.getBalance a := by
  unfold resetJoinNonce
  split
  · rename_i acc found
    rw [getBalance_put]
    by_cases same : a = addr <;> simp [same, getBalance, getOrNew, found]
  · rfl

@[simp] theorem getBalance_setNonce (addr a : Address) (nonce : UInt64) :
    (s.setNonce addr nonce).getBalance a = s.getBalance a := by
  rw [setNonce, getBalance_put]
  by_cases same : a = addr <;> simp [same, getBalance]

@[simp] theorem getBalance_createAccount (addr a : Address) :
    (s.createAccount addr).getBalance a = s.getBalance a := by
  rw [createAccount, getBalance_put]
  by_cases same : a = addr <;> simp [same]

@[simp] theorem getBalance_transfer_zero (sender recipient a : Address) :
    (s.transfer sender recipient 0).getBalance a = s.getBalance a := by
  simp [transfer]

theorem getCode_put (addr a : Address) (acc : Account) :
    (s.put addr acc).getCode a = if a = addr then acc.code else s.getCode a := by
  by_cases same : a = addr <;> simp [getCode, getOrNew, put, same]

@[simp] theorem getCode_setNonce (addr a : Address) (nonce : UInt64) :
    (s.setNonce addr nonce).getCode a = s.getCode a := by
  rw [setNonce, getCode_put]
  by_cases same : a = addr <;> simp [same, getCode]

@[simp] theorem getCode_addBalance (addr a : Address) (amount : Int) :
    (s.addBalance addr amount).getCode a = s.getCode a := by
  rw [addBalance, getCode_put]
  by_cases same : a = addr <;> simp [same, getCode]

@[simp] theorem getCode_subBalance (addr a : Address) (amount : Int) :
    (s.subBalance addr amount).getCode a = s.getCode a := by
  rw [subBalance, getCode_put]
  by_cases same : a = addr <;> simp [same, getCode]

@[simp] theorem getNonce_subBalance (addr a : Address) (amount : Int) :
    (s.subBalance addr amount).getNonce a = s.getNonce a := by
  by_cases same : a = addr <;> simp [subBalance, getNonce, getOrNew, put, same]

@[simp] theorem getBalance_finalise (deleteEmptyObjects : Bool)
    (dirties : List Address) (a : Address) :
    (s.finalise deleteEmptyObjects dirties []).getBalance a = s.getBalance a := by
  cases found : s a with
  | none => simp [getBalance, getOrNew, finalise, found]
  | some acc =>
    simp only [getBalance, getOrNew, finalise, found, Option.filter_some]
    split
    · rfl
    · rename_i deleted
      have empty : acc.empty = true := by
        by_contra kept
        simp [kept] at deleted
      simp only [Account.empty, Bool.and_eq_true, beq_iff_eq] at empty
      simp [Account.fresh, empty.1.2]

end

def total : Int := ∑ i : Fin (2 ^ 160), s.getBalance (BitVec.ofFin i)

theorem sum_ite_address :
    (∑ i : Fin (2 ^ 160), if BitVec.ofFin i = addr then amount else 0) = amount := by
  have pick (i : Fin (2 ^ 160)) : BitVec.ofFin i = addr ↔ i = addr.toFin := by
    constructor
    · rintro rfl
      rfl
    · rintro rfl
      rfl
  simp only [pick, Finset.sum_ite_eq', Finset.mem_univ, if_true]

theorem total_addBalance : (s.addBalance addr amount).total = s.total + amount := by
  simp only [total, getBalance_addBalance, Finset.sum_add_distrib, sum_ite_address]

theorem total_subBalance : (s.subBalance addr amount).total = s.total - amount := by
  simp only [total, getBalance_subBalance, Finset.sum_sub_distrib, sum_ite_address]

theorem total_addJoinNonce : (s.addJoinNonce addr).total = s.total := by
  simp only [total, getBalance_addJoinNonce]

theorem total_resetJoinNonce : (s.resetJoinNonce addr).total = s.total := by
  simp only [total, getBalance_resetJoinNonce]

end StateDB

end Anduschain
