import Anduschain.PoolSafety

/-! What the operations of the transaction pool leave alone: the configuration, the state
of the head and its gas limit are fixed between two resets, and the bookkeeping beside the lists
does not touch them. -/
namespace Anduschain
open ByteOrder BinaryHeap

namespace TxPool

structure Setting where
  config : TxPoolConfig
  currentState : StateDB
  currentMaxGas : UInt64

def setting (pool : TxPool) : Setting := ⟨pool.config, pool.currentState, pool.currentMaxGas⟩

variable {σ : Type} (env : PoolEnv σ) (pool : TxPool)

@[simp] theorem setting_setList (shelf : Shelf) (addr : Address) (list : TxList) :
    (pool.setList shelf addr list).setting = pool.setting := by
  cases shelf <;> rfl

@[simp] theorem setting_deleteList (shelf : Shelf) (addr : Address) :
    (pool.deleteList shelf addr).setting = pool.setting := by
  cases shelf <;> rfl

variable (hash : Hash) (txs : List Transaction) (outofbound : Bool) (addr : Address)

@[simp] theorem setting_unlist : (pool.unlist env hash outofbound).setting = pool.setting := by
  cases outofbound <;> rfl

@[simp] theorem setting_lowerPendingNonce (nonce : UInt64) :
    (pool.lowerPendingNonce addr nonce).setting = pool.setting := by
  unfold lowerPendingNonce
  split <;> rfl

theorem setting_forget : (pool.forget env hash).setting = pool.setting := rfl

theorem setting_foldl {α : Type} {f : TxPool → α → TxPool}
    (each : ∀ pool a, (f pool a).setting = pool.setting) (as : List α) :
    (as.foldl f pool).setting = pool.setting := by
  have keeps : ∀ mid a, mid.setting = pool.setting → (f mid a).setting = pool.setting :=
    fun mid a same => (each mid a).trans same
  exact foldl_keeps keeps rfl as

@[simp] theorem setting_forgetAll : (pool.forgetAll env txs).setting = pool.setting :=
  pool.setting_foldl (fun _ _ => setting_forget ..) txs

@[simp] theorem setting_replaced (old : Option Transaction) (tx : Transaction) :
    (pool.replaced env old tx).setting = pool.setting := by
  unfold replaced
  dsimp only
  split
  · exact setting_forgetAll env pool old.toList
  · exact setting_forgetAll env pool old.toList

@[simp] theorem setting_enqueueTx (tx : Transaction) :
    (pool.enqueueTx env tx).1.setting = pool.setting := by
  unfold enqueueTx
  dsimp only
  split <;> simp

@[simp] theorem setting_enqueueAll : (pool.enqueueAll env txs).setting = pool.setting :=
  pool.setting_foldl (fun _ _ => setting_enqueueTx ..) txs

@[simp] theorem setting_tidyPending : (pool.tidyPending addr).setting = pool.setting := by
  unfold tidyPending
  split
  · exact pool.setting_deleteList ..
  · rfl

@[simp] theorem setting_tidyQueue : (pool.tidyQueue addr).setting = pool.setting := by
  unfold tidyQueue
  split
  · exact pool.setting_deleteList ..
  · rfl

@[simp] theorem setting_visit : pool.visit.setting = pool.setting := rfl

@[simp] theorem setting_removeTx : (pool.removeTx env hash outofbound).setting = pool.setting := by
  unfold removeTx
  split
  · rfl
  · dsimp only
    split
    · simp
    · unfold removeQueued
      split <;> simp

@[simp] theorem setting_removeAll : (pool.removeAll env txs outofbound).setting = pool.setting :=
  pool.setting_foldl (fun _ _ => setting_removeTx ..) txs

@[simp] theorem lists_visit : pool.visit.lists = pool.lists := by
  funext shelf
  cases shelf <;> rfl

@[simp] theorem lists_forgetAll : (pool.forgetAll env txs).lists = pool.lists := by
  induction txs generalizing pool with
  | nil => rfl
  | cons tx rest ih =>
    refine (ih (pool.forget env (hashOf env tx))).trans ?_
    funext shelf
    cases shelf <;> rfl

@[simp] theorem lists_record (tx : Transaction) : (pool.record env tx).lists = pool.lists := by
  funext shelf
  cases shelf <;> rfl

@[simp] theorem lists_replaced (old : Option Transaction) (tx : Transaction) :
    (pool.replaced env old tx).lists = pool.lists := by
  unfold replaced
  dsimp only
  split <;> simp

@[simp] theorem lists_unlist : (pool.unlist env hash outofbound).lists = pool.lists := by
  funext shelf
  cases outofbound <;> cases shelf <;> rfl

@[simp] theorem lists_lowerPendingNonce (nonce : UInt64) :
    (pool.lowerPendingNonce addr nonce).lists = pool.lists := by
  unfold lowerPendingNonce
  funext shelf
  cases shelf <;> split <;> rfl

theorem lookup_setList (shelf other : Shelf) (addr a : Address) (list : TxList) :
    ((pool.setList shelf addr list).lists other).lookup a =
      if other = shelf ∧ a = addr then some list else (pool.lists other).lookup a := by
  rw [setList, setLists_lists]
  by_cases same : other = shelf
  · subst same
    by_cases here : a = addr
    · rw [if_pos rfl, if_pos ⟨rfl, here⟩, here, AList.lookup_insert]
    · rw [if_pos rfl, if_neg (fun both => here both.2), AList.lookup_insert_ne here]
  · rw [if_neg same, if_neg (fun both => same both.1)]

theorem lookup_of_deleteList {shelf other : Shelf} {addr a : Address} {list : TxList}
    (found : ((pool.deleteList shelf addr).lists other).lookup a = some list) :
    (pool.lists other).lookup a = some list := by
  rw [deleteList, setLists_lists] at found
  split at found
  · rename_i same
    subst same
    by_cases here : a = addr
    · rw [here, AList.lookup_erase] at found
      cases found
    · rwa [AList.lookup_erase_ne here] at found
  · exact found

end TxPool

end Anduschain
