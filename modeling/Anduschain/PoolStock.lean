import Anduschain.PoolEffects
import Anduschain.TxListCaps

/-! What may lie on the shelves of the transaction pool, as a property of single transactions.
Every operation keeps it, whatever it is, if validated transactions have it and if it follows a
transaction from shelf to shelf. Nothing is asked of numbers or nonces. -/
namespace Anduschain
open ByteOrder List TxPool

def TxPool.Setting.Pays (s : TxPool.Setting) (addr : Address) (tx : Transaction) : Prop :=
  tx.Within (s.currentState.getBalance addr) s.currentMaxGas

structure TxPool.Setting.Alive (s : TxPool.Setting) (addr : Address) (tx : Transaction) : Prop where
  fresh : s.currentState.getNonce addr ≤ tx.accountNonce
  pays : s.Pays addr tx

section
variable {σ : Type} {env : PoolEnv σ} {s : TxPool.Setting}

structure Stock (env : PoolEnv σ) (s : TxPool.Setting) where
  admits : Shelf → Transaction → Prop
  enter : ∀ pool : TxPool, pool.setting = s → ∀ tx, validateTx (pool.view env) tx = some (.ok ()) →
    ∀ shelf, admits shelf tx
  lower : ∀ x, admits .pending x → admits .queue x
  raise : ∀ x, admits .queue x → s.Alive (senderOf env x) x → admits .pending x

/-- An account's list, as `newTxList` and `Add` leave it, of its own transactions that may lie
on the shelf. -/
structure Stock.Holds (k : Stock env s) (shelf : Shelf) (addr : Address) (list : TxList) : Prop where
  strict : list.strict = decide (shelf = .pending)
  capped : list.Capped
  within : ∀ x ∈ list.flatten, senderOf env x = addr ∧ k.admits shelf x

structure InStock (k : Stock env s) (pool : TxPool) : Prop where
  setting : pool.setting = s
  lists : ∀ shelf addr list, (pool.lists shelf).lookup addr = some list → k.Holds shelf addr list

end

namespace Stock.Holds
variable {σ : Type} {env : PoolEnv σ} {s : TxPool.Setting} {k : Stock env s} {shelf : Shelf}
  {addr : Address} {list kept : TxList} {tx : Transaction} (holds : k.Holds shelf addr list)
include holds

theorem fewer (strict : kept.strict = list.strict)
    (capped : kept.Capped) (inside : ∀ x ∈ kept.flatten, x ∈ list.flatten) :
    k.Holds shelf addr kept :=
  ⟨strict.trans holds.strict, capped, fun x member => holds.within x (inside x member)⟩

theorem withTxs {out : List Transaction × TxSortedMap}
    (splits : list.txs.Splits out) : k.Holds shelf addr (list.withTxs out).2 :=
  holds.fewer rfl (holds.capped.withTxs splits) fun _ member => splits.mem_iff.mpr (.inr member)

theorem forward (threshold : UInt64) : k.Holds shelf addr (list.forward threshold).2 :=
  holds.withTxs (list.txs.forward_splits threshold)

theorem cap (threshold : ℕ) : k.Holds shelf addr (list.cap threshold).2 :=
  holds.withTxs (list.txs.cap_splits threshold)

theorem ready (start : UInt64) : k.Holds shelf addr (list.ready start).2 :=
  holds.withTxs (list.txs.ready_splits start)

theorem add (sender : senderOf env tx = addr)
    (admitted : k.admits shelf tx) {bump : UInt64} {old : Option Transaction}
    (added : list.add tx bump = some (old, kept)) : k.Holds shelf addr kept := by
  obtain ⟨-, txs, strict⟩ := TxList.add_eq_some added
  refine ⟨strict.trans holds.strict, holds.capped.add added, fun x member => ?_⟩
  rw [TxList.flatten, txs, TxSortedMap.mem_put] at member
  rcases member with rfl | ⟨inside, -⟩
  · exact ⟨sender, admitted⟩
  · exact holds.within x inside

theorem remove {invalids : List Transaction} (removed : list.remove tx = some (invalids, kept)) :
    k.Holds shelf addr kept ∧ ∀ x ∈ invalids, x ∈ list.flatten := by
  obtain ⟨-, same⟩ := Option.ite_none_right_eq_some.mp removed
  have parts := TxList.invalidate_splits
    { list with txs := list.txs.remove tx.accountNonce } tx.accountNonce
  have strict := (TxList.invalidate_strict
    { list with txs := list.txs.remove tx.accountNonce } tx.accountNonce).1
  rw [Option.some.inj same] at parts strict
  have inside {x : Transaction} (member : x ∈ invalids ∨ x ∈ kept.flatten) : x ∈ list.flatten :=
    (TxSortedMap.mem_remove.mp (parts.mem_iff.mpr member)).1
  exact ⟨holds.fewer strict (holds.capped.remove removed) fun x member => inside (.inr member),
    fun x member => inside (.inl member)⟩

end Stock.Holds

namespace InStock
variable {σ : Type} {env : PoolEnv σ} {s : TxPool.Setting} {k k' : Stock env s}
  {pool pool' : TxPool} {shelf : Shelf} {addr : Address} {tx : Transaction}

section

variable (stocked : InStock k pool)
include stocked

theorem listed {x : Transaction} (member : x ∈ listed (pool.lists shelf) addr) :
    senderOf env x = addr ∧ k.admits shelf x := by
  rw [Anduschain.listed] at member
  cases found : (pool.lists shelf).lookup addr with
  | none =>
    rw [found] at member
    cases member
  | some list =>
    rw [found] at member
    exact (stocked.lists shelf addr list found).within x member

theorem openList (shelf : Shelf) (addr : Address) :
    k.Holds shelf addr (pool.openList shelf addr) := by
  unfold TxPool.openList
  cases found : (pool.lists shelf).lookup addr with
  | none => exact ⟨rfl, .new _, fun x member => (not_mem_nil member).elim⟩
  | some list => exact stocked.lists shelf addr list found

theorem under (learns : ∀ shelf addr, ∀ x ∈ Anduschain.listed (pool.lists shelf) addr,
      senderOf env x = addr → k.admits shelf x → k'.admits shelf x) : InStock k' pool where
  setting := stocked.setting
  lists shelf addr list found := by
    obtain ⟨strict, capped, within⟩ := stocked.lists shelf addr list found
    refine ⟨strict, capped, fun x member => ?_⟩
    obtain ⟨sender, admitted⟩ := within x member
    refine ⟨sender, learns shelf addr x ?_ sender admitted⟩
    rw [Anduschain.listed, found]
    exact member

theorem learn (alive : ∀ x ∈ Anduschain.listed (pool.lists shelf) addr, s.Alive addr x)
    (learns : ∀ place x, k.admits place x →
      (place = shelf → senderOf env x = addr → s.Alive addr x) → k'.admits place x) :
    InStock k' pool := by
  refine stocked.under fun place a x member sender admitted => learns place x admitted ?_
  rintro rfl here
  rw [sender] at here
  exact alive x (here ▸ member)

theorem of_kept (setting : pool'.setting = pool.setting)
    (kept : ∀ shelf addr list, (pool'.lists shelf).lookup addr = some list →
      (pool.lists shelf).lookup addr = some list) : InStock k pool' :=
  ⟨setting.trans stocked.setting,
    fun shelf addr list found => stocked.lists shelf addr list (kept shelf addr list found)⟩

theorem of_lists (setting : pool'.setting = pool.setting)
    (lists : pool'.lists = pool.lists) : InStock k pool' :=
  stocked.of_kept setting fun shelf addr list found => by rwa [lists] at found

theorem visit : InStock k pool.visit :=
  stocked.of_lists rfl (lists_visit pool)

theorem forgetAll (txs : List Transaction) : InStock k (pool.forgetAll env txs) :=
  stocked.of_lists (setting_forgetAll ..) (lists_forgetAll ..)

theorem replaced (old : Option Transaction) (tx : Transaction) :
    InStock k (pool.replaced env old tx) :=
  stocked.of_lists (setting_replaced ..) (lists_replaced ..)

theorem reprice (priced : TxPricedList) : InStock k { pool with priced } :=
  stocked.of_lists rfl (by funext shelf; cases shelf <;> rfl)

theorem setList {list : TxList} (holds : k.Holds shelf addr list) :
    InStock k (pool.setList shelf addr list) where
  setting := (setting_setList ..).trans stocked.setting
  lists other a l found := by
    rw [lookup_setList] at found
    split at found
    · rename_i here
      obtain ⟨rfl, rfl⟩ := here
      cases found
      exact holds
    · exact stocked.lists other a l found

theorem tidyPending (addr : Address) : InStock k (pool.tidyPending addr) := by
  refine stocked.of_kept (setting_tidyPending ..) fun shelf a list found => ?_
  unfold TxPool.tidyPending at found
  split at found
  · exact pool.lookup_of_deleteList (by cases shelf <;> exact found)
  · exact found

theorem tidyQueue (addr : Address) : InStock k (pool.tidyQueue addr) := by
  refine stocked.of_kept (setting_tidyQueue ..) fun shelf a list found => ?_
  unfold TxPool.tidyQueue at found
  split at found
  · exact pool.lookup_of_deleteList found
  · exact found

theorem lowerPendingNonce (addr : Address) (nonce : UInt64) :
    InStock k (pool.lowerPendingNonce addr nonce) :=
  stocked.of_lists (setting_lowerPendingNonce ..) (lists_lowerPendingNonce ..)

theorem enqueueTx (admitted : k.admits .queue tx) : InStock k (pool.enqueueTx env tx).1 := by
  have holds := stocked.openList .queue (senderOf env tx)
  unfold TxPool.enqueueTx
  dsimp only
  split
  · exact stocked.setList holds
  · rename_i old list added
    exact (stocked.setList (holds.add rfl admitted added)).replaced old tx

end

variable {txs : List Transaction} {byLocal : Bool}

section

variable (stocked : InStock k pool)
include stocked

theorem enqueueAll
    (admitted : ∀ tx ∈ txs, k.admits .queue tx) : InStock k (pool.enqueueAll env txs) := by
  induction txs generalizing pool with
  | nil => exact stocked
  | cons tx rest ih =>
    exact ih (stocked.enqueueTx (admitted tx mem_cons_self)) fun tx member =>
      admitted tx (mem_cons_of_mem _ member)

theorem promoteTx (sender : senderOf env tx = addr)
    (admitted : k.admits .pending tx) : InStock k (pool.promoteTx env addr tx).1 := by
  have holds := stocked.openList .pending addr
  unfold TxPool.promoteTx
  dsimp only
  split
  · exact (stocked.setList holds).of_lists rfl (by funext shelf; cases shelf <;> rfl)
  · rename_i old list added
    have placed := (stocked.setList (holds.add sender admitted added)).replaced old tx
    exact placed.of_lists rfl (by funext shelf; cases shelf <;> rfl)

theorem promoteAll (admitted : ∀ tx ∈ txs, senderOf env tx = addr ∧ k.admits .pending tx) :
    InStock k (txs.foldl (fun pool tx => (pool.promoteTx env addr tx).1) pool) := by
  induction txs generalizing pool with
  | nil => exact stocked
  | cons tx rest ih =>
    obtain ⟨sender, here⟩ := admitted tx mem_cons_self
    exact ih (stocked.promoteTx sender here) fun tx member =>
      admitted tx (mem_cons_of_mem _ member)

theorem removeQueued (addr : Address) (tx : Transaction) :
    InStock k (pool.removeQueued addr tx) := by
  unfold TxPool.removeQueued
  split
  · exact stocked
  · rename_i future found
    have holds : k.Holds .queue addr future := stocked.lists .queue addr future found
    refine (stocked.setList ?_).tidyQueue addr
    cases removed : future.remove tx with
    | none => exact holds
    | some out => exact (holds.remove removed).1

theorem removeTx (hash : Hash) (outofbound : Bool) :
    InStock k (pool.removeTx env hash outofbound) := by
  unfold TxPool.removeTx
  split
  · exact stocked
  · rename_i tx _
    dsimp only
    have unlisted := stocked.of_lists (setting_unlist env pool hash outofbound) (lists_unlist ..)
    generalize pool.unlist env hash outofbound = mid at unlisted
    split
    · rename_i invalids list removed
      obtain ⟨before, found, removed⟩ := Option.bind_eq_some_iff.mp removed
      have holds : k.Holds .pending (senderOf env tx) before :=
        unlisted.lists .pending _ before found
      obtain ⟨kept, inside⟩ := holds.remove removed
      have tidy := (unlisted.setList kept).tidyPending (senderOf env tx)
      refine (tidy.visit.enqueueAll fun x member => ?_).lowerPendingNonce _ _
      exact k.lower x (holds.within x (inside x ((env.txOrder_perm _ _).mem_iff.mp member))).2
    · exact unlisted.removeQueued _ tx

theorem removeAll (txs : List Transaction) (outofbound : Bool) :
    InStock k (pool.removeAll env txs outofbound) := by
  have turn : ∀ mid tx, InStock k mid →
      InStock k (mid.removeTx env (hashOf env tx) outofbound) :=
    fun _ _ stocked => stocked.removeTx _ outofbound
  exact foldl_keeps turn stocked txs

theorem makeRoom (tx : Transaction) : InStock k (pool.makeRoom env tx).1 := by
  unfold TxPool.makeRoom
  dsimp only
  split
  · split
    · exact stocked.reprice _
    · exact (stocked.reprice _).removeAll _ false
  · exact stocked

theorem insertTx (admitted : ∀ shelf, k.admits shelf tx) (byLocal : Bool) :
    InStock k (pool.insertTx env tx byLocal).1 := by
  unfold TxPool.insertTx
  dsimp only
  split
  · rename_i list overlap
    obtain ⟨lookup, -⟩ := Option.filter_eq_some_iff.mp overlap
    have holds : k.Holds .pending (senderOf env tx) list :=
      stocked.lists .pending _ list lookup
    split
    · exact stocked
    · rename_i old kept added
      have placed := stocked.setList (holds.add rfl (admitted .pending) added)
      exact (placed.forgetAll old.toList).of_lists rfl (lists_record ..)
  · have queued := stocked.enqueueTx (admitted .queue)
    split
    · rename_i out
      rwa [out] at queued
    · rename_i out
      rw [out] at queued
      exact queued.of_lists rfl (by funext shelf; cases shelf <;> rfl)

theorem add {result : Except PoolError Bool}
    (added : pool.add env tx byLocal = some (pool', result)) : InStock k pool' := by
  unfold TxPool.add at added
  split at added
  · cases added
    exact stocked
  · split at added
    · cases added
    · cases added
      exact stocked
    · rename_i valid
      have room := stocked.makeRoom tx
      cases made : pool.makeRoom env tx with
      | mk roomy fits =>
        rw [made] at room added
        cases fits with
        | false =>
          cases added
          exact room
        | true =>
          have placed := room.insertTx (k.enter pool stocked.setting tx valid) byLocal
          rw [Option.some.inj added] at placed
          exact placed

theorem dropOld (shelf : Shelf) (addr : Address) : InStock k (pool.dropOld env shelf addr) :=
  (stocked.setList ((stocked.openList shelf addr).forward _)).forgetAll _

end

theorem listed_dropOld {x : Transaction}
    (member : x ∈ Anduschain.listed ((pool.dropOld env shelf addr).lists shelf) addr) :
    x ∈ Anduschain.listed (pool.lists shelf) addr ∧
      pool.currentState.getNonce addr ≤ x.accountNonce := by
  rw [TxPool.dropOld, lists_forgetAll, listed_setList, if_pos ⟨rfl, rfl⟩] at member
  obtain ⟨inside, above⟩ := mem_filter.mp member
  exact ⟨mem_openList.mp inside, by simpa using above⟩

variable (stocked : InStock k pool)
include stocked

theorem dropUnpayable (shelf : Shelf) (addr : Address) :
    InStock k (pool.dropUnpayable env shelf addr).1 ∧
      (∀ x ∈ Anduschain.listed ((pool.dropUnpayable env shelf addr).1.lists shelf) addr,
        x ∈ Anduschain.listed (pool.lists shelf) addr ∧ s.Pays addr x) ∧
      ∀ x ∈ (pool.dropUnpayable env shelf addr).2, x ∈ Anduschain.listed (pool.lists shelf) addr := by
  have holds := stocked.openList shelf addr
  unfold TxPool.dropUnpayable
  dsimp only
  cases filtered : (pool.openList shelf addr).filter (pool.currentState.getBalance addr)
      pool.currentMaxGas with
  | mk drops rest =>
    obtain ⟨invalids, list⟩ := rest
    obtain ⟨capped, within⟩ := holds.capped.filter filtered
    obtain ⟨perm, strict, -⟩ := TxList.filter_spec filtered
    have inside {x : Transaction} (left : x ∈ invalids ∨ x ∈ list.flatten) :
        x ∈ Anduschain.listed (pool.lists shelf) addr :=
      mem_openList.mp (perm.mem_iff.mp (mem_append_right _ (mem_append.mpr left)))
    have kept := holds.fewer strict capped fun x member =>
      mem_openList.mpr (inside (.inr member))
    refine ⟨(stocked.setList kept).visit.forgetAll _, fun x member => ?_, fun x member =>
      inside (.inl member)⟩
    rw [lists_forgetAll, lists_visit, listed_setList, if_pos ⟨rfl, rfl⟩] at member
    rw [← stocked.setting]
    exact ⟨inside (.inr member), within x member⟩

theorem drops (shelf : Shelf) (addr : Address) {out : TxPool × List Transaction}
    (dropped : (pool.dropOld env shelf addr).dropUnpayable env shelf addr = out) :
    InStock k out.1 ∧ (∀ x ∈ Anduschain.listed (out.1.lists shelf) addr, s.Alive addr x) ∧
      ∀ x ∈ out.2, k.admits shelf x := by
  subst dropped
  obtain ⟨kept, stays, moved⟩ := (stocked.dropOld shelf addr).dropUnpayable shelf addr
  refine ⟨kept, fun x member => ?_, fun x member => ?_⟩
  · obtain ⟨before, pays⟩ := stays x member
    have fresh := (listed_dropOld before).2
    rw [← stocked.setting] at pays ⊢
    exact ⟨fresh, pays⟩
  · exact (stocked.listed (listed_dropOld (moved x member)).1).2

theorem promoteReady (alive : ∀ x ∈ Anduschain.listed (pool.lists .queue) addr, s.Alive addr x) :
    InStock k (pool.promoteReady env addr) := by
  have splits := (pool.openList .queue addr).ready_splits (pool.pendingState addr)
  have holds := stocked.openList .queue addr
  refine (stocked.setList (holds.ready (pool.pendingState addr))).promoteAll fun x member => ?_
  have inside := splits.mem_iff.mpr (.inl member)
  obtain ⟨sender, admitted⟩ := holds.within x inside
  refine ⟨sender, k.raise x admitted ?_⟩
  rw [sender]
  exact alive x (mem_openList.mp inside)

theorem capQueue (capped : pool.capQueue env addr = some pool') : InStock k pool' := by
  unfold TxPool.capQueue at capped
  split at capped
  · cases capped
    exact stocked
  · split at capped
    · cases capped
    · cases capped
      exact (stocked.setList ((stocked.openList .queue addr).cap _)).forgetAll _

theorem promoteAccount (learns : ∀ shelf x, k.admits shelf x →
      (shelf = .queue → senderOf env x = addr → s.Alive addr x) → k'.admits shelf x)
    (promoted : pool.promoteAccount env addr = some pool') : InStock k' pool' := by
  rw [TxPool.promoteAccount] at promoted
  split at promoted
  · rename_i absent
    cases promoted
    refine stocked.learn (fun x member => ?_) learns
    have none : (pool.lists .queue).lookup addr = none := Option.isNone_iff_eq_none.mp absent
    rw [Anduschain.listed, none] at member
    cases member
  · have promoted : ((((pool.dropOld env .queue addr).dropUnpayable env .queue addr).1.promoteReady
      env addr).capQueue env addr).map (TxPool.tidyQueue · addr) = some pool' := promoted
    obtain ⟨capped, found, rfl⟩ := Option.map_eq_some_iff.mp promoted
    obtain ⟨kept, alive, -⟩ := stocked.drops .queue addr rfl
    have learned := kept.learn alive learns
    exact ((learned.promoteReady alive).capQueue found).tidyQueue addr

theorem trim (addr : Address) : InStock k (pool.trim env addr) := by
  unfold TxPool.trim
  split
  · exact stocked
  · rename_i list found
    have holds : k.Holds .pending addr list := stocked.lists .pending addr list found
    dsimp only
    refine foldl_keeps (fun mid tx stocked => ?_) (stocked.setList (holds.cap _)) _
    exact InStock.lowerPendingNonce (forgetAll stocked [tx]) ..

theorem limits : InStock k ((pool.limitPending env).limitQueue env) :=
  limitQueue_keeps (fun _ => InStock.visit) (fun _ txs stocked => stocked.removeAll txs true)
    (limitPending_keeps (fun _ => InStock.visit) (fun _ addr stocked => stocked.trim addr) stocked)

theorem promoteExecutables {accounts : Option (List Address)}
    (promoted : pool.promoteExecutables env accounts = some pool') : InStock k pool' :=
  promoteExecutables_keeps (fun _ => InStock.visit) (fun _ addr stocked => stocked.trim addr)
    (fun _ txs stocked => stocked.removeAll txs true)
    (fun _ _ _ stocked => stocked.promoteAccount fun _ _ admitted _ => admitted) stocked promoted

theorem demoteGapped (addr : Address) : InStock k (pool.demoteGapped env addr) := by
  have holds := stocked.openList .pending addr
  have splits := (pool.openList .pending addr).cap_splits 0
  unfold TxPool.demoteGapped
  dsimp only
  split
  · exact stocked
  · refine (stocked.setList (holds.cap 0)).enqueueAll fun x member => ?_
    exact k.lower x (holds.within x (splits.mem_iff.mpr (.inl member))).2

theorem demoteAccount (addr : Address) (learns : ∀ shelf x, k.admits shelf x →
      (shelf = .pending → senderOf env x = addr → s.Alive addr x) → k'.admits shelf x)
    (falls : ∀ x, k.admits .pending x → k'.admits .queue x) :
    InStock k' (pool.demoteAccount env addr) := by
  unfold TxPool.demoteAccount
  split
  · rename_i absent
    refine stocked.learn (fun x member => ?_) learns
    have none : (pool.lists .pending).lookup addr = none := Option.isNone_iff_eq_none.mp absent
    rw [Anduschain.listed, none] at member
    cases member
  · dsimp only
    obtain ⟨kept, alive, moved⟩ := stocked.drops .pending addr rfl
    generalize (pool.dropOld env .pending addr).dropUnpayable env .pending addr = out
      at kept alive moved
    have learned := kept.learn alive learns
    have queued := learned.visit.enqueueAll fun x member =>
      falls x (moved x ((env.txOrder_perm out.1.visits out.2).mem_iff.mp member))
    exact (queued.demoteGapped addr).tidyPending addr

theorem addTx (added : pool.addTx env tx byLocal = some pool') : InStock k pool' :=
  addTx_keeps (fun _ _ _ stocked => stocked.promoteExecutables) (fun _ _ => stocked.add) added

theorem addTxsLocked (added : pool.addTxsLocked env txs byLocal = some pool') : InStock k pool' :=
  addTxsLocked_keeps (fun _ _ _ stocked => stocked.promoteExecutables)
    (fun _ _ _ _ _ stocked => stocked.add) stocked (fun _ => InStock.visit) added

theorem refreshNonces (refreshed : pool.refreshNonces = some pool') : InStock k pool' := by
  refine loop_keeps (fun mid entry next stocked set => ?_) stocked refreshed
  obtain ⟨last, -, rfl⟩ := Option.map_eq_some_iff.mp set
  exact of_lists stocked rfl (by funext shelf; cases shelf <;> rfl)

theorem setGasPrice (price : ℤ) : InStock k (pool.setGasPrice env price) := by
  refine InStock.removeAll ?_ _ false
  exact stocked.of_lists rfl (by funext shelf; cases shelf <;> rfl)

theorem updateGasPrice (bc : BlockChain) (header : Header) :
    InStock k (pool.updateGasPrice env bc header) :=
  updateGasPrice_keeps stocked.setGasPrice stocked bc header

theorem evict : InStock k (pool.evict env) :=
  evict_keeps (fun _ => InStock.visit) (fun _ txs stocked => stocked.removeAll txs true) stocked

end InStock

end Anduschain
