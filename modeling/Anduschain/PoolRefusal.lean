import Anduschain.PoolEffects
import Anduschain.PriceEviction

/-! Whether a transaction that `add` refuses leaves the pool as it was. A full pool makes room
before the price of a replacement is compared with that of the transaction it would replace. -/
namespace Anduschain
open ByteOrder BinaryHeap List
open TxPool (hashOf senderOf openList)

namespace TxList

/-- The older transaction stays: the new price is not higher, or not by the price bump. -/
def resists (old tx : Transaction) (priceBump : UInt64) : Bool :=
  tx.price ≤ old.price || (tx.price : ℤ) < bumped old priceBump

theorem add_eq_none {l : TxList} {tx : Transaction} {priceBump : UInt64} :
    l.add tx priceBump = none ↔
      ∃ old, l.txs.get tx.accountNonce = some old ∧ resists old tx priceBump = true := by
  unfold add
  cases l.txs.get tx.accountNonce with
  | none => simp
  | some old => simp only [Option.any_some, resists, Option.some.injEq, exists_eq_left',
      ite_eq_left_iff, reduceCtorEq, imp_false, not_not]

end TxList

namespace TxPricedList
variable {live isLocal : Transaction → Bool}

/-- The live transactions that are not local, in the order in which the heap gives them out. -/
def evictable (live isLocal : Transaction → Bool) (l : TxPricedList) : List Transaction :=
  l.items.popOrder.filter fun tx => live tx && !isLocal tx

theorem drop_sweep_eq (count : ℤ) (turns : ℕ) (s : Sweep) :
    (sweep live isLocal (fun dropped => count - dropped ≤ 0) (fun _ => false) turns s).drop =
      s.drop ++ ((s.items.drain turns).filter fun tx => live tx && !isLocal tx).take
        (count - s.drop.length).toNat := by
  induction turns generalizing s with
  | zero => simp [sweep, Heap.drain]
  | succ turns ih =>
    rw [sweep, Heap.drain]
    by_cases enough : count - s.drop.length ≤ 0
    · rw [if_pos (by simpa using enough), Int.toNat_of_nonpos enough, take_zero, append_nil]
    · rw [if_neg (by simpa using enough)]
      cases popped : s.items.pop with
      | none => simp
      | some out =>
        obtain ⟨tx, items⟩ := out
        cases alive : live tx with
        | false => simp only [alive, Bool.not_false, if_true, ih, filter_cons,
            Bool.false_and, Bool.false_eq_true, if_false]
        | true =>
          cases near : isLocal tx with
          | true => simp only [alive, near, Bool.not_true, Bool.false_eq_true, if_false,
              if_true, ih, filter_cons, Bool.and_false]
          | false =>
            have left : (count - s.drop.length).toNat =
                (count - (s.drop.length + 1 : ℕ)).toNat + 1 := by omega
            simp only [alive, near, Bool.not_true, Bool.not_false, Bool.false_eq_true,
              if_false, if_true, ih, filter_cons, Bool.and_true, left,
              take_succ_cons, append_assoc, length_append,
              length_singleton, singleton_append]

theorem discard_eq (live isLocal : Transaction → Bool) (count : ℤ) (l : TxPricedList) :
    (discard live isLocal count l).1 = (l.evictable live isLocal).take count.toNat := by
  rw [discard, swept, drop_sweep_eq, nil_append, length_nil, Nat.cast_zero, sub_zero]
  rfl

theorem evictable_freshen (turns : ℕ) (l : TxPricedList) :
    (freshen live turns l).evictable live isLocal = l.evictable live isLocal := by
  induction turns generalizing l with
  | zero => rfl
  | succ turns ih =>
    rw [freshen]
    cases popped : l.items.pop with
    | none => rfl
    | some out =>
      obtain ⟨head, items⟩ := out
      dsimp only
      split
      · rfl
      · rename_i stale
        rw [ih, evictable, evictable, Heap.popOrder_of_pop popped]
        simp [stale]

theorem evictable_underpriced (tx : Transaction) (l : TxPricedList) :
    (underpriced live isLocal tx l).2.evictable live isLocal = l.evictable live isLocal := by
  unfold underpriced
  split
  · rfl
  · exact evictable_freshen ..

section Subset
variable {y : Transaction}

theorem mem_of_mem_freshen {turns : ℕ} {l : TxPricedList}
    (member : y ∈ (freshen live turns l).items.toList) : y ∈ l.items.toList := by
  induction turns generalizing l with
  | zero => exact member
  | succ turns ih =>
    rw [freshen] at member
    cases popped : l.items.pop with
    | none => simpa [popped] using member
    | some out =>
      obtain ⟨head, items⟩ := out
      simp only [popped] at member
      split at member
      · exact member
      · exact (mem_of_pop popped).mpr (.inr (ih member))

theorem mem_of_mem_underpriced {l : TxPricedList} {tx : Transaction}
    (member : y ∈ (underpriced live isLocal tx l).2.items.toList) : y ∈ l.items.toList := by
  unfold underpriced at member
  split at member
  · exact member
  · exact mem_of_mem_freshen member

theorem mem_of_mem_discard {count : ℤ} {l : TxPricedList}
    (member : y ∈ (discard live isLocal count l).2.items.toList) : y ∈ l.items.toList := by
  simp only [discard, swept, mem_foldl_push] at member
  have kept : ∀ z, z ∈ (sweep live isLocal (fun dropped => count - dropped ≤ 0) (fun _ => false)
      l.items.toList.length ⟨l.items, l.stales, [], []⟩).save ∨ z ∈ (sweep live isLocal
      (fun dropped => count - dropped ≤ 0) (fun _ => false) l.items.toList.length
      ⟨l.items, l.stales, [], []⟩).items.toList → z ∈ l.items.toList := by
    refine sweep_keeps (P := fun s => ∀ z, z ∈ s.save ∨ z ∈ s.items.toList → z ∈ l.items.toList)
      _ (by simp) ?_ ?_ ?_
    · intro s tx items popped _ sub z inside
      exact sub z (inside.imp_right fun rest => (mem_of_pop popped).mpr (.inr rest))
    · intro s tx items popped sub z inside
      rw [mem_append, mem_singleton] at inside
      rcases inside with (old | rfl) | rest
      · exact sub z (.inl old)
      · exact sub z (.inr ((mem_of_pop popped).mpr (.inl rfl)))
      · exact sub z (.inr ((mem_of_pop popped).mpr (.inr rest)))
    · intro s tx items popped _ sub z inside
      exact sub z (inside.imp_right fun rest => (mem_of_pop popped).mpr (.inr rest))
  exact kept y member

end Subset

end TxPricedList

namespace TxPool
variable {σ : Type}

/-- The pool is the same to every reader: the lists, the known transactions, and those of them in
the price heap. -/
structure Unchanged (env : PoolEnv σ) (pool pool' : TxPool) : Prop where
  lists : ∀ shelf addr, (pool'.lists shelf).lookup addr = (pool.lists shelf).lookup addr
  all : ∀ hash, pool'.all.lookup hash = pool.all.lookup hash
  priced : ∀ tx, tx ∈ pool'.priced.items.toList ∧ pool'.live env tx = true ↔
    tx ∈ pool.priced.items.toList ∧ pool.live env tx = true

/-- A known transaction of the same sender and nonce that keeps its place against a new one. -/
structure Resisted (env : PoolEnv σ) (pool : TxPool) (tx old : Transaction) : Prop where
  known : pool.Knows env old
  sender : env.signer old = env.signer tx
  nonce : old.accountNonce = tx.accountNonce
  dearer : TxList.resists old tx pool.config.priceBump = true

def Full (pool : TxPool) : Prop :=
  pool.config.globalSlots + pool.config.globalQueue ≤ UInt64.ofNat pool.all.keys.length

instance (pool : TxPool) : Decidable pool.Full := inferInstanceAs (Decidable (_ ≤ _))

def excess (pool : TxPool) : ℤ :=
  pool.all.keys.length - (pool.config.globalSlots + pool.config.globalQueue - 1).toInt64.toInt

def surplus (env : PoolEnv σ) (pool : TxPool) : List Transaction :=
  (pool.priced.evictable (pool.live env) (pool.isLocal env)).take pool.excess.toNat

/-- The transaction makes a full pool evict others although one of its own sender and nonce, not
among them, keeps its place. -/
structure EvictsInVain (env : PoolEnv σ) (pool : TxPool) (tx : Transaction) : Prop where
  unknown : pool.live env tx = false
  valid : validateTx (pool.view env) tx = some (.ok ())
  full : pool.Full
  dear : (pool.priced.underpriced (pool.live env) (pool.isLocal env) tx).1 = false
  victims : pool.surplus env ≠ []
  resisted : ∃ old, pool.Resisted env tx old ∧
    ∀ x ∈ pool.surplus env, hashOf env old ≠ hashOf env x

theorem Unchanged.refl (env : PoolEnv σ) (pool : TxPool) : Unchanged env pool pool :=
  ⟨fun _ _ => rfl, fun _ => rfl, fun _ => Iff.rfl⟩

theorem Unchanged.trans {env : PoolEnv σ} {pool mid pool' : TxPool} (first : Unchanged env pool mid)
    (second : Unchanged env mid pool') : Unchanged env pool pool' where
  lists shelf addr := (second.lists shelf addr).trans (first.lists shelf addr)
  all hash := (second.all hash).trans (first.all hash)
  priced tx := (second.priced tx).trans (first.priced tx)

variable {env : PoolEnv σ} {pool : TxPool} {tx : Transaction}

theorem Unchanged.reprice {priced : TxPricedList}
    (kept : ∀ y, pool.live env y = true → (y ∈ priced.items.toList ↔ y ∈ pool.priced.items.toList)) :
    Unchanged env pool { pool with priced } where
  lists shelf addr := by
    cases shelf <;> rfl
  all _ := rfl
  priced y := and_congr_left fun alive => kept y alive

theorem Unchanged.setList_same {shelf : Shelf} {addr : Address} {list : TxList}
    (found : (pool.lists shelf).lookup addr = some list) :
    Unchanged env pool (pool.setList shelf addr list) where
  lists other a := by
    rw [setList, setLists_lists]
    split
    · rename_i same
      subst same
      by_cases here : a = addr
      · rw [here, AList.lookup_insert, found]
      · rw [AList.lookup_insert_ne here]
    · rfl
  all hash := by rw [setList_all]
  priced y := by rw [setList_priced, live, setList_all, live]

theorem makeRoom_full (env : PoolEnv σ) (full : pool.Full)
    (dear : (pool.priced.underpriced (pool.live env) (pool.isLocal env) tx).1 = false) :
    ∃ priced, pool.makeRoom env tx =
        ({ pool with priced }.removeAll env (pool.surplus env) false, true) ∧
      (∀ y, y ∈ priced.items.toList → y ∈ pool.priced.items.toList) ∧
      ∀ y, pool.live env y = true → y ∈ pool.priced.items.toList →
        y ∈ priced.items.toList ∨ y ∈ pool.surplus env := by
  have order : (TxPricedList.discard (pool.live env) (pool.isLocal env) pool.excess
      (pool.priced.underpriced (pool.live env) (pool.isLocal env) tx).2).1 = pool.surplus env := by
    rw [TxPricedList.discard_eq, TxPricedList.evictable_underpriced, surplus]
  refine ⟨(TxPricedList.discard (pool.live env) (pool.isLocal env) pool.excess
    (pool.priced.underpriced (pool.live env) (pool.isLocal env) tx).2).2, ?_, ?_, ?_⟩
  · unfold makeRoom
    rw [← order]
    rw [Full] at full
    simp only [full, if_true, dear, Bool.false_eq_true, if_false]
    rfl
  · intro y member
    exact TxPricedList.mem_of_mem_underpriced (TxPricedList.mem_of_mem_discard member)
  · intro y alive inHeap
    rw [← order]
    exact TxPricedList.mem_swept alive (TxPricedList.mem_underpriced alive inHeap)

theorem makeRoom_underpriced (env : PoolEnv σ) (full : pool.Full)
    (low : (pool.priced.underpriced (pool.live env) (pool.isLocal env) tx).1 = true) :
    ∃ priced, pool.makeRoom env tx = ({ pool with priced }, false) ∧
      ∀ y, pool.live env y = true → (y ∈ priced.items.toList ↔ y ∈ pool.priced.items.toList) := by
  refine ⟨(pool.priced.underpriced (pool.live env) (pool.isLocal env) tx).2, ?_, ?_⟩
  · unfold makeRoom
    rw [Full] at full
    simp only [full, if_true, low]
  · exact fun y alive =>
      ⟨TxPricedList.mem_of_mem_underpriced, TxPricedList.mem_underpriced alive⟩

end TxPool

section
variable {σ : Type} {env : PoolEnv σ} {c : Stations env} {pool : TxPool} {tx : Transaction}
  {addr : Address}

theorem Refines.get_iff {loose : List Transaction} (refines : Refines env c loose pool)
    {shelf : Shelf} {x : Transaction} {nonce : UInt64} :
    (pool.openList shelf addr).txs.get nonce = some x ↔
      c.loc x = some (.filed shelf) ∧ env.signer x = .ok addr ∧ x.accountNonce = nonce := by
  rw [← and_assoc, ← refines.filed, ← mem_openList]
  constructor
  · exact TxSortedMap.get_eq_some
  · rintro ⟨member, rfl⟩
    exact TxSortedMap.get_of_mem member

section

variable (refines : Refines env c [] pool)
include refines

theorem Refines.insertTx_refused (settled : c.Settled)
    (sender : env.signer tx = .ok addr) (byLocal : Bool) {old : Transaction}
    (resisted : pool.Resisted env tx old) :
    ∃ pool', pool.insertTx env tx byLocal = (pool', .error .replaceUnderpriced) ∧
      TxPool.Unchanged env pool pool' := by
  have known := (refines.held old).mp resisted.known
  have signer := resisted.sender.trans sender
  obtain ⟨s, loc⟩ := Option.isSome_iff_exists.mp known
  unfold TxPool.insertTx
  rw [senderOf_eq sender]
  rcases s with (_ | _) | _
  · have held : (pool.openList .pending addr).txs.get tx.accountNonce = some old :=
      refines.get_iff.mpr ⟨loc, signer, resisted.nonce⟩
    have refused := TxList.add_eq_none.mpr ⟨old, held, resisted.dearer⟩
    cases lookup : pool.pending.lookup addr with
    | none => simp [openList, TxPool.lists, lookup, TxList.new, TxSortedMap.new,
        TxSortedMap.get] at held
    | some list =>
      rw [openList_eq lookup] at held refused
      have overlaps : list.overlaps tx = true := by
        rw [TxList.overlaps, held]
        rfl
      have overlap : (pool.pending.lookup addr).filter (·.overlaps tx) = some list :=
        Option.filter_eq_some_iff.mpr ⟨lookup, overlaps⟩
      simp only [overlap, refused]
      exact ⟨pool, rfl, .refl env pool⟩
  · have held : (pool.openList .queue addr).txs.get tx.accountNonce = some old :=
      refines.get_iff.mpr ⟨loc, signer, resisted.nonce⟩
    have refused := TxList.add_eq_none.mpr ⟨old, held, resisted.dearer⟩
    have free : (pool.pending.lookup addr).filter (·.overlaps tx) = none := by
      rw [Option.filter_eq_none_iff]
      intro list lookup overlaps
      obtain ⟨x, found⟩ := Option.isSome_iff_exists.mp overlaps
      have same : pool.openList .pending addr = list := openList_eq lookup
      rw [← same] at found
      obtain ⟨locX, signerX, nonceX⟩ := refines.get_iff.mp found
      have same := c.single x old (by rw [locX]; rfl) known (signerX.trans signer.symm)
        (nonceX.trans resisted.nonce.symm)
      rw [same, loc] at locX
      cases locX
    simp only [free, TxPool.enqueueTx, senderOf_eq sender, refused]
    refine ⟨_, rfl, ?_⟩
    cases lookup : pool.queue.lookup addr with
    | none => simp [openList, TxPool.lists, lookup, TxList.new, TxSortedMap.new,
        TxSortedMap.get] at held
    | some list =>
      have found : (pool.lists .queue).lookup addr = some list := lookup
      rw [openList_eq found]
      exact .setList_same found
  · exact absurd loc (settled old)

theorem Refines.resisted_of_error
    (sender : env.signer tx = .ok addr) {byLocal : Bool} {pool' : TxPool} {e : PoolError}
    (failed : pool.insertTx env tx byLocal = (pool', .error e)) : ∃ old, pool.Resisted env tx old := by
  have shown (shelf : Shelf)
      (refused : (pool.openList shelf addr).add tx pool.config.priceBump = none) :
      ∃ old, pool.Resisted env tx old := by
    obtain ⟨old, found, dearer⟩ := TxList.add_eq_none.mp refused
    obtain ⟨loc, signer, nonce⟩ := refines.get_iff.mp found
    exact ⟨old, (refines.held old).mpr (by rw [loc]; rfl), signer.trans sender.symm, nonce, dearer⟩
  unfold TxPool.insertTx at failed
  rw [senderOf_eq sender] at failed
  dsimp only at failed
  cases overlap : (pool.pending.lookup addr).filter (·.overlaps tx) with
  | some list =>
    obtain ⟨lookup, -⟩ := Option.filter_eq_some_iff.mp overlap
    have same : pool.openList .pending addr = list := openList_eq lookup
    cases added : list.add tx pool.config.priceBump with
    | none => exact shown .pending (by rw [same, added])
    | some out => simp [overlap, added] at failed
  | none =>
    cases added : (pool.openList .queue addr).add tx pool.config.priceBump with
    | none => exact shown .queue added
    | some out => simp [overlap, TxPool.enqueueTx, senderOf_eq sender, added] at failed

theorem Refines.makeRoom_full (settled : c.Settled) (full : pool.Full)
    (dear : (pool.priced.underpriced (pool.live env) (pool.isLocal env) tx).1 = false) :
    ∃ (c' : Stations env) (roomy : TxPool), c'.Settled ∧ Refines env c' [] roomy ∧
      pool.makeRoom env tx = (roomy, true) ∧ roomy.config = pool.config ∧
      (∀ x, roomy.Knows env x ↔ pool.Knows env x ∧
        ∀ y ∈ pool.surplus env, hashOf env x ≠ hashOf env y) ∧
      (pool.surplus env = [] → TxPool.Unchanged env pool roomy) := by
  obtain ⟨priced, made, fewer, kept⟩ := TxPool.makeRoom_full env full dear
  obtain ⟨c', settled', refines', known⟩ := (refines.reprice kept).removeLoose settled
  have setting := TxPool.setting_removeAll env { pool with priced } (pool.surplus env) false
  refine ⟨c', _, settled', refines', made, congrArg TxPool.Setting.config setting, ?_, ?_⟩
  · intro x
    rw [TxPool.Knows, refines'.held, known, ← refines.held, TxPool.Knows]
  · intro none
    rw [none]
    refine .reprice fun y alive => ⟨fewer y, fun member => ?_⟩
    exact (kept y alive member).resolve_right (by simp [none])

theorem Refines.not_unchanged {roomy : TxPool} (victims : pool.surplus env ≠ [])
    (known : ∀ x, roomy.Knows env x ↔ pool.Knows env x ∧
      ∀ y ∈ pool.surplus env, hashOf env x ≠ hashOf env y) : ¬ TxPool.Unchanged env pool roomy := by
  intro same
  obtain ⟨x, member⟩ := exists_mem_of_ne_nil _ victims
  have live : pool.live env x = true := by
    have due := of_mem_filter (mem_of_mem_take member)
    simp only [Bool.and_eq_true] at due
    exact due.1
  obtain ⟨y, found⟩ := Option.isSome_iff_exists.mp live
  have hash := refines.keyed _ y found
  have knows : pool.Knows env y := by rw [TxPool.Knows, hash, found]
  have still : roomy.Knows env y := by rw [TxPool.Knows, same.all, knows]
  exact ((known y).mp still).2 x member hash

end

/-- A refused transaction leaves the pool as it was exactly when it does not evict in vain. -/
theorem add_refused_unchanged_iff (reachable : TxPool.Reachable env pool) (tx : Transaction)
    (byLocal : Bool) :
    (∀ pool' e, pool.add env tx byLocal = some (pool', .error e) →
      TxPool.Unchanged env pool pool') ↔ ¬ pool.EvictsInVain env tx := by
  obtain ⟨c, settled, refines⟩ := PoolSound.of_reachable reachable
  constructor
  · rintro harmless ⟨unknown, valid, full, dear, victims, old, resisted, spared⟩
    obtain ⟨c', roomy, settled', refines', made, config, known, -⟩ :=
      refines.makeRoom_full settled full dear
    obtain ⟨addr, sender⟩ := validateTx_signed valid
    have still : roomy.Resisted env tx old :=
      ⟨(known old).mpr ⟨resisted.known, spared⟩, resisted.sender, resisted.nonce, by
        rw [config]; exact resisted.dearer⟩
    obtain ⟨pool', refused, same⟩ := refines'.insertTx_refused settled' sender byLocal still
    have after := harmless pool' .replaceUnderpriced (by
      simp [TxPool.add, unknown, valid, made, refused])
    refine refines.not_unchanged victims known ⟨?_, ?_, ?_⟩
    · exact fun shelf a => (same.lists shelf a).symm.trans (after.lists shelf a)
    · exact fun hash => (same.all hash).symm.trans (after.all hash)
    · exact fun x => (same.priced x).symm.trans (after.priced x)
  · intro spares pool' e added
    unfold TxPool.add at added
    split at added
    · cases added
      exact .refl env pool
    · rename_i unknown
      split at added
      · cases added
      · cases added
        exact .refl env pool
      · rename_i valid
        obtain ⟨addr, sender⟩ := validateTx_signed valid
        by_cases full : pool.Full
        · cases dear : (pool.priced.underpriced (pool.live env) (pool.isLocal env) tx).1 with
          | true =>
            obtain ⟨priced, made, kept⟩ := TxPool.makeRoom_underpriced env full dear
            rw [made] at added
            cases added
            exact .reprice kept
          | false =>
            obtain ⟨c', roomy, settled', refines', made, config, known, same⟩ :=
              refines.makeRoom_full settled full dear
            rw [made] at added
            have failed := Option.some.inj added
            obtain ⟨old, resisted⟩ := refines'.resisted_of_error sender failed
            obtain ⟨after, refused, kept⟩ :=
              refines'.insertTx_refused settled' sender byLocal resisted
            rw [refused] at failed
            cases failed
            refine (same ?_).trans kept
            by_contra victims
            refine spares ⟨by simpa using unknown, valid, full, dear, victims, old, ?_,
              ((known old).mp resisted.known).2⟩
            exact ⟨((known old).mp resisted.known).1, resisted.sender, resisted.nonce, by
              rw [← config]; exact resisted.dearer⟩
        · have made : pool.makeRoom env tx = (pool, true) := if_neg full
          rw [made] at added
          have failed := Option.some.inj added
          obtain ⟨old, resisted⟩ := refines.resisted_of_error sender failed
          obtain ⟨after, refused, kept⟩ := refines.insertTx_refused settled sender byLocal resisted
          rw [refused] at failed
          cases failed
          exact kept

end

def sampleNarrowEnv : PoolEnv Deb :=
  { samplePoolEnv with config := { samplePoolEnv.config with globalSlots := 1, globalQueue := 1 } }

def samplePriced (price : ℕ) : Transaction := { plainTransfer 0 9 0 with price }

def sampleRefusal (pool : TxPool) (tx : Transaction) (p : PoolError → TxPool → Bool) : Bool :=
  (pool.add sampleNarrowEnv tx false).any fun out =>
    match out.2 with
    | .error e => p e out.1
    | .ok _ => false

theorem exists_of_sampleRefusal {pool : TxPool} {tx : Transaction} {p : PoolError → TxPool → Bool}
    (answered : sampleRefusal pool tx p = true) :
    ∃ pool' e, pool.add sampleNarrowEnv tx false = some (pool', .error e) ∧ p e pool' = true := by
  obtain ⟨⟨pool', result⟩, added, holds⟩ := (Option.any_eq_true _ _).mp answered
  cases result with
  | error e => exact ⟨pool', e, added, holds⟩
  | ok _ => cases holds

/-- A transfer too cheap for the full pool is refused before anything is evicted. -/
theorem sampleUnderpriced_unchanged :
    ∃ pool pool', TxPool.Reachable sampleNarrowEnv pool ∧ pool.Full ∧
      pool.add sampleNarrowEnv (samplePriced 0) false = some (pool', .error .underpriced) ∧
      TxPool.Unchanged sampleNarrowEnv pool pool' := by
  have checked : pooled sampleNarrowEnv samplePoolChain
      [.addRemote samplePooledJoin, .addRemote (samplePriced 100)] (fun pool =>
        decide pool.Full &&
        (pool.priced.underpriced (pool.live sampleNarrowEnv) (pool.isLocal sampleNarrowEnv)
          (samplePriced 0)).1 &&
        sampleRefusal pool (samplePriced 0) fun e _ => e == .underpriced) = true := by
    decide +kernel
  obtain ⟨pool, reachable, holds⟩ := reachable_of_pooled checked
  simp only [Bool.and_eq_true, decide_eq_true_eq] at holds
  obtain ⟨⟨full, low⟩, answered⟩ := holds
  obtain ⟨pool', e, added, named⟩ := exists_of_sampleRefusal answered
  obtain rfl := eq_of_beq named
  refine ⟨pool, pool', reachable, full, added, ?_⟩
  refine (add_refused_unchanged_iff reachable (samplePriced 0) false).mpr ?_ pool' .underpriced added
  intro vain
  have dear := vain.dear
  rw [low] at dear
  cases dear

/-- A replacement at half the price is refused, and the join transaction of another account is
gone. -/
theorem sampleReplacement_evicts_join :
    ∃ pool pool', TxPool.Reachable sampleNarrowEnv pool ∧
      pool.add sampleNarrowEnv (samplePriced 50) false = some (pool', .error .replaceUnderpriced) ∧
      pool.Knows sampleNarrowEnv samplePooledJoin ∧
      ¬ pool'.Knows sampleNarrowEnv samplePooledJoin ∧
      ¬ TxPool.Unchanged sampleNarrowEnv pool pool' := by
  have checked : pooled sampleNarrowEnv samplePoolChain
      [.addRemote samplePooledJoin, .addRemote (samplePriced 100)] (fun pool =>
        decide (pool.Knows sampleNarrowEnv samplePooledJoin) &&
        sampleRefusal pool (samplePriced 50) fun e pool' => e == .replaceUnderpriced &&
          decide (¬ pool'.Knows sampleNarrowEnv samplePooledJoin)) = true := by
    decide +kernel
  obtain ⟨pool, reachable, holds⟩ := reachable_of_pooled checked
  simp only [Bool.and_eq_true, decide_eq_true_eq] at holds
  obtain ⟨knows, answered⟩ := holds
  obtain ⟨pool', e, added, seen⟩ := exists_of_sampleRefusal answered
  simp only [Bool.and_eq_true, decide_eq_true_eq] at seen
  obtain ⟨named, gone⟩ := seen
  obtain rfl := eq_of_beq named
  refine ⟨pool, pool', reachable, added, knows, gone, fun same => gone ?_⟩
  rw [TxPool.Knows, same.all, knows]

end Anduschain
