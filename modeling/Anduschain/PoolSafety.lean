import Anduschain.PoolLoops
import Anduschain.PoolStations

/-! Every operation of the transaction pool keeps its transactions in their places, and so
does every run of them. -/
namespace Anduschain
open ByteOrder BinaryHeap List TxPool

section
variable {σ : Type} {env : PoolEnv σ} {c : Stations env} {loose : List Transaction} {pool : TxPool}

/-- A pool at rest: every transaction it knows is on one shelf, and in the price heap. -/
def PoolSound (env : PoolEnv σ) (pool : TxPool) : Prop :=
  ∃ c : Stations env, c.Settled ∧ Refines env c [] pool

variable {pool' : TxPool} {tx : Transaction} {addr : Address} {shelf : Shelf} {byLocal : Bool}

theorem PoolSound.of_same (sound : PoolSound env pool) (all : pool'.all = pool.all)
    (priced : pool'.priced = pool.priced) (pending : pool'.pending = pool.pending)
    (queue : pool'.queue = pool.queue) : PoolSound env pool' := by
  obtain ⟨c, settled, refines⟩ := sound
  exact ⟨c, settled, refines.of_same all priced pending queue⟩

theorem PoolSound.visit (sound : PoolSound env pool) : PoolSound env pool.visit :=
  sound.of_same rfl rfl rfl rfl

theorem Refines.removeAll (refines : Refines env c loose pool) (settled : c.Settled)
    (txs : List Transaction) (outofbound : Bool) :
    ∃ c' : Stations env, c'.Settled ∧ Refines env c' loose (pool.removeAll env txs outofbound) ∧
      ∀ x, (c'.loc x).isSome ↔
        (c.loc x).isSome ∧ ∀ tx ∈ txs, hashOf env x ≠ hashOf env tx := by
  induction txs generalizing c pool with
  | nil => exact ⟨c, settled, refines, by simp⟩
  | cons tx rest ih =>
    obtain ⟨c₁, settled₁, refines₁, known₁⟩ :=
      refines.removeTx settled (hashOf env tx) outofbound
    obtain ⟨c₂, settled₂, refines₂, known₂⟩ := ih refines₁ settled₁
    refine ⟨c₂, settled₂, refines₂, fun x => ?_⟩
    rw [known₂, known₁, forall_mem_cons, and_assoc]

theorem PoolSound.removeAll (sound : PoolSound env pool) (txs : List Transaction) (outofbound : Bool) :
    PoolSound env (pool.removeAll env txs outofbound) := by
  obtain ⟨c, settled, refines⟩ := sound
  obtain ⟨c', settled', refines', -⟩ := refines.removeAll settled txs outofbound
  exact ⟨c', settled', refines'⟩

theorem Refines.reprice (refines : Refines env c [] pool) {priced : TxPricedList}
    (kept : ∀ y, pool.live env y = true → y ∈ pool.priced.items.toList →
      y ∈ priced.items.toList ∨ y ∈ loose) :
    Refines env c loose { pool with priced } where
  held := refines.held
  keyed := refines.keyed
  filed shelf addr x := by
    cases shelf with
    | pending => exact refines.filed .pending addr x
    | queue => exact refines.filed .queue addr x
  lax := refines.lax
  priced y known := by
    have inHeap : y ∈ pool.priced.items.toList :=
      (refines.priced y known).resolve_right not_mem_nil
    exact kept y (refines.live_iff known) inHeap

theorem Refines.removeLoose (refines : Refines env c loose pool) (settled : c.Settled) :
    ∃ c' : Stations env, c'.Settled ∧ Refines env c' [] (pool.removeAll env loose false) ∧
      ∀ x, (c'.loc x).isSome ↔
        (c.loc x).isSome ∧ ∀ tx ∈ loose, hashOf env x ≠ hashOf env tx := by
  obtain ⟨c', settled', refines', known⟩ := refines.removeAll settled loose false
  refine ⟨c', settled', ?_, known⟩
  refine { refines' with priced := fun x held => ?_ }
  rcases refines'.priced x held with inHeap | inLoose
  · exact .inl inHeap
  · exact absurd rfl (((known x).mp held).2 x inLoose)

section

variable (pool : TxPool) (shelf : Shelf) (addr : Address)

theorem forgetAll_setList (txs : List Transaction)
    (list : TxList) :
    (pool.setList shelf addr list).forgetAll env txs =
      (pool.forgetAll env txs).setList shelf addr list := by
  induction txs generalizing pool with
  | nil => rfl
  | cons tx rest ih =>
    have first : (pool.setList shelf addr list).forget env (hashOf env tx) =
        (pool.forget env (hashOf env tx)).setList shelf addr list := by
      cases shelf <;> rfl
    simp only [TxPool.forgetAll, foldl_cons, first]
    exact ih _

theorem record_setList (tx : Transaction)
    (list : TxList) :
    (pool.setList shelf addr list).record env tx = (pool.record env tx).setList shelf addr list := by
  cases shelf <;> rfl

theorem setList_setList (list list' : TxList) :
    (pool.setList shelf addr list).setList shelf addr list' = pool.setList shelf addr list' := by
  cases shelf <;>
    simp only [TxPool.setList, TxPool.setLists, TxPool.lists, AList.insert_insert]

theorem openList_setList (list : TxList) :
    (pool.setList shelf addr list).openList shelf addr = list := by
  apply openList_eq
  cases shelf <;> exact AList.lookup_insert _

end

theorem Refines.record (refines : Refines env c loose pool)
    (unknown : pool.live env tx = false) (signed : ∃ addr, env.signer tx = .ok addr)
    (typed : tx.txType = joinTx ∨ priceRuled tx = true)
    (fresh : ∀ x, (c.loc x).isSome → env.signer x = env.signer tx → x.accountNonce ≠ tx.accountNonce) :
    Refines env (c.enter tx .afloat signed typed fresh) loose (pool.record env tx) := by
  have absent : pool.all.lookup (hashOf env tx) = none := by
    simpa [TxPool.live] using unknown
  have loc (x : Transaction) : (c.enter tx .afloat signed typed fresh).loc x =
      if x = tx then some .afloat else c.loc x := rfl
  have new : c.loc tx = none := by
    rw [← Option.not_isSome_iff_eq_none]
    intro known
    rw [(refines.held tx).mpr known] at absent
    cases absent
  constructor
  · intro x
    rw [loc]
    by_cases same : x = tx
    · rw [if_pos same, same, TxPool.record, AList.lookup_insert]
      simp
    · rw [if_neg same, ← refines.held x, TxPool.record]
      by_cases hash : hashOf env x = hashOf env tx
      · rw [hash, AList.lookup_insert, absent]
        simp [Ne.symm same]
      · rw [AList.lookup_insert_ne hash]
  · intro hash x found
    by_cases same : hash = hashOf env tx
    · subst same
      rw [TxPool.record, AList.lookup_insert] at found
      rw [Option.some.inj found]
    · exact refines.keyed hash x ((AList.lookup_insert_ne same).symm.trans found)
  · intro shelf addr x
    have filed : x ∈ listed ((pool.record env tx).lists shelf) addr ↔
        c.loc x = some (.filed shelf) ∧ env.signer x = .ok addr := by
      cases shelf with
      | pending => exact refines.filed .pending addr x
      | queue => exact refines.filed .queue addr x
    rw [filed, loc]
    by_cases same : x = tx
    · rw [if_pos same, same, new]
      constructor <;> rintro ⟨⟨⟩, -⟩
    · rw [if_neg same]
  · exact refines.lax
  · intro x known
    rw [loc] at known
    simp only [TxPool.record, TxPricedList.put, Heap.mem_push]
    by_cases same : x = tx
    · exact .inl (.inl same)
    · rw [if_neg same] at known
      exact (refines.priced x known).imp_left .inr

theorem live_forgetAll (unknown : pool.live env tx = false) (txs : List Transaction) :
    (pool.forgetAll env txs).live env tx = false := by
  induction txs generalizing pool with
  | nil => exact unknown
  | cons other rest ih =>
    refine ih ?_
    rw [TxPool.live, Option.isSome_eq_false_iff, Option.isNone_iff_eq_none] at unknown ⊢
    by_cases same : hashOf env tx = hashOf env other
    · rw [same]
      exact AList.lookup_erase _ _
    · exact (AList.lookup_erase_ne same).trans unknown

theorem Refines.replace (refines : Refines env c loose pool)
    {bump : UInt64} {old : Option Transaction} {list : TxList}
    (added : (pool.openList shelf addr).add tx bump = some (old, list))
    (unknown : pool.live env tx = false) (sender : env.signer tx = .ok addr)
    (typed : tx.txType = joinTx ∨ priceRuled tx = true)
    (there : ∀ x, (c.loc x).isSome → env.signer x = .ok addr → x.accountNonce = tx.accountNonce →
      c.loc x = some (.filed shelf)) (settled : c.Settled) :
    ∃ c' : Stations env, c'.Settled ∧ Refines env c' loose
      (((pool.setList shelf addr list).forgetAll env old.toList).record env tx) := by
  obtain ⟨rfl, txs, strict⟩ := TxList.add_eq_some added
  have splits := (pool.openList shelf addr).txs.get_splits tx.accountNonce
  generalize older : ((pool.openList shelf addr).txs.get tx.accountNonce).toList = old at splits ⊢
  let kept : TxList := { pool.openList shelf addr with
    txs := (pool.openList shelf addr).txs.remove tx.accountNonce }
  have taken : Refines env (c.move old .afloat) loose (pool.setList shelf addr kept) :=
    refines.take splits rfl
  have forgotten := taken.forgetAll splits.nodup fun x member => by
    have inside := mem_openList.mp (splits.mem_iff.mpr (.inl member))
    simp [member, ((refines.filed _ _ _).mp inside).1]
  have unlisted : ((pool.setList shelf addr kept).forgetAll env old).live env tx = false := by
    apply live_forgetAll
    rwa [TxPool.live, setList_all]
  have recorded := forgotten.record unlisted ⟨addr, sender⟩ typed (by
    intro x known signer nonce
    have left : x ∉ old := by
      intro member
      simp [member] at known
    have before : (c.loc x).isSome := by simpa [left] using known
    have inside := mem_openList.mpr ((refines.filed shelf addr x).mpr
      ⟨there x before (signer.trans sender) nonce, signer.trans sender⟩)
    rcases splits.mem_iff.mp inside with taken | stays
    · exact left taken
    · exact (TxSortedMap.mem_remove.mp stays).2 nonce)
  rw [forgetAll_setList, record_setList] at recorded
  have again : list.txs = ((((pool.forgetAll env old).record env tx).setList shelf addr
      kept).openList shelf addr).txs.put tx := by
    rw [openList_setList, txs, TxSortedMap.put_remove]
  have placed := recorded.settle (by simp [Stations.enter]) sender again
    (by rw [openList_setList, strict])
  rw [setList_setList] at placed
  rw [forgetAll_setList, record_setList]
  refine ⟨_, ?_, placed⟩
  intro x
  have rest := settled x
  simp only [Stations.enter, Stations.loc_drop, Stations.loc_move]
  grind

theorem Refines.live_mono {c' : Stations env} {loose' : List Transaction}
    (refines : Refines env c loose pool) (refines' : Refines env c' loose' pool')
    (fewer : ∀ x, (c'.loc x).isSome → (c.loc x).isSome)
    (unknown : pool.live env tx = false) : pool'.live env tx = false := by
  rw [TxPool.live, Option.isSome_eq_false_iff, Option.isNone_iff_eq_none] at unknown ⊢
  cases found : pool'.all.lookup (hashOf env tx) with
  | none => rfl
  | some y =>
    have hash := refines'.keyed _ y found
    rw [← hash] at found unknown
    rw [(refines.held y).mpr (fewer y ((refines'.held y).mp found))] at unknown
    cases unknown

theorem Refines.discarded (refines : Refines env c [] pool) (settled : c.Settled)
    {priced : TxPricedList} (kept : ∀ y, pool.live env y = true → y ∈ pool.priced.items.toList →
      y ∈ priced.items.toList ∨ y ∈ loose) :
    PoolSound env ({ pool with priced }.removeAll env loose false) ∧ (pool.live env tx = false →
      ({ pool with priced }.removeAll env loose false).live env tx = false) := by
  obtain ⟨c', settled', refines', known⟩ := (refines.reprice kept).removeLoose settled
  exact ⟨⟨c', settled', refines'⟩, refines.live_mono refines' fun x held => ((known x).mp held).1⟩

theorem PoolSound.makeRoom (sound : PoolSound env pool) (tx : Transaction) :
    PoolSound env (pool.makeRoom env tx).1 ∧
      (pool.live env tx = false → (pool.makeRoom env tx).1.live env tx = false) := by
  obtain ⟨c, settled, refines⟩ := sound
  unfold TxPool.makeRoom
  dsimp only
  split
  · split
    · exact ⟨⟨c, settled, refines.reprice fun y alive inHeap =>
        .inl (TxPricedList.mem_underpriced alive inHeap)⟩, id⟩
    · exact refines.discarded settled fun y alive inHeap =>
        TxPricedList.mem_swept alive (TxPricedList.mem_underpriced alive inHeap)
  · exact ⟨⟨c, settled, refines⟩, id⟩

structure Newcomer (env : PoolEnv σ) (pool : TxPool) (tx : Transaction) : Prop where
  unknown : pool.live env tx = false
  signed : ∃ addr, env.signer tx = .ok addr
  typed : tx.txType = joinTx ∨ priceRuled tx = true

theorem PoolSound.enqueueNew (sound : PoolSound env pool) (new : Newcomer env pool tx)
    (apart : ∀ x ∈ listed pool.pending (senderOf env tx), x.accountNonce ≠ tx.accountNonce) :
    PoolSound env (pool.enqueueTx env tx).1 := by
  obtain ⟨c, settled, refines⟩ := sound
  obtain ⟨addr, sender⟩ := new.signed
  obtain rfl : senderOf env tx = addr := senderOf_eq sender
  unfold TxPool.enqueueTx
  dsimp only
  cases added : (pool.openList .queue (senderOf env tx)).add tx pool.config.priceBump with
  | none =>
    have kept : Refines env c [] (pool.setList .queue (senderOf env tx)
      (pool.openList .queue (senderOf env tx))) := refines.setList_same
    exact ⟨c, settled, kept⟩
  | some out =>
    obtain ⟨old, list⟩ := out
    have absent : (pool.setList .queue (senderOf env tx) list).live env tx = false :=
      new.unknown
    have gone := live_forgetAll absent old.toList
    simp only [TxPool.replaced, gone, Bool.false_eq_true, if_false]
    refine refines.replace added new.unknown sender new.typed ?_ settled
    intro x known signer nonce
    obtain ⟨s, loc⟩ := Option.isSome_iff_exists.mp known
    rcases s with (_ | _) | _
    · exact absurd nonce (apart x ((refines.filed .pending _ x).mpr ⟨loc, signer⟩))
    · exact loc
    · exact absurd loc (settled x)

theorem PoolSound.insertTx (sound : PoolSound env pool) (new : Newcomer env pool tx)
    (byLocal : Bool) : PoolSound env (pool.insertTx env tx byLocal).1 := by
  unfold TxPool.insertTx
  dsimp only
  cases overlap : (pool.pending.lookup (senderOf env tx)).filter (·.overlaps tx) with
  | some list =>
    obtain ⟨lookup, overlaps⟩ := Option.filter_eq_some_iff.mp overlap
    have same : pool.openList .pending (senderOf env tx) = list := openList_eq lookup
    subst same
    dsimp only
    cases added : (pool.openList .pending (senderOf env tx)).add tx pool.config.priceBump with
    | none => exact sound
    | some out =>
      obtain ⟨c, settled, refines⟩ := sound
      obtain ⟨addr, sender⟩ := new.signed
      obtain rfl : senderOf env tx = addr := senderOf_eq sender
      refine refines.replace added new.unknown sender new.typed ?_ settled
      intro x known signer nonce
      obtain ⟨y, found⟩ := Option.isSome_iff_exists.mp overlaps
      obtain ⟨member, nonceY⟩ := TxSortedMap.get_eq_some found
      obtain ⟨loc, signerY⟩ := (refines.filed .pending _ y).mp (mem_openList.mp member)
      have same := c.single x y known (by rw [loc]; rfl) (signer.trans signerY.symm)
        (nonce.trans nonceY.symm)
      rwa [same]
  | none =>
    have apart : ∀ x ∈ listed pool.pending (senderOf env tx),
        x.accountNonce ≠ tx.accountNonce := by
      intro x member nonce
      rw [listed] at member
      cases lookup : pool.pending.lookup (senderOf env tx) with
      | none =>
        rw [lookup] at member
        cases member
      | some list =>
        rw [lookup, Option.elim_some] at member
        rw [lookup, Option.filter_eq_none_iff] at overlap
        have free : list.txs.get tx.accountNonce = none := by
          simpa [TxList.overlaps] using overlap list rfl
        exact TxSortedMap.get_eq_none.mp free x member nonce
    have queued := sound.enqueueNew new apart
    cases out : pool.enqueueTx env tx with
    | mk pool' result =>
      rw [out] at queued
      cases result with
      | error e => exact queued
      | ok replaced => exact queued.of_same rfl rfl rfl rfl

theorem PoolSound.add (sound : PoolSound env pool)
    {result : Except PoolError Bool} (added : pool.add env tx byLocal = some (pool', result)) :
    PoolSound env pool' := by
  unfold TxPool.add at added
  cases alive : pool.live env tx with
  | true =>
    simp only [alive, if_true] at added
    cases added
    exact sound
  | false =>
    simp only [alive, Bool.false_eq_true, if_false] at added
    cases checked : validateTx (pool.view env) tx with
    | none => simp [checked] at added
    | some verdict =>
      cases verdict with
      | error e =>
        simp only [checked] at added
        cases added
        exact sound
      | ok _ =>
        simp only [checked] at added
        obtain ⟨room, gone⟩ := sound.makeRoom tx
        cases made : pool.makeRoom env tx with
        | mk roomy fits =>
          rw [made] at room gone
          rw [made] at added
          have new : Newcomer env roomy tx :=
            ⟨gone alive, validateTx_signed checked, validateTx_type checked⟩
          cases fits with
          | false =>
            cases added
            exact room
          | true =>
            have placed := room.insertTx new byLocal
            rw [Option.some.inj added] at placed
            exact placed

theorem Refines.taken_known (refines : Refines env c loose pool)
    {kept : TxSortedMap} {out : List Transaction}
    (splits : (pool.openList shelf addr).txs.Splits (out, kept)) :
    ∀ x ∈ out, c.loc x = some (.filed shelf) ∧ env.signer x = .ok addr := by
  intro x member
  exact (refines.filed shelf addr x).mp (mem_openList.mp (splits.mem_iff.mpr (.inl member)))

section

variable (sound : PoolSound env pool)
include sound

theorem PoolSound.shed {kept : TxList}
    {out : List Transaction} {after : TxPool → Transaction → TxPool}
    (harmless : ∀ (c : Stations env) pool tx, Refines env c [] pool → Refines env c [] (after pool tx))
    (splits : (pool.openList shelf addr).txs.Splits (out, kept.txs))
    (strict : kept.strict = (pool.openList shelf addr).strict) :
    PoolSound env (out.foldl (fun pool tx => after (pool.forget env (hashOf env tx)) tx)
      (pool.setList shelf addr kept)) := by
  obtain ⟨c, settled, refines⟩ := sound
  have up : ∀ x ∈ out, (c.move out .afloat).loc x = some .afloat := by
    intro x member
    simp [member, (refines.taken_known splits x member).1]
  refine ⟨_, ?_, (refines.take splits strict).forgetEach harmless splits.nodup up⟩
  intro x
  by_cases gone : x ∈ out
  · simp [gone]
  · simpa [gone] using settled x

theorem PoolSound.dropOld (shelf : Shelf) (addr : Address) :
    PoolSound env (pool.dropOld env shelf addr) :=
  sound.shed (fun _ _ _ => id) (TxList.forward_splits ..) rfl

theorem PoolSound.dropUnpayable (shelf : Shelf) (addr : Address) :
    ∃ c : Stations env, Refines env c [] (pool.dropUnpayable env shelf addr).1 ∧
      (∀ x, c.loc x = some .afloat ↔ x ∈ (pool.dropUnpayable env shelf addr).2) ∧
      (pool.dropUnpayable env shelf addr).2.Nodup ∧
      (shelf = .queue → (pool.dropUnpayable env shelf addr).2 = []) := by
  obtain ⟨c, settled, refines⟩ := sound
  unfold TxPool.dropUnpayable
  dsimp only
  cases filtered : (pool.openList shelf addr).filter (pool.currentState.getBalance addr)
      pool.currentMaxGas with
  | mk drops rest =>
    obtain ⟨invalids, list⟩ := rest
    obtain ⟨perm, strict, lax⟩ := TxList.filter_spec filtered
    have splits : (pool.openList shelf addr).txs.Splits (drops ++ invalids, list.txs) := by
      rw [TxSortedMap.Splits, append_assoc]
      exact perm
    obtain ⟨apartD, apartI, apart⟩ := nodup_append'.mp splits.nodup
    have perm := env.txOrder_perm pool.visits drops
    have up : ∀ x ∈ drops ++ invalids, (c.move (drops ++ invalids) .afloat).loc x = some .afloat := by
      intro x member
      rw [Stations.loc_move, if_pos member, (refines.taken_known splits x member).1]
      rfl
    have forgotten := (refines.take splits strict).visit.forgetAll (perm.nodup_iff.mpr apartD)
      fun x member => up x (mem_append_left _ (perm.mem_iff.mp member))
    refine ⟨_, forgotten, fun x => ?_, apartI, ?_⟩
    · rw [Stations.loc_drop]
      by_cases dropped : x ∈ env.txOrder pool.visits drops
      · rw [if_pos dropped]
        constructor
        · rintro ⟨⟩
        · intro invalid
          exact absurd invalid (apart (perm.mem_iff.mp dropped))
      · rw [if_neg dropped]
        have kept : x ∉ drops := fun member => dropped (perm.mem_iff.mpr member)
        by_cases invalid : x ∈ invalids
        · simp only [invalid, iff_true]
          exact up x (mem_append_right _ invalid)
        · simpa [kept, invalid] using settled x
    · rintro rfl
      exact lax (refines.openList_lax addr)

theorem PoolSound.promoteReady (addr : Address) : PoolSound env (pool.promoteReady env addr) := by
  obtain ⟨c, settled, refines⟩ := sound
  have splits := (pool.openList .queue addr).ready_splits (pool.pendingState addr)
  have strict : ((pool.openList .queue addr).ready (pool.pendingState addr)).2.strict =
    (pool.openList .queue addr).strict := rfl
  unfold TxPool.promoteReady
  generalize (pool.openList .queue addr).ready (pool.pendingState addr) = out at splits strict ⊢
  refine ⟨_, Stations.settled_move ?_, (refines.take splits strict).moveAll .pending splits.nodup ?_ ?_⟩
  · intro x stays
    simpa [stays] using settled x
  · intro x member
    simp [member, (refines.taken_known splits x member).1]
  · intro c' pool' x member refines' up
    exact refines'.promoteTx up (refines.taken_known splits x member).2

theorem PoolSound.tidyQueue (addr : Address) : PoolSound env (pool.tidyQueue addr) := by
  obtain ⟨c, settled, refines⟩ := sound
  exact ⟨c, settled, refines.tidyQueue addr⟩

theorem PoolSound.tidyPending (addr : Address) : PoolSound env (pool.tidyPending addr) := by
  obtain ⟨c, settled, refines⟩ := sound
  exact ⟨c, settled, refines.tidyPending addr⟩

theorem PoolSound.capQueue
    (capped : pool.capQueue env addr = some pool') : PoolSound env pool' := by
  unfold TxPool.capQueue at capped
  split at capped
  · cases capped
    exact sound
  · split at capped
    · cases capped
    · cases capped
      exact sound.shed (fun _ _ _ => id) (TxList.cap_splits ..) rfl

theorem PoolSound.promoteAccount
    (promoted : pool.promoteAccount env addr = some pool') : PoolSound env pool' := by
  unfold TxPool.promoteAccount at promoted
  split at promoted
  · cases promoted
    exact sound
  · obtain ⟨capped, found, rfl⟩ := Option.map_eq_some_iff.mp promoted
    obtain ⟨c, refines, afloat, -, none⟩ := (sound.dropOld .queue addr).dropUnpayable .queue addr
    have settled : c.Settled := by
      intro x up
      have member := (afloat x).mp up
      rw [none rfl] at member
      cases member
    have payable : PoolSound env ((pool.dropOld env .queue addr).dropUnpayable env .queue addr).1 :=
      ⟨c, settled, refines⟩
    exact ((payable.promoteReady addr).capQueue found).tidyQueue addr

theorem PoolSound.demoteGapped (addr : Address) : PoolSound env (pool.demoteGapped env addr) := by
  unfold TxPool.demoteGapped
  dsimp only
  split
  · exact sound
  · obtain ⟨c, settled, refines⟩ := sound
    have splits := (pool.openList .pending addr).cap_splits 0
    refine ⟨_, Stations.settled_move ?_, (refines.take splits rfl).enqueueAll splits.nodup ?_⟩
    · intro x stays
      simpa [stays] using settled x
    · intro x member
      simp [member, (refines.taken_known splits x member).1]

theorem PoolSound.demoteAccount (addr : Address) : PoolSound env (pool.demoteAccount env addr) := by
  unfold TxPool.demoteAccount
  split
  · exact sound
  · obtain ⟨c, refines, afloat, apart, -⟩ := (sound.dropOld .pending addr).dropUnpayable .pending addr
    have perm := env.txOrder_perm ((pool.dropOld env .pending addr).dropUnpayable env .pending addr).1.visits
      ((pool.dropOld env .pending addr).dropUnpayable env .pending addr).2
    have queued := refines.visit.enqueueAll (perm.nodup_iff.mpr apart)
      fun x member => (afloat x).mpr (perm.mem_iff.mp member)
    have rest : PoolSound env _ := ⟨_, Stations.settled_move fun x stays up =>
      stays (perm.mem_iff.mpr ((afloat x).mp up)), queued⟩
    exact (rest.demoteGapped addr).tidyPending addr

theorem PoolSound.trim (addr : Address) : PoolSound env (pool.trim env addr) := by
  unfold TxPool.trim
  cases lookup : pool.pending.lookup addr with
  | none => exact sound
  | some list =>
    have same : pool.openList .pending addr = list := openList_eq lookup
    subst same
    exact sound.shed (fun _ _ tx refines => refines.lowerPendingNonce addr tx.accountNonce)
      (TxList.cap_splits ..) rfl

theorem PoolSound.promoteExecutables {accounts : Option (List Address)}
    (promoted : pool.promoteExecutables env accounts = some pool') : PoolSound env pool' :=
  promoteExecutables_keeps (fun _ => PoolSound.visit) (fun _ addr sound => sound.trim addr)
    (fun _ txs sound => sound.removeAll txs true) (fun _ _ _ sound => sound.promoteAccount) sound promoted

theorem PoolSound.demoteUnexecutables : PoolSound env (pool.demoteUnexecutables env) := by
  have turn : ∀ mid addr, PoolSound env mid → PoolSound env (mid.demoteAccount env addr) :=
    fun _ addr sound => sound.demoteAccount addr
  exact foldl_keeps turn sound.visit _

theorem PoolSound.addTx (added : pool.addTx env tx byLocal = some pool') : PoolSound env pool' :=
  addTx_keeps (fun _ _ _ sound => sound.promoteExecutables) (fun _ _ => sound.add) added

theorem PoolSound.addTxsLocked {txs : List Transaction}
    (added : pool.addTxsLocked env txs byLocal = some pool') : PoolSound env pool' :=
  addTxsLocked_keeps (fun _ _ _ sound => sound.promoteExecutables)
    (fun _ _ _ _ _ sound => sound.add) sound (fun _ => PoolSound.visit) added

theorem PoolSound.refreshNonces
    (refreshed : pool.refreshNonces = some pool') : PoolSound env pool' := by
  refine loop_keeps ?_ sound refreshed
  intro pool entry pool' sound set
  obtain ⟨last, -, rfl⟩ := Option.map_eq_some_iff.mp set
  exact sound.of_same rfl rfl rfl rfl

theorem PoolSound.reset {bc : BlockChain} {oldHead : Option Header}
    {newHead : Header} (done : pool.reset env bc oldHead newHead = some pool') :
    PoolSound env pool' := by
  unfold TxPool.reset at done
  split at done
  · cases done
  · cases done
    exact sound
  · cases done
    exact sound
  · obtain ⟨added, found, rest⟩ := Option.bind_eq_some_iff.mp done
    obtain ⟨refreshed, found', rest⟩ := Option.bind_eq_some_iff.mp rest
    have placed : PoolSound env added := by
      refine PoolSound.addTxsLocked ?_ found
      exact sound.of_same rfl rfl rfl rfl
    exact (placed.demoteUnexecutables.refreshNonces found').promoteExecutables rest

end

def capped (env : PoolEnv σ) (pool : TxPool) (price : ℤ) : List Transaction :=
  (pool.priced.cap (pool.live env) (pool.isLocal env) price).1

theorem Refines.setGasPrice (refines : Refines env c [] pool) (settled : c.Settled) (price : ℤ) :
    ∃ c' : Stations env, c'.Settled ∧ Refines env c' [] (pool.setGasPrice env price) ∧
      ∀ x, (c'.loc x).isSome ↔ (c.loc x).isSome ∧
        ∀ tx ∈ capped env pool price, hashOf env x ≠ hashOf env tx := by
  have swept : Refines env c (capped env pool price)
      { pool with priced := (pool.priced.cap (pool.live env) (pool.isLocal env) price).2 } :=
    refines.reprice fun y alive inHeap => TxPricedList.mem_swept alive inHeap
  have priced : Refines env c (capped env pool price) { pool with
      gasPrice := price
      priced := (pool.priced.cap (pool.live env) (pool.isLocal env) price).2 } :=
    swept.of_same rfl rfl rfl rfl
  exact priced.removeLoose settled

theorem PoolSound.setGasPrice (sound : PoolSound env pool) (price : ℤ) :
    PoolSound env (pool.setGasPrice env price) := by
  obtain ⟨c, settled, refines⟩ := sound
  obtain ⟨c', settled', refines', -⟩ := refines.setGasPrice settled price
  exact ⟨c', settled', refines'⟩

theorem PoolSound.evict (sound : PoolSound env pool) : PoolSound env (pool.evict env) :=
  evict_keeps (fun _ => PoolSound.visit) (fun _ txs sound => sound.removeAll txs true) sound

theorem PoolSound.initial (env : PoolEnv σ) : PoolSound env (TxPool.initial env) := by
  let none : Stations env :=
    { loc := fun _ => none
      signed := fun _ held => nomatch held
      typed := fun _ held => nomatch held
      single := fun _ _ held => nomatch held }
  have absent (tx : Transaction) : ¬ (none.loc tx).isSome := Bool.false_ne_true
  refine ⟨none, ?_, ?_, ?_, ?_, ?_, ?_⟩
  · rintro tx ⟨⟩
  · intro tx
    constructor
    · rintro ⟨⟩
    · exact fun held => absurd held (absent tx)
  · rintro hash tx ⟨⟩
  · intro shelf addr tx
    cases shelf <;> constructor
    · rintro ⟨⟩
    · rintro ⟨⟨⟩, -⟩
    · rintro ⟨⟩
    · rintro ⟨⟨⟩, -⟩
  · rintro addr list ⟨⟩
  · exact fun tx held => absurd held (absent tx)

theorem PoolSound.step (sound : PoolSound env pool) {call : TxPool.Call}
    (stepped : pool.step env call = some pool') : PoolSound env pool' := by
  cases call with
  | addLocal tx => exact sound.addTx stepped
  | addRemote tx => exact sound.addTx stepped
  | addLocals txs => exact sound.addTxsLocked stepped
  | addRemotes txs => exact sound.addTxsLocked stepped
  | newHead bc old new =>
    refine PoolSound.reset ?_ stepped
    exact sound.of_same rfl rfl rfl rfl
  | updateGasPrice bc header =>
    cases stepped
    exact updateGasPrice_keeps sound.setGasPrice sound bc header
  | setGasPrice price =>
    cases stepped
    exact sound.setGasPrice price
  | evict =>
    cases stepped
    exact sound.evict

theorem PoolSound.of_reachable (reachable : TxPool.Reachable env pool) : PoolSound env pool := by
  obtain ⟨bc, start, calls, made, ran⟩ := reachable
  unfold TxPool.newTxPool at made
  split at made
  · exact loop_keeps (fun _ _ _ sound stepped => PoolSound.step sound stepped)
      ((PoolSound.initial env).reset made) ran
  · cases made

end

end Anduschain
