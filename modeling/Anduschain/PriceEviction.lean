import Anduschain.PoolSafety

/-! Where the transactions that a pool knows stand, and what a change of its price threshold
deletes. -/
namespace Anduschain
open ByteOrder BinaryHeap
open TxPool (hashOf senderOf openList)

namespace TxPool
variable {σ : Type} (env : PoolEnv σ) (pool : TxPool)

def Knows (tx : Transaction) : Prop :=
  pool.all.lookup (hashOf env tx) = some tx

instance (env : PoolEnv σ) (pool : TxPool) (tx : Transaction) : Decidable (pool.Knows env tx) :=
  inferInstanceAs (Decidable (_ = _))

def DeletedBy (price : ℤ) (tx : Transaction) : Prop :=
  pool.Knows env tx ∧ ¬ (pool.setGasPrice env price).Knows env tx

/-- The transaction is one that `validateTx` would refuse for its price, of a sender that is
not local. -/
def Refusable (price : ℤ) (tx : Transaction) : Prop :=
  pool.Knows env tx ∧ pool.isLocal env tx = false ∧ priceRuled tx = true ∧ (tx.price : ℤ) < price

end TxPool

section
variable {σ : Type} {env : PoolEnv σ} {c : Stations env} {pool : TxPool}

/-- In every pool that can be reached a transaction is known exactly if it stands in one list,
which is that of its sender. It is in the price heap then, and no other one has its sender and
its nonce. -/
theorem known_in_one_place (pool : {pool // TxPool.Reachable env pool}) (x : Transaction) :
    (pool.1.Knows env x ↔ ∃! place : Shelf × Address, x ∈ listed (pool.1.lists place.1) place.2) ∧
      (∀ shelf addr, x ∈ listed (pool.1.lists shelf) addr → env.signer x = .ok addr) ∧
      (pool.1.Knows env x → x ∈ pool.1.priced.items.toList ∧
        ∀ y, pool.1.Knows env y → env.signer x = env.signer y →
          x.accountNonce = y.accountNonce → x = y) := by
  obtain ⟨c, settled, refines⟩ := PoolSound.of_reachable pool.2
  refine ⟨?_, fun shelf addr inList => ((refines.filed shelf addr x).1 inList).2, ?_⟩
  · simp only [refines.filed, TxPool.Knows, refines.held]
    constructor
    · intro known
      obtain ⟨addr, signed⟩ := c.signed x known
      obtain ⟨station, stands⟩ := Option.isSome_iff_exists.1 known
      cases station with
      | afloat => exact absurd stands (settled x)
      | filed shelf =>
        refine ⟨(shelf, addr), ⟨stands, signed⟩, fun place other => ?_⟩
        obtain ⟨stands', signed'⟩ := other
        rw [stands] at stands'
        rw [signed] at signed'
        cases stands'
        cases signed'
        rfl
    · rintro ⟨place, ⟨stands, -⟩, -⟩
      rw [stands]
      rfl
  · intro known
    have located := (refines.held x).1 known
    exact ⟨(refines.priced x located).resolve_right List.not_mem_nil,
      fun y known' => c.single x y located ((refines.held y).1 known')⟩

theorem mem_capped {price : ℤ} {tx : Transaction} :
    tx ∈ capped env pool price ↔ tx ∈ pool.priced.items.toList ∧ pool.live env tx = true ∧
      pool.isLocal env tx = false ∧ (tx.price : ℤ) < price := by
  constructor
  · intro member
    obtain ⟨inHeap, alive, below, remote⟩ := TxPricedList.drop_sweep rfl tx member
    exact ⟨inHeap, alive, remote, by simpa using below⟩
  · rintro ⟨inHeap, alive, remote, below⟩
    refine TxPricedList.sweep_complete (Nat.le_refl _) ?_ inHeap alive (by simpa using below) remote
    intro x z first reached
    have higher := price_le_of_priceLess first
    simp only [decide_eq_true_eq] at reached ⊢
    omega

theorem Refines.deletedBy_iff (refines : Refines env c [] pool) (settled : c.Settled) (price : ℤ)
    (collisionFree : Set.InjOn (hashOf env) {tx | tx ∈ pool.priced.items.toList})
    (tx : Transaction) :
    pool.DeletedBy env price tx ↔
      pool.Knows env tx ∧ pool.isLocal env tx = false ∧ (tx.price : ℤ) < price := by
  obtain ⟨c', -, refines', known⟩ := refines.setGasPrice settled price
  rw [TxPool.DeletedBy, TxPool.Knows, TxPool.Knows, refines'.held, known, ← refines.held]
  apply and_congr_right
  intro knows
  have held := (refines.held tx).mp knows
  have inHeap := (refines.priced tx held).resolve_right List.not_mem_nil
  rw [not_and, not_forall]
  constructor
  · intro gone
    obtain ⟨x, hit⟩ := gone knows
    obtain ⟨member, same⟩ : x ∈ capped env pool price ∧ hashOf env tx = hashOf env x := by
      simpa using hit
    obtain ⟨inHeapX, -, due⟩ := mem_capped.mp member
    rwa [collisionFree inHeap inHeapX same]
  · intro due _
    refine ⟨tx, fun apart => apart (mem_capped.mpr ⟨inHeap, refines.live_iff held, due⟩) rfl⟩

/-- `SetGasPrice` deletes exactly what admission would refuse if no join transaction of a
remote sender in the pool is below the price. -/
theorem setGasPrice_refusable_iff (reachable : TxPool.Reachable env pool) (price : ℤ)
    (collisionFree : Set.InjOn (hashOf env) {tx | tx ∈ pool.priced.items.toList}) :
    (∀ tx, pool.DeletedBy env price tx ↔ pool.Refusable env price tx) ↔
      ∀ tx, pool.Knows env tx → tx.txType = joinTx → pool.isLocal env tx = false → price ≤ tx.price := by
  obtain ⟨c, settled, refines⟩ := PoolSound.of_reachable reachable
  constructor
  · intro exactly tx knows join remote
    by_contra below
    have deleted := (refines.deletedBy_iff settled price collisionFree tx).mpr
      ⟨knows, remote, Int.lt_of_not_ge below⟩
    exact priceRuled_ne_join ((exactly tx).mp deleted).2.2.1 join
  · intro spared tx
    rw [refines.deletedBy_iff settled price collisionFree tx]
    constructor
    · rintro ⟨knows, remote, below⟩
      refine ⟨knows, remote, ?_, below⟩
      refine (c.typed tx ((refines.held tx).mp knows)).resolve_left fun join => ?_
      exact absurd (spared tx knows join remote) (Int.not_le_of_gt below)
    · rintro ⟨knows, remote, -, below⟩
      exact ⟨knows, remote, below⟩

end

def samplePoolEnv : PoolEnv Deb where
  chain := sampleSetup.env
  signer tx := .ok (BitVec.ofNat 160 tx.r)
  homesteadBlock := some 0
  config :=
    { locals := []
      noLocals := false
      priceLimit := 0
      priceBump := 10
      accountSlots := 80
      globalSlots := 20480
      accountQueue := 320
      globalQueue := 5120
      lifetime := 10800000000000 }
  now _ := 1
  accountOrder _ accounts := accounts
  accountOrder_perm _ _ := .refl _
  txOrder _ txs := txs
  txOrder_perm _ _ := .refl _

def samplePoolChain : BlockChain :=
  let chain := (sampleFullNode (soleAccount 9)).chain
  { chain with currentBlock := { chain.currentBlock with
      header := { chain.currentBlock.header with gasLimit := 21000 } } }

def samplePooledJoin : Transaction where
  txType := joinTx
  accountNonce := 0
  price := 0
  gasLimit := 0
  recipient := some jtxAddress
  amount := 0
  payload := List.replicate 40 0
  v := 0
  r := 8
  s := 0

def samplePooledTransfer : Transaction := { plainTransfer 0 9 0 with price := 0 }

def pooled (env : PoolEnv Deb) (bc : BlockChain) (calls : List TxPool.Call) (p : TxPool → Bool) :
    Bool :=
  ((TxPool.newTxPool env bc).bind fun start => FiniteRun.run (TxPool.step env) start calls).any p

theorem reachable_of_pooled {env : PoolEnv Deb} {bc : BlockChain} {calls : List TxPool.Call}
    {p : TxPool → Bool} (checked : pooled env bc calls p = true) :
    ∃ pool, TxPool.Reachable env pool ∧ p pool = true := by
  obtain ⟨pool, found, holds⟩ := (Option.any_eq_true _ _).mp checked
  obtain ⟨start, made, ran⟩ := Option.bind_eq_some_iff.mp found
  exact ⟨pool, ⟨bc, start, calls, made, ran⟩, holds⟩

/-- With the join transaction from a local sender, only the free transfer is deleted. -/
theorem samplePool_spares_local_join :
    ∃ pool, TxPool.Reachable samplePoolEnv pool ∧ pool.Knows samplePoolEnv samplePooledJoin ∧
      pool.Refusable samplePoolEnv 1 samplePooledTransfer ∧
      ∀ tx, pool.DeletedBy samplePoolEnv 1 tx ↔ pool.Refusable samplePoolEnv 1 tx := by
  have checked : pooled samplePoolEnv samplePoolChain
      [.addLocal samplePooledJoin, .addRemote samplePooledTransfer]
      (fun pool => decide (pool.Knows samplePoolEnv samplePooledJoin) &&
        decide (pool.Knows samplePoolEnv samplePooledTransfer) &&
        !pool.isLocal samplePoolEnv samplePooledTransfer &&
        decide (∀ x ∈ pool.priced.items.toList, ∀ y ∈ pool.priced.items.toList,
          hashOf samplePoolEnv x = hashOf samplePoolEnv y → x = y) &&
        decide (∀ entry ∈ pool.all.entries, entry.2.txType = joinTx →
          pool.isLocal samplePoolEnv entry.2 = true)) = true := by
    decide +kernel
  obtain ⟨pool, reachable, holds⟩ := reachable_of_pooled checked
  simp only [Bool.and_eq_true, decide_eq_true_eq, Bool.not_eq_true'] at holds
  obtain ⟨⟨⟨⟨knows, transfer⟩, remote⟩, injective⟩, localJoins⟩ := holds
  refine ⟨pool, reachable, knows, ⟨transfer, remote, rfl, by decide⟩, ?_⟩
  refine (setGasPrice_refusable_iff reachable 1 fun x hx y hy => injective x hx y hy).mpr ?_
  intro tx known join notLocal
  rw [localJoins ⟨_, tx⟩ (AList.mem_lookup_iff.mp known) join] at notLocal
  cases notLocal

/-- The join transaction of a remote sender, admitted at the price zero, is deleted. -/
theorem samplePool_deletes_join :
    ∃ pool, TxPool.Reachable samplePoolEnv pool ∧ samplePooledJoin.txType = joinTx ∧
      pool.isLocal samplePoolEnv samplePooledJoin = false ∧
      pool.DeletedBy samplePoolEnv 1 samplePooledJoin := by
  have checked : pooled samplePoolEnv samplePoolChain [.addRemote samplePooledJoin] (fun pool =>
      !pool.isLocal samplePoolEnv samplePooledJoin &&
        decide (pool.Knows samplePoolEnv samplePooledJoin) &&
        decide (¬ (pool.setGasPrice samplePoolEnv 1).Knows samplePoolEnv samplePooledJoin)) = true := by
    decide +kernel
  obtain ⟨pool, reachable, holds⟩ := reachable_of_pooled checked
  simp only [Bool.and_eq_true, decide_eq_true_eq, Bool.not_eq_true'] at holds
  exact ⟨pool, reachable, rfl, holds.1.1, holds.1.2, holds.2⟩

end Anduschain
