import Anduschain.PoolStock
import Anduschain.PriceEviction

/-! The join nonces of pooled join transactions. Validation compares them with the state of the
head once; a reset drops what is old or cannot be paid for and looks at no join nonce again. -/
namespace Anduschain
open ByteOrder FiniteRun List
open TxPool (hashOf senderOf openList)

def Joined (state : StateDB) (addr : Address) (tx : Transaction) : Prop :=
  tx.txType = joinTx → tx.joinNonce = some (.ok (state.getJoinNonce addr))

def JoinsMatch {σ : Type} (env : PoolEnv σ) (pool : TxPool) : Prop :=
  ∀ shelf addr, ∀ x ∈ listed (pool.lists shelf) addr, x.txType = joinTx →
    env.signer x = .ok addr ∧ x.joinNonce = some (.ok (pool.currentState.getJoinNonce addr))

def TxPool.known (pool : TxPool) : List Transaction := pool.all.entries.map Sigma.snd

/-- On a new head, a known join transaction that would pass the other checks has its sender's join
nonce there. -/
def TxPool.Matched {σ : Type} (env : PoolEnv σ) (pool : TxPool) : TxPool.Call → Prop
  | .newHead bc _ new => ∀ statedb ∈ bc.states new.root, ∀ tx ∈ pool.known,
      ∀ addr ∈ (env.signer tx).toOption,
        (TxPool.Setting.mk pool.config statedb new.gasLimit).Alive addr tx → Joined statedb addr tx
  | _ => True

section Stocks
variable {σ : Type} {env : PoolEnv σ} {s : TxPool.Setting} {pool pool' : TxPool} {shelf : Shelf}
  {addr : Address} {x : Transaction} {bc : BlockChain}

theorem PoolSound.listed_known (sound : PoolSound env pool)
    (member : x ∈ listed (pool.lists shelf) addr) : x ∈ pool.known := by
  obtain ⟨c, -, refines⟩ := sound
  have held := (refines.held x).mpr (by rw [((refines.filed shelf addr x).mp member).1]; rfl)
  exact mem_map.mpr ⟨⟨_, x⟩, AList.mem_lookup_iff.mp held, rfl⟩

theorem validateTx_joined {view : PoolView} {tx : Transaction}
    (admitted : validateTx view tx = some (.ok ())) (sender : view.signer tx = .ok addr) :
    (tx.Within (view.currentState.getBalance addr) view.currentMaxGas ∧
      view.currentState.getNonce addr ≤ tx.accountNonce) ∧ Joined view.currentState addr tx := by
  unfold validateTx at admitted
  split at admitted
  · simp at admitted
  · rename_i found checked
    simp only [checkSender, CheckedSteps.bind_eq_ok, CheckedSteps.mapError_eq_ok,
      CheckedSteps.rejectIf_eq_ok] at checked
    obtain ⟨-, -, -, gas, sender', signed, -, funds, -, nonce, same⟩ := checked
    rw [sender] at signed
    cases signed
    cases same
    simp only [not_lt, UInt64.not_lt] at gas funds nonce
    refine ⟨⟨⟨funds, gas⟩, nonce⟩, fun join => ?_⟩
    rw [if_pos join, Option.map_eq_some_iff] at admitted
    obtain ⟨field, read, checked⟩ := admitted
    simp only [checkJoinNonce, CheckedSteps.bind_eq_ok, CheckedSteps.mapError_eq_ok,
      CheckedSteps.rejectIf_eq_ok, not_not] at checked
    obtain ⟨jnonce, rfl, same⟩ := checked
    rw [read, same]

/-- While the accounts of a shelf are gone through: join transactions that are alive have the
right join nonce, and on accounts that had their turn everything is alive. -/
def Stock.review (env : PoolEnv σ) (s : TxPool.Setting) (done : Shelf → Address → Prop)
    (first : ∀ a, done .queue a → done .pending a) : Stock env s where
  admits shelf x :=
    (s.Alive (senderOf env x) x → Joined s.currentState (senderOf env x) x) ∧
      (done shelf (senderOf env x) → s.Alive (senderOf env x) x)
  enter pool setting tx valid shelf := by
    obtain ⟨addr, signed⟩ := validateTx_signed valid
    obtain ⟨⟨pays, fresh⟩, joined⟩ := validateTx_joined valid signed
    rw [senderOf_eq signed, ← setting]
    exact ⟨fun _ => joined, fun _ => ⟨fresh, pays⟩⟩
  lower x admitted := ⟨admitted.1, fun turn => admitted.2 (first _ turn)⟩
  raise x admitted alive := ⟨admitted.1, fun _ => alive⟩

def Stock.settled (env : PoolEnv σ) (s : TxPool.Setting) : Stock env s :=
  Stock.review env s (fun _ _ => True) fun _ => id

theorem InStock.joinsMatch (stocked : InStock (.settled env pool.setting) pool)
    (sound : PoolSound env pool) : JoinsMatch env pool := by
  intro shelf addr x member join
  obtain ⟨c, -, refines⟩ := sound
  obtain ⟨sender, joined, alive⟩ := stocked.listed member
  rw [sender] at joined alive
  exact ⟨((refines.filed shelf addr x).mp member).2, joined (alive trivial) join⟩

theorem InStock.reviewed {f : TxPool → Address → Option TxPool}
    {k : (Address → Prop) → Stock env s} {done : Address → Prop} {accounts : List Address}
    (turn : ∀ done addr pool pool', InStock (k done) pool → f pool addr = some pool' →
      InStock (k fun a => done a ∨ a = addr) pool')
    (stocked : InStock (k done) pool) (ran : run f pool accounts = some pool') :
    InStock (k fun a => done a ∨ a ∈ accounts) pool' := by
  induction accounts generalizing pool done with
  | nil =>
    cases ran
    simpa only [not_mem_nil, or_false] using stocked
  | cons addr rest ih =>
    obtain ⟨mid, stepped, ran⟩ := run_cons.mp ran
    have later := ih (turn done addr pool mid stocked stepped) ran
    simpa only [mem_cons, or_assoc] using later

def Stock.demoting (env : PoolEnv σ) (s : TxPool.Setting) (done : Address → Prop) : Stock env s :=
  Stock.review env s (fun shelf a => shelf = .pending ∧ done a) fun _ turn => nomatch turn.1

def Stock.promoting (env : PoolEnv σ) (s : TxPool.Setting) (done : Address → Prop) : Stock env s :=
  Stock.review env s (fun shelf a => shelf = .queue → done a) fun _ _ pending => nomatch pending

theorem not_listed_of_not_mem
    (absent : addr ∉ (pool.lists shelf).keys) : x ∉ listed (pool.lists shelf) addr := by
  rw [listed, AList.lookup_eq_none.mpr absent]
  exact not_mem_nil

theorem InStock.demoteUnexecutables (stocked : InStock (.demoting env s fun _ => False) pool) :
    InStock (.promoting env s fun _ => False) (pool.demoteUnexecutables env) := by
  have perm := env.accountOrder_perm pool.visits pool.pending.keys
  have idle : InStock (.demoting env s (· ∉ pool.pending.keys)) pool.visit := by
    refine stocked.visit.under fun shelf a x member sender admitted => ⟨admitted.1, ?_⟩
    rintro ⟨rfl, absent⟩
    rw [sender] at absent
    rw [TxPool.lists_visit] at member
    exact absurd member (not_listed_of_not_mem absent)
  have turn : ∀ done addr mid mid', InStock (.demoting env s done) mid →
      some (mid.demoteAccount env addr) = some mid' →
      InStock (.demoting env s fun a => done a ∨ a = addr) mid' := by
    rintro done addr mid mid' stocked ⟨⟩
    refine stocked.demoteAccount addr (fun shelf x admitted alive => ⟨admitted.1, ?_⟩)
      fun x admitted => ⟨admitted.1, fun turn => nomatch turn.1⟩
    rintro ⟨pending, before | here⟩
    · exact admitted.2 ⟨pending, before⟩
    · rw [here]
      exact alive pending here
  refine (idle.reviewed turn (run_total ..)).under fun shelf a x _ _ admitted => ⟨admitted.1, ?_⟩
  intro last
  cases shelf with
  | queue => exact (last rfl).elim
  | pending =>
    refine admitted.2 ⟨rfl, ?_⟩
    dsimp only
    rw [perm.mem_iff]
    exact (Classical.em _).symm

theorem InStock.settle (stocked : InStock (.promoting env s fun _ => False) pool)
    (promoted : pool.promoteExecutables env none = some pool') :
    InStock (.settled env s) pool' := by
  obtain ⟨ran, run, same⟩ := Option.bind_eq_some_iff.mp promoted
  cases same
  have perm := env.accountOrder_perm pool.visits pool.queue.keys
  have idle : InStock (.promoting env s (· ∉ pool.queue.keys)) pool.visit := by
    refine stocked.visit.under fun shelf a x member sender admitted => ⟨admitted.1, fun last => ?_⟩
    refine admitted.2 ?_
    rintro rfl
    have absent := last rfl
    rw [sender] at absent
    rw [TxPool.lists_visit] at member
    exact absurd member (not_listed_of_not_mem absent)
  have turn : ∀ done addr mid mid', InStock (.promoting env s done) mid →
      mid.promoteAccount env addr = some mid' →
      InStock (.promoting env s fun a => done a ∨ a = addr) mid' := by
    intro done addr mid mid' stocked promoted
    refine stocked.promoteAccount (fun shelf x admitted alive => ⟨admitted.1, fun turn => ?_⟩) promoted
    by_cases queued : shelf = .queue ∧ senderOf env x = addr
    · rw [queued.2]
      exact alive queued.1 queued.2
    · exact admitted.2 fun last => (turn last).resolve_right fun here => queued ⟨last, here⟩
  have after : InStock (.settled env s) ran := by
    refine (idle.reviewed turn run).under fun shelf a x _ _ admitted => ⟨admitted.1, fun _ => ?_⟩
    refine admitted.2 fun _ => ?_
    dsimp only [Option.getD_none]
    rw [perm.mem_iff]
    exact (Classical.em _).symm
  exact after.limits

theorem InStock.reset (stocked : InStock (.settled env pool.setting) pool)
    {oldHead : Option Header} {newHead : Header}
    (matched : ∀ statedb, bc.states newHead.root = some statedb → ∀ shelf addr,
      ∀ x ∈ Anduschain.listed (pool.lists shelf) addr,
        (TxPool.Setting.mk pool.config statedb newHead.gasLimit).Alive addr x → Joined statedb addr x)
    (done : pool.reset env bc oldHead newHead = some pool') :
    InStock (.settled env pool'.setting) pool' := by
  unfold TxPool.reset at done
  split at done
  · cases done
  · cases done
    exact stocked
  · cases done
    exact stocked
  · rename_i txs statedb _ found
    obtain ⟨added, filled, rest⟩ := Option.bind_eq_some_iff.mp done
    obtain ⟨refreshed, renewed, rest⟩ := Option.bind_eq_some_iff.mp rest
    have adopted : InStock (.demoting env ⟨pool.config, statedb, newHead.gasLimit⟩
        fun _ => False) { pool with
          currentState := statedb
          pendingState := statedb.getNonce
          currentMaxGas := newHead.gasLimit } := by
      refine ⟨rfl, fun shelf addr list inside => ?_⟩
      have inside : (pool.lists shelf).lookup addr = some list := by
        cases shelf <;> exact inside
      obtain ⟨strict, capped, within⟩ := stocked.lists shelf addr list inside
      refine ⟨strict, capped, fun x member => ⟨(within x member).1, fun alive => ?_, fun turn => turn.2.elim⟩⟩
      rw [(within x member).1] at alive ⊢
      refine matched statedb found shelf addr x ?_ alive
      rw [Anduschain.listed, inside]
      exact member
    have demoted := (adopted.addTxsLocked filled).demoteUnexecutables
    have settled := (demoted.refreshNonces renewed).settle rest
    rw [← settled.setting] at settled
    exact settled

theorem InStock.step (stocked : InStock (.settled env pool.setting) pool)
    (sound : PoolSound env pool) {call : TxPool.Call} (matched : pool.Matched env call)
    (stepped : pool.step env call = some pool') : InStock (.settled env pool'.setting) pool' := by
  have close {after : TxPool} (kept : InStock (.settled env pool.setting) after) :
      InStock (.settled env after.setting) after := by
    rwa [← kept.setting] at kept
  cases call with
  | addLocal tx => exact close (stocked.addTx stepped)
  | addRemote tx => exact close (stocked.addTx stepped)
  | addLocals txs => exact close (stocked.addTxsLocked stepped)
  | addRemotes txs => exact close (stocked.addTxsLocked stepped)
  | newHead bc old new =>
    let next : TxPool := { pool with
      homestead := pool.homestead || isForked env.homesteadBlock new.number }
    have forked : InStock (.settled env next.setting) next :=
      stocked.of_lists rfl (by funext shelf; cases shelf <;> rfl)
    refine forked.reset (fun statedb found shelf addr x member => ?_) stepped
    have inside : x ∈ Anduschain.listed (pool.lists shelf) addr := by
      cases shelf <;> exact member
    refine matched statedb found x (sound.listed_known inside) addr ?_
    obtain ⟨c, -, refines⟩ := sound
    rw [((refines.filed shelf addr x).mp inside).2]
    rfl
  | updateGasPrice bc header =>
    cases stepped
    exact close (stocked.updateGasPrice bc header)
  | setGasPrice price =>
    cases stepped
    exact close (stocked.setGasPrice price)
  | evict =>
    cases stepped
    exact close stocked.evict

theorem stocked_newTxPool (made : TxPool.newTxPool env bc = some pool) :
    InStock (.settled env pool.setting) pool ∧ PoolSound env pool := by
  unfold TxPool.newTxPool at made
  split at made
  · have none (shelf : Shelf) (addr : Address) :
        ((TxPool.initial env).lists shelf).lookup addr = none := by
      cases shelf <;> rfl
    have empty : InStock (.settled env (TxPool.initial env).setting) (TxPool.initial env) := by
      refine ⟨rfl, fun shelf addr list found => ?_⟩
      rw [none] at found
      cases found
    refine ⟨empty.reset (fun statedb _ shelf addr x member => ?_) made, (PoolSound.initial env).reset made⟩
    rw [Anduschain.listed, none] at member
    cases member
  · cases made

/-- In every run in which each new head meets the condition, the join nonces of the pool that is
reached are those of the current state. -/
theorem joinsMatch_of_matched {bc : BlockChain} {start : TxPool}
    (made : TxPool.newTxPool env bc = some start) {calls : List TxPool.Call}
    (matched : Guarded (TxPool.step env) (TxPool.Matched env) start calls)
    (ran : run (TxPool.step env) start calls = some pool) : JoinsMatch env pool := by
  have keeps : ∀ (pool : TxPool) call pool',
      InStock (.settled env pool.setting) pool ∧ PoolSound env pool → pool.Matched env call →
      pool.step env call = some pool' →
      InStock (.settled env pool'.setting) pool' ∧ PoolSound env pool' :=
    fun pool call pool' kept matched stepped =>
      ⟨kept.1.step kept.2 matched stepped, kept.2.step stepped⟩
  obtain ⟨stocked, sound⟩ := run_keeps keeps (stocked_newTxPool made) matched ran
  exact stocked.joinsMatch sound

end Stocks

section Samples

def sampleJoining (joinNonce : UInt64) : StateDB :=
  StateDB.put (fun _ => none) 8 { Account.fresh with joinNonce }

def sampleJoinChain : BlockChain :=
  { samplePoolChain with states := fun root => some (sampleJoining (if root = 1 then 1 else 0)) }

def sampleJoinHead (root : Hash) : TxPool.Call :=
  .newHead sampleJoinChain sampleJoinChain.currentBlock.header
    { sampleHeader with
      parentHash := sampleJoinChain.currentBlock.header.hash sampleCrypto, root, number := 1 }

/-- A join transaction stays in the pool over a block that leaves its sender's join nonce. -/
theorem samplePooledJoin_matches : ∃ start pool,
    TxPool.newTxPool samplePoolEnv sampleJoinChain = some start ∧
      run (TxPool.step samplePoolEnv) start [.addRemote samplePooledJoin, sampleJoinHead 0] = some pool ∧
      listed pool.pending 8 = [samplePooledJoin] ∧ JoinsMatch samplePoolEnv pool := by
  have checked : ((TxPool.newTxPool samplePoolEnv sampleJoinChain).any fun start =>
      (start.step samplePoolEnv (.addRemote samplePooledJoin)).any fun mid =>
        decide (mid.known = [samplePooledJoin]) &&
        (mid.step samplePoolEnv (sampleJoinHead 0)).any
          fun pool => decide (listed pool.pending 8 = [samplePooledJoin])) = true := by
    decide +kernel
  obtain ⟨start, made, holds⟩ := (Option.any_eq_true _ _).mp checked
  obtain ⟨mid, added, holds⟩ := (Option.any_eq_true _ _).mp holds
  obtain ⟨known, reached⟩ := Bool.and_eq_true_iff.mp holds
  obtain ⟨pool, stepped, pending⟩ := (Option.any_eq_true _ _).mp reached
  have matched : mid.Matched samplePoolEnv (sampleJoinHead 0) := by
    rintro statedb ⟨⟩ tx member addr ⟨⟩ - -
    rw [of_decide_eq_true known, mem_singleton] at member
    subst member
    decide +kernel
  -- From here on it does not matter which head it was.
  generalize sampleJoinHead 0 = call at matched stepped
  have ran : run (TxPool.step samplePoolEnv) start [.addRemote samplePooledJoin, call] = some pool :=
    run_cons.mpr ⟨mid, added, run_cons.mpr ⟨pool, stepped, rfl⟩⟩
  have guarded : Guarded (TxPool.step samplePoolEnv) (TxPool.Matched samplePoolEnv) start
      [.addRemote samplePooledJoin, call] := by
    simp only [Guarded, added, stepped, and_true]
    exact ⟨trivial, matched⟩
  exact ⟨start, pool, made, ran, of_decide_eq_true pending, joinsMatch_of_matched made guarded ran⟩

/-- A block in which the account joins leaves the transaction pending with the old join nonce. -/
theorem samplePooledJoin_outdated : ∃ start pool,
    TxPool.newTxPool samplePoolEnv sampleJoinChain = some start ∧
      run (TxPool.step samplePoolEnv) start [.addRemote samplePooledJoin, sampleJoinHead 1] = some pool ∧
      listed pool.pending 8 = [samplePooledJoin] ∧
      samplePooledJoin.joinNonce = some (.ok 0) ∧ pool.currentState.getJoinNonce 8 = 1 ∧
      ¬ JoinsMatch samplePoolEnv pool := by
  have checked : ((TxPool.newTxPool samplePoolEnv sampleJoinChain).any fun start =>
      (run (TxPool.step samplePoolEnv) start [.addRemote samplePooledJoin, sampleJoinHead 1]).any
        fun pool => decide (listed pool.pending 8 = [samplePooledJoin]) &&
          decide (pool.currentState.getJoinNonce 8 = 1)) = true := by
    decide +kernel
  obtain ⟨start, made, reached⟩ := (Option.any_eq_true _ _).mp checked
  obtain ⟨pool, ran, holds⟩ := (Option.any_eq_true _ _).mp reached
  obtain ⟨pending, moved⟩ := Bool.and_eq_true_iff.mp holds
  have pending := of_decide_eq_true pending
  have moved := of_decide_eq_true moved
  have read : samplePooledJoin.joinNonce = some (.ok 0) := by decide +kernel
  refine ⟨start, pool, made, ran, pending, read, moved, fun joined => ?_⟩
  have member : samplePooledJoin ∈ listed (pool.lists .pending) 8 := by
    rw [TxPool.lists, pending]
    exact mem_cons_self
  have same := (joined .pending 8 _ member rfl).2
  rw [read, moved] at same
  cases same

end Samples

end Anduschain
