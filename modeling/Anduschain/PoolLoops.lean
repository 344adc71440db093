import Anduschain.TxPool

/-! Rules for the loops of the transaction pool. What the turns of a loop keep, the loop keeps;
the rules hold for any property of a pool. -/
namespace Anduschain.TxPool
variable {σ : Type} {env : PoolEnv σ} {Inv : TxPool → Prop} {pool pool' : TxPool}

theorem foldl_keeps {α : Type} {f : TxPool → α → TxPool} (each : ∀ pool a, Inv pool → Inv (f pool a))
    (start : Inv pool) (as : List α) : Inv (as.foldl f pool) := by
  induction as generalizing pool with
  | nil => exact start
  | cons a rest ih => exact ih (each pool a start)

theorem loop_keeps {α : Type} {f : TxPool → α → Option TxPool}
    (each : ∀ pool a pool', Inv pool → f pool a = some pool' → Inv pool') (start : Inv pool)
    {as : List α} (ran : FiniteRun.run f pool as = some pool') : Inv pool' :=
  FiniteRun.run_keeps (fun pool a pool' start _ => each pool a pool' start) start
    (FiniteRun.guarded_true pool as) ran

section Limits
variable (visit : ∀ pool, Inv pool → Inv pool.visit)
  (trim : ∀ pool addr, Inv pool → Inv (pool.trim env addr))
  (remove : ∀ pool txs, Inv pool → Inv (pool.removeAll env txs true))
include trim

theorem equalize_keeps (offenders : List Address) (last : Address) (threshold turns pending : ℕ)
    (start : Inv pool) : Inv (equalize env offenders last threshold turns (pool, pending)).1 := by
  induction turns generalizing pool pending with
  | zero => exact start
  | succ turns ih =>
    rw [equalize]
    split
    · exact ih _ (foldl_keeps trim start offenders)
    · exact start

theorem penalize_keeps (turns : ℕ) (spammers : Prque Address) (offenders : List Address)
    (pending : ℕ) (start : Inv pool) :
    Inv (penalize env turns spammers offenders (pool, pending)).2.1 := by
  induction turns generalizing spammers offenders pool pending with
  | zero => exact start
  | succ turns ih =>
    rw [penalize]
    split
    · cases spammers.pop with
      | none => exact start
      | some out =>
        refine ih _ _ _ ?_
        cases offenders.getLast? with
        | none => exact start
        | some last => exact equalize_keeps trim _ _ _ _ _ start
    · exact start

include visit

theorem limitPending_keeps (start : Inv pool) : Inv (pool.limitPending env) := by
  unfold limitPending
  dsimp only
  split
  · generalize (env.accountOrder pool.visits pool.pending.keys).foldl _ Prque.new = spammers
    have penalized : Inv (penalize env spammers.size spammers [] (pool.visit, _)).2.1 :=
      penalize_keeps trim _ _ _ (totalLen pool.pending) (visit pool start)
    generalize penalize env spammers.size spammers [] _ = out at penalized
    obtain ⟨offenders, mid, pending⟩ := out
    cases last : offenders.getLast? with
    | none => simpa [last] using penalized
    | some addr => simpa [last] using equalize_keeps trim _ _ _ _ _ penalized
  · exact start

omit trim visit in
include remove in
theorem dropQueued_keeps (accounts : List Address) (drop : ℕ) (start : Inv pool) :
    Inv (dropQueued env accounts drop pool) := by
  induction accounts generalizing drop pool with
  | nil => exact start
  | cons addr rest ih =>
    rw [dropQueued]
    split
    · exact start
    · dsimp only
      split
      · exact ih _ (remove _ _ start)
      · exact remove _ _ start

omit trim in
include remove in
theorem limitQueue_keeps (start : Inv pool) : Inv (pool.limitQueue env) := by
  unfold limitQueue
  dsimp only
  split
  · exact dropQueued_keeps remove _ _ (visit pool start)
  · exact start

include remove in
theorem promoteExecutables_keeps
    (turn : ∀ pool addr pool', Inv pool → pool.promoteAccount env addr = some pool' → Inv pool')
    {accounts : Option (List Address)} (start : Inv pool)
    (promoted : pool.promoteExecutables env accounts = some pool') : Inv pool' := by
  obtain ⟨ran, run, same⟩ := Option.bind_eq_some_iff.mp promoted
  cases same
  have each : Inv ran := loop_keeps turn (visit pool start) run
  exact limitQueue_keeps visit remove (limitPending_keeps visit trim each)

end Limits

section Additions
variable {byLocal : Bool} {txs : List Transaction}
  (promote : ∀ pool accounts pool', Inv pool → pool.promoteExecutables env accounts = some pool' →
    Inv pool')

include promote in
theorem addTx_keeps {tx : Transaction}
    (add : ∀ pool' result, pool.add env tx byLocal = some (pool', result) → Inv pool')
    (added : pool.addTx env tx byLocal = some pool') : Inv pool' := by
  obtain ⟨⟨mid, result⟩, found, rest⟩ := Option.bind_eq_some_iff.mp added
  have placed := add mid result found
  match result, rest with
  | .ok false, rest => exact promote _ _ _ placed rest
  | .ok true, rest =>
    cases rest
    exact placed
  | .error e, rest =>
    cases rest
    exact placed

variable
  (add : ∀ tx ∈ txs, ∀ pool pool' result, Inv pool → pool.add env tx byLocal = some (pool', result) → Inv pool')
  (start : Inv pool)
include add start

theorem addEach_keeps {dirty dirty' : List Address}
    (added : addEach env txs byLocal (pool, dirty) = some (pool', dirty')) : Inv pool' := by
  induction txs generalizing pool dirty with
  | nil =>
    cases added
    exact start
  | cons tx rest ih =>
    obtain ⟨⟨mid, result⟩, found, rest⟩ := Option.bind_eq_some_iff.mp added
    have placed := add tx List.mem_cons_self pool mid result start found
    have later := fun tx member => add tx (List.mem_cons_of_mem _ member)
    match result, rest with
    | .ok false, rest => exact ih later placed rest
    | .ok true, rest => exact ih later placed rest
    | .error e, rest => exact ih later placed rest

include promote in
theorem addTxsLocked_keeps (visit : ∀ pool, Inv pool → Inv pool.visit)
    (added : pool.addTxsLocked env txs byLocal = some pool') : Inv pool' := by
  obtain ⟨⟨mid, dirty⟩, found, rest⟩ := Option.bind_eq_some_iff.mp added
  have placed := addEach_keeps add start found
  dsimp only at rest
  split at rest
  · cases rest
    exact placed
  · exact promote _ _ _ (visit mid placed) rest

end Additions

theorem evict_keeps (visit : ∀ pool, Inv pool → Inv pool.visit)
    (remove : ∀ pool txs, Inv pool → Inv (pool.removeAll env txs true)) (start : Inv pool) :
    Inv (pool.evict env) := by
  refine foldl_keeps (fun pool addr start => ?_) (visit pool start) _
  split
  · exact remove _ _ (visit pool start)
  · exact visit pool start

theorem updateGasPrice_keeps (set : ∀ price, Inv (pool.setGasPrice env price)) (start : Inv pool)
    (bc : BlockChain) (header : Header) : Inv (pool.updateGasPrice env bc header) := by
  unfold updateGasPrice
  dsimp only
  generalize (bc.canonical (headNumber header) >>= _) = found
  cases found with
  | none => exact start
  | some otprn => exact set _

end Anduschain.TxPool
