import Anduschain.TxPool

/-! What holds of every pool that can be reached: each transaction it knows stands in one
place, and no two have one sender and one nonce. An assignment of stations says where the
transactions are; the operations of the pool move them. -/
namespace Anduschain
open ByteOrder BinaryHeap List TxPool

inductive Station where
  | filed (shelf : Shelf)
  | afloat
  deriving DecidableEq

section
variable {σ : Type}

/-- The known transactions and where they are: each has a sender and an admitted type, and no two
have one sender and one nonce. -/
@[ext] structure Stations (env : PoolEnv σ) where
  loc : Transaction → Option Station
  signed : ∀ tx, (loc tx).isSome → ∃ addr, env.signer tx = .ok addr
  typed : ∀ tx, (loc tx).isSome → tx.txType = joinTx ∨ priceRuled tx = true
  single : ∀ x y, (loc x).isSome → (loc y).isSome → env.signer x = env.signer y →
    x.accountNonce = y.accountNonce → x = y

namespace Stations
variable {env : PoolEnv σ}

def Settled (c : Stations env) : Prop := ∀ tx, c.loc tx ≠ some .afloat

/-- The same transactions, or some of them, in other places. -/
def relocate (c : Stations env) (loc : Transaction → Option Station)
    (known : ∀ tx, (loc tx).isSome → (c.loc tx).isSome) : Stations env where
  loc
  signed tx held := c.signed tx (known tx held)
  typed tx held := c.typed tx (known tx held)
  single x y hx hy := c.single x y (known x hx) (known y hy)

def move (c : Stations env) (txs : List Transaction) (s : Station) : Stations env :=
  c.relocate (fun x => if x ∈ txs then (c.loc x).map fun _ => s else c.loc x) (by
    intro x held
    split at held
    · simpa using held
    · exact held)

def drop (c : Stations env) (txs : List Transaction) : Stations env :=
  c.relocate (fun x => if x ∈ txs then none else c.loc x) (by
    intro x held
    split at held
    · cases held
    · exact held)

def enter (c : Stations env) (tx : Transaction) (s : Station)
    (signed : ∃ addr, env.signer tx = .ok addr) (typed : tx.txType = joinTx ∨ priceRuled tx = true)
    (fresh : ∀ x, (c.loc x).isSome → env.signer x = env.signer tx → x.accountNonce ≠ tx.accountNonce) :
    Stations env where
  loc x := if x = tx then some s else c.loc x
  signed x held := by
    by_cases new : x = tx
    · rwa [new]
    · exact c.signed x (by simpa [new] using held)
  typed x held := by
    by_cases new : x = tx
    · rwa [new]
    · exact c.typed x (by simpa [new] using held)
  single x y hx hy sender nonce := by
    by_cases newX : x = tx
    · by_cases newY : y = tx
      · rw [newX, newY]
      · subst newX
        exact absurd nonce.symm (fresh y (by simpa [newY] using hy) sender.symm)
    · by_cases newY : y = tx
      · subst newY
        exact absurd nonce (fresh x (by simpa [newX] using hx) sender)
      · exact c.single x y (by simpa [newX] using hx) (by simpa [newY] using hy) sender nonce

variable (c : Stations env)

@[simp] theorem loc_move (txs : List Transaction) (s : Station) (x : Transaction) :
    (c.move txs s).loc x = if x ∈ txs then (c.loc x).map fun _ => s else c.loc x := rfl

@[simp] theorem loc_drop (txs : List Transaction) (x : Transaction) :
    (c.drop txs).loc x = if x ∈ txs then none else c.loc x := rfl

theorem loc_drop_single (tx x : Transaction) :
    (c.drop [tx]).loc x = if x = tx then none else c.loc x := by
  simp only [loc_drop, mem_singleton]

theorem loc_move_single (tx : Transaction) (s : Station) (x : Transaction) :
    (c.move [tx] s).loc x = if x = tx then (c.loc x).map fun _ => s else c.loc x := by
  simp only [loc_move, mem_singleton]

theorem drop_cons (tx : Transaction) (rest : List Transaction) :
    c.drop (tx :: rest) = (c.drop [tx]).drop rest := by
  apply Stations.ext
  funext x
  by_cases inside : x ∈ rest <;> simp [inside]

theorem move_cons (tx : Transaction) (rest : List Transaction) (s : Station) :
    c.move (tx :: rest) s = (c.move [tx] s).move rest s := by
  apply Stations.ext
  funext x
  by_cases inside : x ∈ rest
  · by_cases head : x = tx <;> simp [inside, head, Function.comp_def]
  · simp [inside]

@[simp] theorem isSome_move (txs : List Transaction) (s : Station)
    (x : Transaction) : ((c.move txs s).loc x).isSome = (c.loc x).isSome := by
  rw [loc_move]
  split
  · exact Option.isSome_map
  · rfl

end Stations

def listed (lists : AccountLists) (addr : Address) : List Transaction :=
  (lists.lookup addr).elim [] TxList.flatten

/-- The pool is as the assignment says. The price heap has every known transaction but those taken
out to be removed. -/
structure Refines (env : PoolEnv σ) (c : Stations env) (loose : List Transaction) (pool : TxPool) :
    Prop where
  held : ∀ tx, pool.all.lookup (hashOf env tx) = some tx ↔ (c.loc tx).isSome
  keyed : ∀ hash tx, pool.all.lookup hash = some tx → hashOf env tx = hash
  filed : ∀ shelf addr tx, tx ∈ listed (pool.lists shelf) addr ↔
    c.loc tx = some (.filed shelf) ∧ env.signer tx = .ok addr
  lax : ∀ addr list, pool.queue.lookup addr = some list → list.strict = false
  priced : ∀ tx, (c.loc tx).isSome → tx ∈ pool.priced.items.toList ∨ tx ∈ loose

end

namespace TxPool

section

variable (pool : TxPool) (shelf : Shelf) (addr : Address)

@[simp] theorem setList_all (list : TxList) : (pool.setList shelf addr list).all = pool.all := by
  cases shelf <;> rfl

@[simp] theorem setList_priced (list : TxList) :
    (pool.setList shelf addr list).priced = pool.priced := by
  cases shelf <;> rfl

@[simp] theorem deleteList_all : (pool.deleteList shelf addr).all = pool.all := by
  cases shelf <;> rfl

@[simp] theorem deleteList_priced : (pool.deleteList shelf addr).priced = pool.priced := by
  cases shelf <;> rfl

end

theorem setLists_lists (pool : TxPool) (lists : AccountLists) (shelf other : Shelf) :
    (pool.setLists lists shelf).lists other = if other = shelf then lists else pool.lists other := by
  cases shelf <;> cases other <;> rfl

end TxPool

theorem listed_insert (lists : AccountLists) (addr a : Address) (list : TxList) :
    listed (lists.insert addr list) a = if a = addr then list.flatten else listed lists a := by
  by_cases same : a = addr
  · rw [if_pos same, same, listed, AList.lookup_insert, Option.elim_some]
  · rw [if_neg same, listed, AList.lookup_insert_ne same, listed]

theorem listed_erase (lists : AccountLists) (addr a : Address) :
    listed (lists.erase addr) a = if a = addr then [] else listed lists a := by
  by_cases same : a = addr
  · rw [if_pos same, same, listed, AList.lookup_erase, Option.elim_none]
  · rw [if_neg same, listed, AList.lookup_erase_ne same, listed]

theorem listed_setList (pool : TxPool) (shelf other : Shelf) (addr a : Address) (list : TxList) :
    listed ((pool.setList shelf addr list).lists other) a =
      if other = shelf ∧ a = addr then list.flatten else listed (pool.lists other) a := by
  rw [TxPool.setList, setLists_lists]
  by_cases same : other = shelf
  · subst same
    simp only [if_true, listed_insert, true_and]
  · simp only [same, if_false, false_and]

theorem listed_deleteList (pool : TxPool) (shelf other : Shelf) (addr a : Address) :
    listed ((pool.deleteList shelf addr).lists other) a =
      if other = shelf ∧ a = addr then [] else listed (pool.lists other) a := by
  rw [TxPool.deleteList, setLists_lists]
  by_cases same : other = shelf
  · subst same
    simp only [if_true, listed_erase, true_and]
  · simp only [same, if_false, false_and]

theorem lookup_queue_setList {pool : TxPool} {shelf : Shelf} {addr a : Address} {list l : TxList}
    (found : (pool.setList shelf addr list).queue.lookup a = some l) :
    shelf = .queue ∧ a = addr ∧ l = list ∨ pool.queue.lookup a = some l := by
  cases shelf with
  | pending => exact .inr found
  | queue =>
    by_cases same : a = addr
    · subst same
      refine .inl ⟨rfl, rfl, ?_⟩
      exact Option.some.inj (found.symm.trans (AList.lookup_insert _))
    · exact .inr ((AList.lookup_insert_ne same).symm.trans found)

section Refinement
variable {σ : Type} {env : PoolEnv σ} {c : Stations env} {loose : List Transaction} {pool : TxPool}
  {shelf : Shelf} {addr : Address} {list kept : TxList} {tx : Transaction} {txs : List Transaction}
  {x : Transaction} {invalids : List Transaction} {outofbound : Bool}

theorem mem_openList :
    x ∈ (pool.openList shelf addr).txs.items ↔ x ∈ listed (pool.lists shelf) addr := by
  unfold openList listed
  cases (pool.lists shelf).lookup addr <;> rfl

theorem openList_eq
    (found : (pool.lists shelf).lookup addr = some list) : pool.openList shelf addr = list := by
  rw [openList, found]
  rfl

section

variable (refines : Refines env c loose pool)
include refines

theorem Refines.openList_lax (addr : Address) : (pool.openList .queue addr).strict = false := by
  unfold openList
  cases found : (pool.lists .queue).lookup addr with
  | none => rfl
  | some list => exact refines.lax addr list found

theorem Refines.refile {place : Station} (strict : list.strict = (pool.openList shelf addr).strict)
    (filed : ∀ other a x, x ∈ listed ((pool.setList shelf addr list).lists other) a ↔
      (c.move txs place).loc x = some (.filed other) ∧ env.signer x = .ok a) :
    Refines env (c.move txs place) loose (pool.setList shelf addr list) where
  held x := by
    rw [Stations.isSome_move, setList_all]
    exact refines.held x
  keyed := by
    rw [setList_all]
    exact refines.keyed
  filed
  lax a l lookup := by
    rcases lookup_queue_setList lookup with ⟨rfl, rfl, rfl⟩ | lookup
    · exact strict.trans (refines.openList_lax a)
    · exact refines.lax a l lookup
  priced x held := by
    rw [Stations.isSome_move] at held
    rw [setList_priced]
    exact refines.priced x held

theorem Refines.take {out : List Transaction}
    (splits : (pool.openList shelf addr).txs.Splits (out, kept.txs))
    (strict : kept.strict = (pool.openList shelf addr).strict) :
    Refines env (c.move out .afloat) loose (pool.setList shelf addr kept) := by
  refine refines.refile strict fun other a x => ?_
  have here := refines.filed shelf addr x
  rw [← mem_openList] at here
  rw [listed_setList, Stations.loc_move]
  by_cases taken : x ∈ out
  · obtain ⟨loc, sender⟩ := here.mp (splits.mem_iff.mpr (.inl taken))
    rw [if_pos taken, loc]
    constructor
    · intro member
      split at member
      · exact absurd taken (splits.kept_iff.mp member).2
      · rename_i elsewhere
        obtain ⟨locA, senderA⟩ := (refines.filed other a x).mp member
        refine absurd ⟨?_, ?_⟩ elsewhere
        · rw [loc] at locA
          cases locA
          rfl
        · rw [sender] at senderA
          cases senderA
          rfl
    · rintro ⟨⟨⟩, -⟩
  · rw [if_neg taken]
    split
    · rename_i same
      obtain ⟨rfl, rfl⟩ := same
      rw [← here]
      exact splits.kept_iff.trans ⟨fun both => both.1, fun inside => ⟨inside, taken⟩⟩
    · exact refines.filed other a x

theorem Refines.hash_inj {y : Transaction} (hx : (c.loc x).isSome) (hy : (c.loc y).isSome)
    (same : hashOf env x = hashOf env y) : x = y := by
  have foundX := (refines.held x).mpr hx
  rw [same, (refines.held y).mpr hy] at foundX
  exact (Option.some.inj foundX).symm

theorem Refines.erase (known : (c.loc tx).isSome) (x : Transaction) :
    (pool.all.erase (hashOf env tx)).lookup (hashOf env x) = some x ↔
      ((c.drop [tx]).loc x).isSome := by
  rw [Stations.loc_drop_single]
  by_cases same : x = tx
  · rw [same, if_pos rfl, AList.lookup_erase]
    simp
  · rw [if_neg same]
    by_cases hash : hashOf env x = hashOf env tx
    · rw [hash, AList.lookup_erase]
      constructor
      · rintro ⟨⟩
      · intro held
        exact absurd (refines.hash_inj held known hash) same
    · rw [AList.lookup_erase_ne hash]
      exact refines.held x

theorem Refines.unlist (up : c.loc tx = some .afloat) (outofbound : Bool) :
    Refines env (c.drop [tx]) loose (pool.unlist env (hashOf env tx) outofbound) := by
  have known : (c.loc tx).isSome := by
    rw [up]
    rfl
  have all : (pool.unlist env (hashOf env tx) outofbound).all =
      pool.all.erase (hashOf env tx) := by
    cases outofbound <;> rfl
  have lists : (pool.unlist env (hashOf env tx) outofbound).lists = pool.lists := by
    funext shelf
    cases outofbound <;> cases shelf <;> rfl
  constructor
  · rw [all]
    exact refines.erase known
  · intro hash x found
    rw [all] at found
    by_cases same : hash = hashOf env tx
    · rw [same, AList.lookup_erase] at found
      cases found
    · exact refines.keyed hash x ((AList.lookup_erase_ne same).symm.trans found)
  · intro shelf addr x
    rw [lists, refines.filed shelf addr x, Stations.loc_drop_single]
    by_cases same : x = tx
    · rw [same, up, if_pos rfl]
      constructor <;> rintro ⟨⟨⟩, -⟩
    · rw [if_neg same]
  · intro addr list found
    have queue : (pool.unlist env (hashOf env tx) outofbound).queue = pool.queue :=
      congrFun lists .queue
    rw [queue] at found
    exact refines.lax addr list found
  · intro x held
    have before : (c.loc x).isSome := by
      rw [Stations.loc_drop] at held
      split at held
      · cases held
      · exact held
    refine (refines.priced x before).imp_left fun inHeap => ?_
    cases outofbound with
    | false => exact inHeap
    | true =>
      apply TxPricedList.mem_removed inHeap
      rw [(env.txOrder_perm _ _).mem_iff]
      have found := (refines.erase known x).mpr held
      exact mem_map.mpr ⟨_, AList.mem_lookup_iff.mp found, rfl⟩

theorem Refines.of_same {pool' : TxPool}
    (all : pool'.all = pool.all) (priced : pool'.priced = pool.priced)
    (pending : pool'.pending = pool.pending) (queue : pool'.queue = pool.queue) :
    Refines env c loose pool' := by
  have lists : pool'.lists = pool.lists := by
    funext shelf
    cases shelf with
    | pending => exact pending
    | queue => exact queue
  constructor
  · rw [all]
    exact refines.held
  · rw [all]
    exact refines.keyed
  · rw [lists]
    exact refines.filed
  · rw [queue]
    exact refines.lax
  · rw [priced]
    exact refines.priced

end

theorem Refines.forgetEach {after : TxPool → Transaction → TxPool}
    (harmless : ∀ (c : Stations env) pool tx, Refines env c loose pool → Refines env c loose (after pool tx))
    (refines : Refines env c loose pool) (apart : txs.Nodup) (up : ∀ tx ∈ txs, c.loc tx = some .afloat) :
    Refines env (c.drop txs) loose
      (txs.foldl (fun pool tx => after (pool.forget env (hashOf env tx)) tx) pool) := by
  induction txs generalizing c pool with
  | nil => exact refines
  | cons tx rest ih =>
    obtain ⟨absent, apart⟩ := nodup_cons.mp apart
    have first := harmless _ _ tx (refines.unlist (up tx mem_cons_self) true)
    rw [Stations.drop_cons]
    refine ih first apart ?_
    intro x member
    have other : x ≠ tx := by
      rintro rfl
      exact absent member
    rw [Stations.loc_drop_single, if_neg other]
    exact up x (mem_cons_of_mem _ member)

theorem Refines.forgetAll (refines : Refines env c loose pool)
    (apart : txs.Nodup) (up : ∀ tx ∈ txs, c.loc tx = some .afloat) :
    Refines env (c.drop txs) loose (pool.forgetAll env txs) :=
  Refines.forgetEach (fun _ _ _ => id) refines apart up

theorem senderOf_eq (sender : env.signer tx = .ok addr) : senderOf env tx = addr := by
  rw [senderOf, sender]

section

variable (refines : Refines env c loose pool)
include refines

theorem Refines.free
    (up : c.loc tx = some .afloat) (sender : env.signer tx = .ok addr) (shelf : Shelf) :
    (pool.openList shelf addr).txs.get tx.accountNonce = none := by
  rw [TxSortedMap.get_eq_none]
  intro x member nonce
  obtain ⟨loc, signer⟩ := (refines.filed shelf addr x).mp (mem_openList.mp member)
  have same := c.single x tx (by rw [loc]; rfl) (by rw [up]; rfl) (signer.trans sender.symm) nonce
  rw [same, up] at loc
  cases loc

theorem Refines.settle (up : c.loc tx = some .afloat) (sender : env.signer tx = .ok addr)
    (txs : list.txs = (pool.openList shelf addr).txs.put tx)
    (strict : list.strict = (pool.openList shelf addr).strict) :
    Refines env (c.move [tx] (.filed shelf)) loose (pool.setList shelf addr list) := by
  refine refines.refile strict fun other a x => ?_
  rw [listed_setList, Stations.loc_move_single]
  by_cases same : x = tx
  · subst same
    rw [if_pos rfl, up, sender]
    split
    · rename_i here
      obtain ⟨rfl, rfl⟩ := here
      rw [TxList.flatten, txs, TxSortedMap.mem_put]
      simp
    · rename_i elsewhere
      refine ⟨fun member => ?_, ?_⟩
      · have loc := ((refines.filed other a x).mp member).1
        rw [up] at loc
        cases loc
      · rintro ⟨⟨⟩, ⟨⟩⟩
        exact absurd ⟨rfl, rfl⟩ elsewhere
  · rw [if_neg same]
    split
    · rename_i here
      obtain ⟨rfl, rfl⟩ := here
      have free := TxSortedMap.get_eq_none.mp (refines.free up sender other)
      rw [TxList.flatten, txs, TxSortedMap.mem_put, ← refines.filed, ← mem_openList]
      constructor
      · rintro (new | ⟨member, -⟩)
        · exact absurd new same
        · exact member
      · intro member
        exact .inr ⟨member, free x member⟩
    · exact refines.filed other a x

theorem Refines.live_iff (known : (c.loc tx).isSome) : pool.live env tx = true := by
  rw [TxPool.live, (refines.held tx).mpr known]
  rfl

theorem Refines.visit : Refines env c loose pool.visit :=
  refines.of_same rfl rfl rfl rfl

theorem Refines.put
    (up : c.loc tx = some .afloat) (sender : env.signer tx = .ok addr) (shelf : Shelf) (bump : UInt64) :
    ∃ list, (pool.openList shelf addr).add tx bump = some (none, list) ∧
      (pool.setList shelf addr list).replaced env none tx = pool.setList shelf addr list ∧
      Refines env (c.move [tx] (.filed shelf)) loose (pool.setList shelf addr list) := by
  obtain ⟨list, added⟩ := TxList.add_of_get_eq_none bump (refines.free up sender shelf)
  obtain ⟨-, txs, strict⟩ := TxList.add_eq_some added
  have settled := refines.settle up sender txs strict
  refine ⟨list, added, ?_, settled⟩
  have known : ((c.move [tx] (.filed shelf)).loc tx).isSome := by
    rw [Stations.isSome_move, up]
    rfl
  simp [TxPool.replaced, TxPool.forgetAll, settled.live_iff known]

theorem Refines.enqueueTx (up : c.loc tx = some .afloat) :
    Refines env (c.move [tx] (.filed .queue)) loose (pool.enqueueTx env tx).1 := by
  obtain ⟨addr, sender⟩ := c.signed tx (by rw [up]; rfl)
  obtain ⟨list, added, replaced, settled⟩ := refines.put up sender .queue pool.config.priceBump
  rw [TxPool.enqueueTx, senderOf_eq sender]
  simp only [added, replaced]
  exact settled

theorem Refines.promoteTx (up : c.loc tx = some .afloat) (sender : env.signer tx = .ok addr) :
    Refines env (c.move [tx] (.filed .pending)) loose (pool.promoteTx env addr tx).1 := by
  obtain ⟨list, added, replaced, settled⟩ := refines.put up sender .pending pool.config.priceBump
  rw [TxPool.promoteTx]
  simp only [added, replaced]
  exact settled.of_same rfl rfl rfl rfl

theorem Refines.moveAll {put : TxPool → Transaction → TxPool} (shelf : Shelf) (apart : txs.Nodup)
    (up : ∀ tx ∈ txs, c.loc tx = some .afloat)
    (each : ∀ (c : Stations env) pool, ∀ tx ∈ txs, Refines env c loose pool →
      c.loc tx = some .afloat → Refines env (c.move [tx] (.filed shelf)) loose (put pool tx)) :
    Refines env (c.move txs (.filed shelf)) loose (txs.foldl put pool) := by
  induction txs generalizing c pool with
  | nil =>
    have same : c.move [] (.filed shelf) = c := by
      apply Stations.ext
      funext x
      simp
    rwa [same]
  | cons tx rest ih =>
    obtain ⟨absent, apart⟩ := nodup_cons.mp apart
    have first := each c pool tx mem_cons_self refines (up tx mem_cons_self)
    rw [Stations.move_cons]
    apply ih first apart
    · intro x member
      have other : x ≠ tx := by
        rintro rfl
        exact absent member
      rw [Stations.loc_move_single, if_neg other]
      exact up x (mem_cons_of_mem _ member)
    · intro c pool x member
      exact each c pool x (mem_cons_of_mem _ member)

theorem Refines.enqueueAll (apart : txs.Nodup) (up : ∀ tx ∈ txs, c.loc tx = some .afloat) :
    Refines env (c.move txs (.filed .queue)) loose (pool.enqueueAll env txs) :=
  refines.moveAll .queue apart up fun _ _ _ _ refines up => refines.enqueueTx up

end

theorem move_nil (c : Stations env) (s : Station) : c.move [] s = c := by
  apply Stations.ext
  funext x
  simp

theorem Refines.tidied
    (refines : Refines env c loose (pool.setList shelf addr list)) (empty : list.empty = true) :
    Refines env c loose (pool.deleteList shelf addr) := by
  have none : list.flatten = [] := length_eq_zero_iff.mp (beq_iff_eq.mp empty)
  have same (other : Shelf) (a : Address) : listed ((pool.deleteList shelf addr).lists other) a =
      listed ((pool.setList shelf addr list).lists other) a := by
    rw [listed_deleteList, listed_setList, none]
  constructor
  · simpa using refines.held
  · simpa using refines.keyed
  · intro other a x
    rw [same]
    exact refines.filed other a x
  · intro a l found
    cases shelf with
    | pending => exact refines.lax a l found
    | queue =>
      by_cases here : a = addr
      · subst here
        exact absurd ((AList.lookup_erase _ _).symm.trans found) (by simp)
      · apply refines.lax a l
        exact (AList.lookup_insert_ne here).trans ((AList.lookup_erase_ne here).symm.trans found)
  · simpa using refines.priced

section

variable (refines : Refines env c loose pool)
include refines

theorem Refines.setList_same :
    Refines env c loose (pool.setList shelf addr (pool.openList shelf addr)) := by
  have kept : Refines env (c.move [] .afloat) loose
      (pool.setList shelf addr (pool.openList shelf addr)) := refines.take (.refl _) rfl
  rwa [move_nil] at kept

theorem Refines.tidyPending (addr : Address) : Refines env c loose (pool.tidyPending addr) := by
  unfold TxPool.tidyPending
  split
  · exact (refines.setList_same.tidied ‹_›).of_same rfl rfl rfl rfl
  · exact refines

theorem Refines.tidyQueue (addr : Address) : Refines env c loose (pool.tidyQueue addr) := by
  unfold TxPool.tidyQueue
  split
  · exact refines.setList_same.tidied ‹_›
  · exact refines

theorem Refines.lowerPendingNonce (addr : Address) (nonce : UInt64) :
    Refines env c loose (pool.lowerPendingNonce addr nonce) := by
  unfold TxPool.lowerPendingNonce
  split
  · exact refines.of_same rfl rfl rfl rfl
  · exact refines

end

theorem unlist_setList (pool : TxPool) (hash : Hash) (outofbound : Bool) (shelf : Shelf)
    (addr : Address) (list : TxList) :
    (pool.setList shelf addr list).unlist env hash outofbound =
      (pool.unlist env hash outofbound).setList shelf addr list := by
  cases outofbound <;> cases shelf <;> rfl

theorem unlist_pending (pool : TxPool) (hash : Hash) (outofbound : Bool) :
    (pool.unlist env hash outofbound).pending = pool.pending := by
  cases outofbound <;> rfl

theorem unlist_queue (pool : TxPool) (hash : Hash) (outofbound : Bool) :
    (pool.unlist env hash outofbound).queue = pool.queue := by
  cases outofbound <;> rfl

theorem Refines.only (refines : Refines env c loose pool)
    (known : (c.loc tx).isSome) (sender : env.signer tx = .ok addr) (shelf : Shelf) :
    ∀ x ∈ (pool.openList shelf addr).txs.items, x.accountNonce = tx.accountNonce → x = tx := by
  intro x member nonce
  obtain ⟨loc, signer⟩ := (refines.filed shelf addr x).mp (mem_openList.mp member)
  exact c.single x tx (by rw [loc]; rfl) known (signer.trans sender.symm) nonce

theorem move_congr {txs' : List Transaction} (same : ∀ x, x ∈ txs ↔ x ∈ txs') (s : Station) :
    c.move txs s = c.move txs' s := by
  apply Stations.ext
  funext x
  simp [same x]

/-- What a removal leaves: those that a strict list lost with the transaction wait in the queue.
-/
def Stations.without (c : Stations env) (tx : Transaction) (invalids : List Transaction) :
    Stations env :=
  ((c.move (tx :: invalids) .afloat).drop [tx]).move invalids (.filed .queue)

theorem Stations.loc_without (c : Stations env) (tx : Transaction) (invalids : List Transaction)
    (x : Transaction) :
    (c.without tx invalids).loc x = if x = tx then none else
      if x ∈ invalids then (c.loc x).map fun _ => .filed .queue else c.loc x := by
  by_cases gone : x = tx
  · simp [without, gone]
  · by_cases waits : x ∈ invalids <;> simp [without, gone, waits, Function.comp_def]

theorem Stations.settled_move
    (elsewhere : ∀ x, x ∉ txs → c.loc x ≠ some .afloat) : (c.move txs (.filed shelf)).Settled := by
  intro x
  rw [loc_move]
  split
  · cases c.loc x <;> simp
  · exact elsewhere x ‹_›

theorem Stations.Settled.without (settled : c.Settled) (tx : Transaction) (invalids : List Transaction) :
    (c.without tx invalids).Settled := by
  refine Stations.settled_move fun x stays => ?_
  by_cases gone : x = tx
  · simp [gone]
  · simpa [gone, stays] using settled x

variable (refines : Refines env c loose pool)
include refines

theorem Refines.known_without
    (known : (c.loc tx).isSome) (invalids : List Transaction) (x : Transaction) :
    ((c.without tx invalids).loc x).isSome ↔
      (c.loc x).isSome ∧ hashOf env x ≠ hashOf env tx := by
  rw [Stations.loc_without]
  by_cases gone : x = tx
  · simp [gone]
  · have other : (c.loc x).isSome → hashOf env x ≠ hashOf env tx :=
      fun held hash => gone (refines.hash_inj held known hash)
    rw [if_neg gone]
    split
    · rw [Option.isSome_map]
      exact ⟨fun held => ⟨held, other held⟩, And.left⟩
    · exact ⟨fun held => ⟨held, other held⟩, And.left⟩

theorem Refines.removed (outofbound : Bool)
    (known : (c.loc tx).isSome) (sender : env.signer tx = .ok addr)
    (removed : (pool.openList shelf addr).remove tx = some (invalids, kept)) :
    Refines env ((c.move (tx :: invalids) .afloat).drop [tx]) loose
      ((pool.unlist env (hashOf env tx) outofbound).setList shelf addr kept) := by
  obtain ⟨splits, strict, -⟩ := TxList.remove_eq_some removed (refines.only known sender shelf)
  have up : (c.move (tx :: invalids) .afloat).loc tx = some .afloat := by
    obtain ⟨s, loc⟩ := Option.isSome_iff_exists.mp known
    simp [loc]
  have gone := (refines.take splits strict).unlist up outofbound
  rwa [unlist_setList] at gone

theorem Refines.removePending (known : (c.loc tx).isSome) (sender : env.signer tx = .ok addr)
    (removed : (pool.openList .pending addr).remove tx = some (invalids, kept)) (n : ℕ) :
    Refines env (c.without tx invalids) loose
      ((((pool.unlist env (hashOf env tx) outofbound).setList .pending addr kept).tidyPending
        addr).visit.enqueueAll env (env.txOrder n invalids)) := by
  obtain ⟨splits, -, -⟩ := TxList.remove_eq_some removed (refines.only known sender .pending)
  have tidy := (refines.removed outofbound known sender removed).tidyPending addr
  have perm := env.txOrder_perm n invalids
  obtain ⟨absent, apart⟩ := nodup_cons.mp splits.nodup
  rw [Stations.without, move_congr (fun x => perm.mem_iff.symm)]
  refine tidy.visit.enqueueAll (perm.nodup_iff.mpr apart) ?_
  intro x member
  have waits := perm.mem_iff.mp member
  have other : x ≠ tx := by
    rintro rfl
    exact absent waits
  have inside := mem_openList.mp (splits.mem_iff.mpr (.inl (mem_cons_of_mem _ waits)))
  simp [other, waits, ((refines.filed _ _ _).mp inside).1]

theorem Refines.removeQueued
    (queued : c.loc tx = some (.filed .queue)) (sender : env.signer tx = .ok addr) :
    Refines env (c.without tx []) loose
      ((pool.unlist env (hashOf env tx) outofbound).removeQueued addr tx) := by
  have known : (c.loc tx).isSome := by
    rw [queued]
    rfl
  have member := (refines.filed .queue addr tx).mpr ⟨queued, sender⟩
  unfold TxPool.removeQueued
  rw [unlist_queue]
  cases found : pool.queue.lookup addr with
  | none =>
    rw [listed, TxPool.lists, found] at member
    cases member
  | some future =>
    have same : pool.openList .queue addr = future := openList_eq found
    subst same
    cases removed : (pool.openList .queue addr).remove tx with
    | none => exact absurd rfl (TxList.remove_eq_none removed tx (mem_openList.mpr member))
    | some out =>
      obtain ⟨invalids, kept⟩ := out
      obtain ⟨-, -, lax⟩ := TxList.remove_eq_some removed (refines.only known sender .queue)
      obtain rfl := lax (refines.openList_lax addr)
      rw [Stations.without, move_nil]
      simp only [removed, Option.elim_some]
      exact (refines.removed outofbound known sender removed).tidyQueue addr

theorem Refines.removeTx (settled : c.Settled) (hash : Hash) (outofbound : Bool) :
    ∃ c' : Stations env, c'.Settled ∧ Refines env c' loose (pool.removeTx env hash outofbound) ∧
      ∀ x, (c'.loc x).isSome ↔ (c.loc x).isSome ∧ hashOf env x ≠ hash := by
  unfold TxPool.removeTx
  cases found : pool.all.lookup hash with
  | none =>
    refine ⟨c, settled, refines, fun x => ⟨fun known => ⟨known, ?_⟩, And.left⟩⟩
    rintro rfl
    rw [(refines.held x).mpr known] at found
    cases found
  | some tx =>
    obtain rfl := refines.keyed hash tx found
    have known := (refines.held tx).mp found
    obtain ⟨addr, sender⟩ := c.signed tx known
    obtain rfl : senderOf env tx = addr := senderOf_eq sender
    simp only [unlist_pending]
    cases removed : (pool.pending.lookup (senderOf env tx)).bind (·.remove tx) with
    | some out =>
      obtain ⟨invalids, kept⟩ := out
      obtain ⟨list, lookup, removed⟩ := Option.bind_eq_some_iff.mp removed
      have same : pool.openList .pending (senderOf env tx) = list := openList_eq lookup
      rw [← same] at removed
      refine ⟨c.without tx invalids, settled.without tx invalids, ?_,
        refines.known_without known invalids⟩
      exact (refines.removePending known sender removed _).lowerPendingNonce _ tx.accountNonce
    | none =>
      refine ⟨c.without tx [], settled.without tx [], ?_, refines.known_without known []⟩
      refine refines.removeQueued ?_ sender
      obtain ⟨s, loc⟩ := Option.isSome_iff_exists.mp known
      rcases s with (_ | _) | _
      · have member := (refines.filed .pending _ tx).mpr ⟨loc, sender⟩
        cases lookup : pool.pending.lookup (senderOf env tx) with
        | none =>
          rw [listed, TxPool.lists, lookup] at member
          cases member
        | some list =>
          have same : pool.openList .pending (senderOf env tx) = list := openList_eq lookup
          rw [lookup, Option.bind_some] at removed
          rw [← mem_openList, same] at member
          exact absurd rfl (TxList.remove_eq_none removed tx member)
      · exact loc
      · exact absurd loc (settled tx)

end Refinement

end Anduschain
