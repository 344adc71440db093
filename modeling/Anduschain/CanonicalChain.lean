import Anduschain.BlockImport
import Anduschain.ForkPath

/-! The tree of blocks a chain has stored, and what `WriteBlockWithState` (core/blockchain.go)
does to it: the blocks `reorg` walks over are the two branches above the block they share, and
the canonical index and the transaction lookups are written along the new branch only. -/
namespace Anduschain
open ByteOrder CheckedSteps List

structure Link where
  hash : Hash
  parentHash : Hash
  number : ℕ
  deriving DecidableEq

def Block.link (crypto : Crypto) (block : Block) : Link :=
  ⟨block.hash crypto, block.header.parentHash, block.header.number⟩

/-- Among these blocks a hash tells where a block stands, and no number is the last of uint64. -/
structure BlockTree (crypto : Crypto) (blocks : Set Block) : Prop where
  linked : ∀ a ∈ blocks, ∀ b ∈ blocks, a.hash crypto = b.hash crypto → a.link crypto = b.link crypto
  below : ∀ a ∈ blocks, a.header.number + 1 < 2 ^ 64

structure Genesis where
  block : Block
  first : block.header.number = 0

def Genesis.forest (crypto : Crypto) (genesis : Genesis) : Forest Link Hash where
  key := Link.hash
  parent := Link.parentHash
  height := Link.number
  root := genesis.block.link crypto
  root_height := genesis.first

namespace BlockChain

def Held (crypto : Crypto) (bc : BlockChain) (link : Link) : Prop :=
  ∃ block, bc.getBlock link.hash (UInt64.ofNat link.number) = some block ∧ block.link crypto = link

inductive OnPath (bc : BlockChain) : Block → Prop
  | head : OnPath bc bc.currentBlock
  | parent {block parent : Block} : OnPath bc block →
      bc.getBlock block.header.parentHash (block.numberU64 - 1) = some parent → OnPath bc parent

structure Grown (crypto : Crypto) (blocks : Set Block) (genesis : Genesis) (bc : BlockChain) :
    Prop where
  genesis_mem : genesis.block ∈ blocks
  stored : ∀ {hash number block}, bc.getBlock hash number = some block →
    block ∈ blocks ∧ block.hash crypto = hash ∧ block.numberU64 = number
  grown : ∀ {hash number block}, bc.getBlock hash number = some block →
    block.hash crypto = genesis.block.hash crypto ∨
      ∃ parent, bc.getBlock block.header.parentHash (block.numberU64 - 1) = some parent ∧
        block.header.number = parent.header.number + 1
  weighed : ∀ hash number,
    (bc.totalDifficulty hash number).isSome = (bc.getBlock hash number).isSome
  head_mem : bc.currentBlock ∈ blocks
  head_stored : (bc.getBlock (bc.currentBlock.hash crypto) bc.currentBlock.numberU64).isSome

structure SameStore (bc after : BlockChain) : Prop where
  headers : after.headers = bc.headers
  bodies : after.bodies = bc.bodies
  weights : after.totalDifficulty = bc.totalDifficulty

theorem SameStore.trans {a b c : BlockChain} (first : a.SameStore b) (second : b.SameStore c) :
    a.SameStore c :=
  ⟨second.headers.trans first.headers, second.bodies.trans first.bodies,
    second.weights.trans first.weights⟩

theorem SameStore.getBlock_eq {bc after : BlockChain} (same : bc.SameStore after) :
    after.getBlock = bc.getBlock := by
  funext hash number
  simp only [getBlock, same.headers, same.bodies]

end BlockChain

theorem ofNat_sub_one {a b : ℕ} (next : a = b + 1) : UInt64.ofNat a - 1 = UInt64.ofNat b := by
  apply UInt64.toNat_inj.mp
  rw [UInt64.toNat_sub, UInt64.toNat_ofNat', UInt64.toNat_ofNat', UInt64.toNat_one]
  omega

theorem eq_succ_of_ofNat {a b : ℕ} (a_low : a + 1 < 2 ^ 64) (b_low : b + 1 < 2 ^ 64)
    (next : UInt64.ofNat b = UInt64.ofNat a - 1) : a = b + 1 := by
  have same := congrArg UInt64.toNat next
  rw [UInt64.toNat_sub, UInt64.toNat_ofNat', UInt64.toNat_ofNat', UInt64.toNat_one] at same
  omega

section Tree
variable {crypto : Crypto} {blocks : Set Block} {genesis : Genesis} {bc : BlockChain}
  {block parent old new : Block} {hash : Hash} {number : UInt64} {p q : List Link}

section

variable (tree : BlockTree crypto blocks)
include tree

theorem BlockTree.mono {fewer : Set Block} (part : fewer ⊆ blocks) : BlockTree crypto fewer :=
  ⟨fun a a_mem b b_mem => tree.linked a (part a_mem) b (part b_mem),
    fun a a_mem => tree.below a (part a_mem)⟩

theorem BlockTree.toNat_number (known : block ∈ blocks) :
    block.numberU64.toNat = block.header.number := by
  have low := tree.below block known
  rw [Block.numberU64, UInt64.toNat_ofNat', Nat.mod_eq_of_lt (by omega)]

theorem BlockTree.number_succ (known : block ∈ blocks)
    (parent_known : parent ∈ blocks) (next : parent.numberU64 = block.numberU64 - 1) :
    block.header.number = parent.header.number + 1 :=
  eq_succ_of_ofNat (tree.below block known) (tree.below parent parent_known) next

end

namespace BlockChain.Grown

variable (grown : bc.Grown crypto blocks genesis)
include grown

theorem held_of_stored
    (found : bc.getBlock hash number = some block) : bc.Held crypto (block.link crypto) := by
  obtain ⟨-, rfl, rfl⟩ := grown.stored found
  exact ⟨block, found, rfl⟩

theorem parent_of_path {l : Link}
    (path : (genesis.forest crypto).Path (bc.Held crypto) (block.link crypto :: l :: p)) :
    ∃ parent ∈ blocks, bc.getBlock block.header.parentHash (block.numberU64 - 1) = some parent ∧
      parent.link crypto = l := by
  obtain ⟨to_parent, above, lower⟩ := path.parent_of
  obtain ⟨parent, found, rfl⟩ := lower.all_held l mem_cons_self
  have parent_known := (grown.stored found).1
  have parent_hash : block.header.parentHash = (parent.link crypto).hash := to_parent
  refine ⟨parent, parent_known, ?_, rfl⟩
  rw [show block.numberU64 - 1 = parent.numberU64 from ofNat_sub_one above, parent_hash]
  exact found

variable (tree : BlockTree crypto blocks)
include tree

theorem held_apart
    (a b : Link) (a_held : bc.Held crypto a) (b_held : bc.Held crypto b) (same : a.hash = b.hash) :
    a = b := by
  obtain ⟨x, x_found, rfl⟩ := a_held
  obtain ⟨y, y_found, rfl⟩ := b_held
  exact tree.linked x (grown.stored x_found).1 y (grown.stored y_found).1 same

theorem path_of_stored
    (found : bc.getBlock hash number = some block) :
    ∃ p, (genesis.forest crypto).Path (bc.Held crypto) (block.link crypto :: p) := by
  induction height : block.header.number generalizing block hash number with
  | zero =>
    rcases grown.grown found with root | ⟨parent, -, above⟩
    · have same := tree.linked block (grown.stored found).1 _ grown.genesis_mem root
      have held := grown.held_of_stored found
      rw [same] at held ⊢
      exact ⟨[], .root held⟩
    · omega
  | succ below ih =>
    rcases grown.grown found with root | ⟨parent, parent_found, above⟩
    · have same := tree.linked block (grown.stored found).1 _ grown.genesis_mem root
      have first := genesis.first
      have numbers : block.header.number = genesis.block.header.number := congrArg Link.number same
      omega
    · obtain ⟨p, path⟩ := ih parent_found (by omega)
      have to_parent : block.header.parentHash = (parent.link crypto).hash :=
        (grown.stored parent_found).2.1.symm
      exact ⟨parent.link crypto :: p, .child (grown.held_of_stored found) to_parent above path⟩

theorem path_of_mem
    (known : block ∈ blocks) (found : (bc.getBlock (block.hash crypto) block.numberU64).isSome) :
    ∃ p, (genesis.forest crypto).Path (bc.Held crypto) (block.link crypto :: p) := by
  obtain ⟨stored, found⟩ := Option.isSome_iff_exists.mp found
  have same := tree.linked stored (grown.stored found).1 block known (grown.stored found).2.1
  exact same ▸ grown.path_of_stored tree found

end BlockChain.Grown

theorem reduceTo_spec {target : UInt64} (tree : BlockTree crypto blocks)
    (grown : bc.Grown crypto blocks genesis) : ∀ {turns : ℕ} {block : Block} {p : List Link},
    block ∈ blocks → (genesis.forest crypto).Path (bc.Held crypto) (block.link crypto :: p) →
    target.toNat ≤ block.header.number → block.header.number ≤ target.toNat + turns →
    ∃ above reached low, reduceTo bc target turns block = some (above, reached) ∧
      (∀ b ∈ above, b ∈ blocks) ∧ reached ∈ blocks ∧ reached.header.number = target.toNat ∧
      block.link crypto :: p = above.map (Block.link crypto) ++ reached.link crypto :: low := by
  intro turns block p known path least enough
  induction turns generalizing block p with
  | zero =>
    have here : block.numberU64 = target := by
      apply UInt64.toNat_inj.mp
      rw [tree.toNat_number known]
      omega
    exact ⟨[], block, p, by simp [reduceTo, here], by simp, known, by omega, rfl⟩
  | succ turns ih =>
    by_cases here : block.numberU64 = target
    · refine ⟨[], block, p, by simp [reduceTo, here], by simp, known, ?_, rfl⟩
      rw [← here, tree.toNat_number known]
    · have apart : block.header.number ≠ target.toNat := by
        rw [← tree.toNat_number known]
        exact fun same => here (UInt64.toNat_inj.mp same)
      cases p with
      | nil =>
        have none_below : 0 = block.header.number := path.length_eq
        omega
      | cons l p =>
        obtain ⟨parent, parent_known, found, rfl⟩ := grown.parent_of_path path
        have above_parent : block.header.number = parent.header.number + 1 := path.parent_of.2.1
        obtain ⟨above, reached, low, reduced, all_known, reached_known, at_target, split⟩ :=
          ih parent_known path.parent_of.2.2 (by omega) (by omega)
        refine ⟨block :: above, reached, low, ?_, ?_, reached_known, at_target, ?_⟩
        · simp [reduceTo, here, found, reduced]
        · exact forall_mem_cons.mpr ⟨known, all_known⟩
        · rw [split, map_cons, cons_append]

theorem commonBlock_met {σ : Type} {env : ImportEnv σ} (turns : ℕ)
    (met : old.hash env.crypto = new.hash env.crypto) :
    commonBlock env bc turns old new = .ok ([], []) := by
  cases turns with
  | zero => exact if_pos met
  | succ turns => exact if_pos met

theorem commonBlock_apart {σ : Type} {env : ImportEnv σ} {turns : ℕ} {olds news : List Block}
    {oldParent newParent : Block} (apart : old.hash env.crypto ≠ new.hash env.crypto)
    (old_found : bc.getBlock old.header.parentHash (old.numberU64 - 1) = some oldParent)
    (new_found : bc.getBlock new.header.parentHash (new.numberU64 - 1) = some newParent)
    (walked : commonBlock env bc turns oldParent newParent = .ok (olds, news)) :
    commonBlock env bc (turns + 1) old new = .ok (old :: olds, new :: news) := by
  refine (if_neg apart).trans ?_
  simp only [old_found, new_found, orReject, bind, Except.bind]
  rw [walked]
  rfl

theorem commonBlock_spec {σ : Type} {env : ImportEnv σ} (tree : BlockTree env.crypto blocks)
    (grown : bc.Grown env.crypto blocks genesis) : ∀ {turns : ℕ} {old new : Block} {p q : List Link},
    old ∈ blocks → new ∈ blocks → old.header.number = new.header.number → old.header.number < turns →
    (genesis.forest env.crypto).Path (bc.Held env.crypto) (old.link env.crypto :: p) →
    (genesis.forest env.crypto).Path (bc.Held env.crypto) (new.link env.crypto :: q) →
    ∃ olds news shared low, commonBlock env bc turns old new = .ok (olds, news) ∧
      (∀ b ∈ olds, b ∈ blocks) ∧ (∀ b ∈ news, b ∈ blocks) ∧
      old.link env.crypto :: p = olds.map (Block.link env.crypto) ++ shared :: low ∧
      new.link env.crypto :: q = news.map (Block.link env.crypto) ++ shared :: low := by
  intro turns old new p q old_known new_known level enough old_path new_path
  induction turns generalizing old new p q with
  | zero => omega
  | succ turns ih =>
    by_cases met : old.hash env.crypto = new.hash env.crypto
    · have same := tree.linked old old_known new new_known met
      rw [← same] at new_path ⊢
      have paths := old_path.unique (grown.held_apart tree) new_path
      subst paths
      exact ⟨[], [], old.link env.crypto, p, commonBlock_met _ met, by simp, by simp, rfl, rfl⟩
    · cases p with
      | nil =>
        cases q with
        | nil =>
          -- both are the first block
          exact absurd (congrArg Link.hash (old_path.eq_root.trans new_path.eq_root.symm)) met
        | cons m q =>
          have old_low : 0 = old.header.number := old_path.length_eq
          have new_high : q.length + 1 = new.header.number := new_path.length_eq
          omega
      | cons l p =>
        cases q with
        | nil =>
          have old_high : p.length + 1 = old.header.number := old_path.length_eq
          have new_low : 0 = new.header.number := new_path.length_eq
          omega
        | cons m q =>
          obtain ⟨oldParent, oldParent_known, old_found, rfl⟩ :=
            grown.parent_of_path old_path
          obtain ⟨newParent, newParent_known, new_found, rfl⟩ :=
            grown.parent_of_path new_path
          have old_above : old.header.number = oldParent.header.number + 1 :=
            old_path.parent_of.2.1
          have new_above : new.header.number = newParent.header.number + 1 :=
            new_path.parent_of.2.1
          obtain ⟨olds, news, shared, low, walked, olds_known, news_known, old_split,
            new_split⟩ := ih oldParent_known newParent_known (by omega) (by omega)
              old_path.parent_of.2.2 new_path.parent_of.2.2
          refine ⟨old :: olds, new :: news, shared, low,
            commonBlock_apart met old_found new_found walked,
            forall_mem_cons.mpr ⟨old_known, olds_known⟩,
            forall_mem_cons.mpr ⟨new_known, news_known⟩, ?_, ?_⟩
          · rw [old_split, map_cons, cons_append]
          · rw [new_split, map_cons, cons_append]

theorem reorgChains_spec {σ : Type} {env : ImportEnv σ} (tree : BlockTree env.crypto blocks)
    (grown : bc.Grown env.crypto blocks genesis) (old_known : old ∈ blocks) (new_known : new ∈ blocks)
    (old_path : (genesis.forest env.crypto).Path (bc.Held env.crypto) (old.link env.crypto :: p))
    (new_path : (genesis.forest env.crypto).Path (bc.Held env.crypto) (new.link env.crypto :: q)) :
    ∃ olds news shared low, reorgChains env bc old new = .ok (olds, news) ∧
      (∀ b ∈ olds, b ∈ blocks) ∧ (∀ b ∈ news, b ∈ blocks) ∧
      old.link env.crypto :: p = olds.map (Block.link env.crypto) ++ shared :: low ∧
      new.link env.crypto :: q = news.map (Block.link env.crypto) ++ shared :: low := by
  have old_number := tree.toNat_number old_known
  have new_number := tree.toNat_number new_known
  by_cases higher : new.numberU64 < old.numberU64
  · have higher_nat := UInt64.lt_iff_toNat_lt.mp higher
    obtain ⟨above, reached, low, reduced, above_known, reached_known, level, split⟩ :=
      reduceTo_spec tree grown old_known old_path (by omega : new.numberU64.toNat ≤ _)
        (by omega : _ ≤ new.numberU64.toNat + old.numberU64.toNat)
    have reached_path := (split ▸ old_path).lower
    have reached_number := tree.toNat_number reached_known
    obtain ⟨olds, news, shared, rest, walked, olds_known, news_known, old_split, new_split⟩ :=
      commonBlock_spec tree grown reached_known new_known (by omega)
        (by omega : _ < reached.numberU64.toNat + 1) reached_path new_path
    refine ⟨above ++ olds, news, shared, rest, ?_, ?_, news_known, ?_, new_split⟩
    · simp only [reorgChains, if_pos higher, reduced, orReject, bind, Except.bind, walked]
      rfl
    · exact forall_mem_append.mpr ⟨above_known, olds_known⟩
    · rw [split, old_split, map_append, append_assoc]
  · have not_higher : ¬new.numberU64.toNat < old.numberU64.toNat :=
      fun lower => higher (UInt64.lt_iff_toNat_lt.mpr lower)
    obtain ⟨above, reached, low, reduced, above_known, reached_known, level, split⟩ :=
      reduceTo_spec tree grown new_known new_path (by omega : old.numberU64.toNat ≤ _)
        (by omega : _ ≤ old.numberU64.toNat + new.numberU64.toNat)
    have reached_path := (split ▸ new_path).lower
    obtain ⟨olds, news, shared, rest, walked, olds_known, news_known, old_split, new_split⟩ :=
      commonBlock_spec tree grown old_known reached_known (by omega)
        (by omega : _ < old.numberU64.toNat + 1) old_path reached_path
    refine ⟨olds, above ++ news, shared, rest, ?_, olds_known, ?_, old_split, ?_⟩
    · simp only [reorgChains, if_neg higher, reduced, orReject, bind, Except.bind, walked]
      rfl
    · exact forall_mem_append.mpr ⟨above_known, news_known⟩
    · rw [split, new_split, map_append, append_assoc]

end Tree

/-! What the writes of a call leave in the chain. -/
section Effects
variable {σ : Type} (env : ImportEnv σ)

theorem writeAll_chain (ws : List Write) (n : Node σ) :
    (n.writeAll ws).chain = ws.foldl BlockChain.apply n.chain := by
  induction ws generalizing n with
  | nil => rfl
  | cons w ws ih => exact ih (n.write w)

variable (n : Node σ) (block : Block) (receipts : List Receipt) (news : List Block)

theorem insert_chain :
    ∃ header fast, (n.insert env block).chain = { n.chain with
      canonical := fun k =>
        if k = block.numberU64 then some (block.hash env.crypto) else n.chain.canonical k
      currentBlock := block
      currentHeader := header
      currentFastBlock := fast } := by
  by_cases unlisted : n.chain.canonical block.numberU64 ≠ some (block.hash env.crypto)
  · simp only [Node.insert, if_pos unlisted]
    exact ⟨block.header, block, rfl⟩
  · simp only [Node.insert, if_neg unlisted]
    exact ⟨n.chain.currentHeader, n.chain.currentFastBlock, rfl⟩

def entryIn (hash : Hash) (number : UInt64) (txs : List Hash) (tx : Hash) :
    Option (Hash × UInt64 × ℕ) :=
  (txs.idxOf? tx).map fun i => (hash, number, i)

def Block.txHashes (crypto : Crypto) (block : Block) : List Hash :=
  block.transactions.map (Transaction.hash crypto)

theorem foldl_txLookup (hash : Hash) (number : UInt64) (txs : List Hash) (distinct : txs.Nodup)
    (start : ℕ) (bc : BlockChain) :
    ((txs.zipIdx start).map fun (tx, i) => Write.txLookup tx (hash, number, i)).foldl
        BlockChain.apply bc =
      { bc with lookups := fun tx =>
          ((txs.idxOf? tx).map fun i => (hash, number, start + i)).or (bc.lookups tx) } := by
  induction txs generalizing start bc with
  | nil => rfl
  | cons first txs ih =>
    obtain ⟨fresh, distinct⟩ := nodup_cons.mp distinct
    rw [zipIdx_cons, map_cons, foldl_cons, ih distinct]
    simp only [BlockChain.apply]
    congr 1
    funext tx
    by_cases same : tx = first
    · subst same
      have later : txs.idxOf? tx = none := idxOf?_eq_none_iff.mpr fresh
      simp [later, idxOf?_cons]
    · have other : (first == tx) = false := beq_false_of_ne (Ne.symm same)
      simp only [same, if_false, idxOf?_cons, other, Bool.false_eq_true, Option.map_map]
      congr 2
      funext i
      simp only [Function.comp_apply, Prod.mk.injEq, true_and]
      omega

theorem writeTxLookups_chain
    (distinct : (block.txHashes env.crypto).Nodup) :
    (n.writeTxLookups env block).chain =
      { n.chain with
        lookups := fun tx =>
          (entryIn (block.hash env.crypto) block.numberU64 (block.txHashes env.crypto) tx).or
            (n.chain.lookups tx) } := by
  have entries : block.transactions.mapIdx (fun i tx => Write.txLookup (tx.hash env.crypto)
        (block.hash env.crypto, block.numberU64, i)) =
      ((block.txHashes env.crypto).zipIdx 0).map fun (tx, i) =>
        Write.txLookup tx (block.hash env.crypto, block.numberU64, i) := by
    rw [mapIdx_eq_zipIdx_map, Block.txHashes, zipIdx_map, map_map]
    rfl
  rw [Node.writeTxLookups, entries, writeAll_chain, foldl_txLookup _ _ _ distinct]
  simp only [entryIn, Nat.zero_add]

theorem writeTxLookups_only :
    ∃ lookups, (n.writeTxLookups env block).chain = { n.chain with lookups } := by
  rw [Node.writeTxLookups, writeAll_chain, mapIdx_eq_zipIdx_map]
  generalize block.transactions.zipIdx = entries
  induction entries generalizing n with
  | nil => exact ⟨n.chain.lookups, rfl⟩
  | cons entry entries ih =>
    exact ih (n.write (.txLookup (entry.1.hash env.crypto)
      (block.hash env.crypto, block.numberU64, entry.2)))

theorem foldl_deleteTxLookup (txs : List Hash) (bc : BlockChain) :
    (txs.map Write.deleteTxLookup).foldl BlockChain.apply bc =
      { bc with lookups := fun tx => if tx ∈ txs then none else bc.lookups tx } := by
  induction txs generalizing bc with
  | nil => simp
  | cons first txs ih =>
    rw [map_cons, foldl_cons, ih]
    simp only [BlockChain.apply]
    congr 1
    funext tx
    by_cases later : tx ∈ txs
    · simp [later]
    · simp [later]

theorem foldl_dropState (roots : List Hash) (bc : BlockChain) :
    ∃ states, (roots.map Write.dropState).foldl BlockChain.apply bc = { bc with states } := by
  induction roots generalizing bc with
  | nil => exact ⟨bc.states, rfl⟩
  | cons root roots ih => exact ih (bc.apply (.dropState root))

def Node.enter (n : Node σ) (news : List Block) : Node σ :=
  news.reverse.foldl (fun n block => (n.insert env block).writeTxLookups env block) n

theorem enter_cons :
    n.enter env (block :: news) =
      ((n.enter env news).insert env block).writeTxLookups env block := by
  simp only [Node.enter, reverse_cons, foldl_append, foldl_cons, foldl_nil]

theorem enter_store : n.chain.SameStore (n.enter env news).chain := by
  induction news with
  | nil => exact ⟨rfl, rfl, rfl⟩
  | cons block news ih =>
    obtain ⟨header, fast, inserted⟩ := insert_chain env (n.enter env news) block
    obtain ⟨lookups, written⟩ := writeTxLookups_only env ((n.enter env news).insert env block) block
    rw [enter_cons, written, inserted]
    exact ih.trans ⟨rfl, rfl, rfl⟩

theorem enter_canonical (k : UInt64) :
    (n.enter env news).chain.canonical k =
      ((news.find? fun b => b.numberU64 = k).map (Block.hash env.crypto)).or
        (n.chain.canonical k) := by
  induction news with
  | nil => rfl
  | cons block news ih =>
    obtain ⟨header, fast, inserted⟩ := insert_chain env (n.enter env news) block
    obtain ⟨lookups, written⟩ := writeTxLookups_only env ((n.enter env news).insert env block) block
    rw [enter_cons, written, inserted]
    by_cases here : block.numberU64 = k
    · simp [here]
    · simp only [Ne.symm here, if_false, find?_cons, here, decide_false]
      exact ih

theorem enter_lookups {news : List Block} (tx : Hash)
    (distinct : ∀ b ∈ news, (b.txHashes env.crypto).Nodup) :
    (n.enter env news).chain.lookups tx =
      (news.findSome? fun b => entryIn (b.hash env.crypto) b.numberU64 (b.txHashes env.crypto) tx).or
        (n.chain.lookups tx) := by
  induction news with
  | nil => rfl
  | cons block news ih =>
    obtain ⟨here, later⟩ := forall_mem_cons.mp distinct
    obtain ⟨header, fast, inserted⟩ := insert_chain env (n.enter env news) block
    rw [enter_cons, writeTxLookups_chain env _ _ here, inserted, findSome?_cons]
    simp only [ih later]
    cases entryIn (block.hash env.crypto) block.numberU64 (block.txHashes env.crypto) tx with
    | none => rfl
    | some entry => rfl

theorem mem_txDifference {a b : List Transaction} {tx : Hash} :
    tx ∈ (txDifference env a b).map (Transaction.hash env.crypto) ↔
      tx ∈ a.map (Transaction.hash env.crypto) ∧ tx ∉ b.map (Transaction.hash env.crypto) := by
  simp only [txDifference, mem_map, mem_filter, all_eq_true, decide_eq_true_eq]
  constructor
  · rintro ⟨t, ⟨listed, absent⟩, rfl⟩
    exact ⟨⟨t, listed, rfl⟩, fun ⟨u, in_b, same⟩ => absent _ ⟨u, in_b, rfl⟩ same⟩
  · rintro ⟨⟨t, listed, rfl⟩, absent⟩
    refine ⟨t, ⟨listed, ?_⟩, rfl⟩
    rintro _ ⟨u, in_b, rfl⟩ same
    exact absent ⟨u, in_b, same⟩

/-- The head of `bc` was changed to `block`, with the blocks of `olds` taken off the canonical
chain and those of `news` put there. -/
structure BlockChain.Switched (bc after : BlockChain) (block : Block) (olds news : List Block) :
    Prop where
  store : bc.SameStore after
  head : after.currentBlock = block
  canonical : ∀ k, after.canonical k =
    if k = block.numberU64 then some (block.hash env.crypto)
    else ((news.find? fun b => b.numberU64 = k).map (Block.hash env.crypto)).or (bc.canonical k)
  lookups : (∀ b ∈ news, (b.txHashes env.crypto).Nodup) → ∀ tx, after.lookups tx =
    if tx ∈ olds.flatMap (Block.txHashes env.crypto) ∧ tx ∉ news.flatMap (Block.txHashes env.crypto)
    then none
    else (news.findSome? fun b => entryIn (b.hash env.crypto) b.numberU64 (b.txHashes env.crypto)
      tx).or (bc.lookups tx)

def Node.withdraw (n : Node σ) (olds news : List Block) : Node σ :=
  n.writeAll ((txDifference env (olds.flatMap Block.transactions)
    (news.flatMap Block.transactions)).map fun tx => .deleteTxLookup (tx.hash env.crypto))

theorem withdraw_chain (olds news : List Block) :
    (n.withdraw env olds news).chain =
      { n.chain with
        lookups := fun tx =>
          if tx ∈ olds.flatMap (Block.txHashes env.crypto) ∧
              tx ∉ news.flatMap (Block.txHashes env.crypto) then none
          else n.chain.lookups tx } := by
  have deletes (txs : List Transaction) :
      txs.map (fun tx => Write.deleteTxLookup (tx.hash env.crypto)) =
        (txs.map (Transaction.hash env.crypto)).map Write.deleteTxLookup := by
    rw [map_map]
    rfl
  have hashes (chain : List Block) :
      (chain.flatMap Block.transactions).map (Transaction.hash env.crypto) =
        chain.flatMap (Block.txHashes env.crypto) := map_flatMap
  rw [Node.withdraw, deletes, writeAll_chain, foldl_deleteTxLookup]
  simp only [mem_txDifference, hashes]

theorem reorg_of_chains {n : Node σ} {old new : Block} {olds news : List Block}
    (chains : reorgChains env n.chain old new = .ok (olds, news)) :
    reorg env n old new = .ok ((n.enter env news).withdraw env olds news) := by
  rw [reorg, chains]
  rfl

theorem finish_chain :
    ∃ header fast kept queue,
      (((n.write (.receipts (block.hash env.crypto) block.numberU64 receipts)).insert env
        block).unqueue env block).chain =
      { n.chain with
        canonical := fun k =>
          if k = block.numberU64 then some (block.hash env.crypto) else n.chain.canonical k
        currentBlock := block
        currentHeader := header
        currentFastBlock := fast
        receipts := kept
        futureBlocks := queue } := by
  obtain ⟨header, fast, inserted⟩ := insert_chain env
    (n.write (.receipts (block.hash env.crypto) block.numberU64 receipts)) block
  simp only [Node.unqueue, inserted]
  exact ⟨header, fast, _, _, rfl⟩

theorem reorg_switches (olds news : List Block)
    (receipts : List Receipt) :
    n.chain.Switched env
      (((((n.enter env news).withdraw env olds news).write
        (.receipts (block.hash env.crypto) block.numberU64 receipts)).insert env block).unqueue env
          block).chain block olds news := by
  obtain ⟨header, fast, kept, queue, finished⟩ :=
    finish_chain env ((n.enter env news).withdraw env olds news) block receipts
  rw [finished, withdraw_chain]
  refine ⟨(enter_store env n news).trans ⟨rfl, rfl, rfl⟩, rfl, ?_, ?_⟩
  · intro k
    simp only [enter_canonical]
  · intro distinct tx
    simp only [enter_lookups env n tx distinct]

theorem extend_switches :
    n.chain.Switched env
      (((((n.write (.receipts (block.hash env.crypto) block.numberU64 receipts)).writeTxLookups env
        block).insert env block)).unqueue env block).chain block [] [block] := by
  obtain ⟨header, fast, inserted⟩ := insert_chain env
    ((n.write (.receipts (block.hash env.crypto) block.numberU64 receipts)).writeTxLookups env block)
    block
  obtain ⟨lookups, written⟩ := writeTxLookups_only env
    (n.write (.receipts (block.hash env.crypto) block.numberU64 receipts)) block
  simp only [Node.unqueue, inserted]
  constructor
  case store =>
    rw [written]
    exact ⟨rfl, rfl, rfl⟩
  case head => rfl
  case canonical =>
    intro k
    rw [written]
    by_cases here : k = block.numberU64
    · simp [here]
    · simp only [here, if_false, find?_cons, Ne.symm here, decide_false, find?_nil]
      rfl
  case lookups =>
    intro distinct tx
    rw [writeTxLookups_chain env _ _ (distinct block mem_cons_self)]
    simp only [flatMap_nil, not_mem_nil, false_and, if_false, findSome?_cons, findSome?_nil]
    cases entryIn (block.hash env.crypto) block.numberU64 (block.txHashes env.crypto) tx with
    | none => rfl
    | some entry => rfl

def Node.adopts (n : Node σ) (block : Block) : Bool :=
  match n.chain.totalDifficulty block.header.parentHash (block.numberU64 - 1),
      n.chain.totalDifficulty (n.chain.currentBlock.hash env.crypto)
        n.chain.currentBlock.numberU64 with
  | some ptd, some localTd =>
    prefers env block n.chain.currentBlock (block.header.difficulty + ptd) localTd
  | _, _ => false

structure BlockChain.Stores (bc after : BlockChain) (block : Block) : Prop where
  blocks : ∀ hash number, after.getBlock hash number =
    if hash = block.hash env.crypto ∧ number = block.numberU64 then some block
    else bc.getBlock hash number
  weights : ∀ hash number, (after.totalDifficulty hash number).isSome =
    if hash = block.hash env.crypto ∧ number = block.numberU64 then true
    else (bc.totalDifficulty hash number).isSome
  canonical : after.canonical = bc.canonical
  lookups : after.lookups = bc.lookups
  head : after.currentBlock = bc.currentBlock

theorem storeBlock_chain (td : ℕ) (state : StateDB) :
    ∃ states, (n.storeBlock env block td state).chain =
      { (n.writeAll [.td (block.hash env.crypto) block.numberU64 td,
          .block (block.hash env.crypto) block, .state (env.stateRoot state) state]).chain with
        states } := by
  obtain ⟨states, dropped⟩ := foldl_dropState (env.collected _ block) (n.writeAll _).chain
  rw [Node.storeBlock, writeAll_chain]
  exact ⟨states, dropped⟩

theorem storeBlock_stores (td : ℕ) (state : StateDB) :
    n.chain.Stores env (n.storeBlock env block td state).chain block := by
  obtain ⟨states, stored⟩ := storeBlock_chain env n block td state
  rw [stored]
  constructor
  case blocks =>
    intro hash number
    by_cases here : hash = block.hash env.crypto ∧ number = block.numberU64
    · simp [BlockChain.getBlock, Node.writeAll, Node.write, BlockChain.apply, here, Block.withBody,
        Block.body]
    · simp [BlockChain.getBlock, Node.writeAll, Node.write, BlockChain.apply, here]
  case weights =>
    intro hash number
    by_cases here : hash = block.hash env.crypto ∧ number = block.numberU64
    · simp [Node.writeAll, Node.write, BlockChain.apply, here]
    · simp [Node.writeAll, Node.write, BlockChain.apply, here]
  case canonical => rfl
  case lookups => rfl
  case head => rfl

/-- What a call can leave behind: nothing; the block on the side; or the block as the head, on the
old head or on another branch. -/
inductive WriteResult (n after : Node σ) (block : Block) : Prop
  | unknown (orphan : n.chain.totalDifficulty block.header.parentHash (block.numberU64 - 1) = none)
      (same : after = n)
  | side {stored : BlockChain}
      (weighed : (n.chain.totalDifficulty block.header.parentHash (block.numberU64 - 1)).isSome)
      (stores : n.chain.Stores env stored block)
      (refused : n.adopts env block = false) (store : stored.SameStore after.chain)
      (canonical : after.chain.canonical = stored.canonical)
      (lookups : after.chain.lookups = stored.lookups)
      (head : after.chain.currentBlock = stored.currentBlock)
  | extended {stored : BlockChain}
      (weighed : (n.chain.totalDifficulty block.header.parentHash (block.numberU64 - 1)).isSome)
      (stores : n.chain.Stores env stored block) (adopted : n.adopts env block = true)
      (on_head : block.header.parentHash = n.chain.currentBlock.hash env.crypto)
      (switched : stored.Switched env after.chain block [] [block])
  | reorganised {stored : BlockChain}
      (weighed : (n.chain.totalDifficulty block.header.parentHash (block.numberU64 - 1)).isSome)
      (stores : n.chain.Stores env stored block) (adopted : n.adopts env block = true)
      (switched : ∀ olds news, reorgChains env stored n.chain.currentBlock block = .ok (olds, news) →
        stored.Switched env after.chain block olds news)

theorem write_result (state : StateDB) :
    WriteResult env n (writeBlockWithState env n block receipts state).1 block := by
  unfold writeBlockWithState
  cases weight : n.chain.totalDifficulty block.header.parentHash (block.numberU64 - 1) with
  | none => exact .unknown weight rfl
  | some ptd =>
    have weighed := Option.isSome_of_mem weight
    have stores := storeBlock_stores env n block (block.header.difficulty + ptd) state
    cases headTd : n.chain.totalDifficulty (n.chain.currentBlock.hash env.crypto)
        n.chain.currentBlock.numberU64 with
    | none =>
      simp only [headTd]
      exact .side weighed stores (by simp [Node.adopts, weight, headTd]) ⟨rfl, rfl, rfl⟩ rfl rfl rfl
    | some localTd =>
      have choice : n.adopts env block = prefers env block n.chain.currentBlock
          (block.header.difficulty + ptd) localTd := by
        simp only [Node.adopts, weight, headTd]
      simp only [headTd]
      rw [← choice]
      cases adopted : n.adopts env block with
      | false => exact .side weighed stores adopted ⟨rfl, rfl, rfl⟩ rfl rfl rfl
      | true =>
        by_cases on_head : block.header.parentHash = n.chain.currentBlock.hash env.crypto
        · simp only [if_true, on_head, ne_eq, not_true_eq_false, if_false]
          exact .extended weighed stores adopted on_head (extend_switches env _ block receipts)
        · simp only [if_true, ne_eq, on_head, not_false_eq_true]
          refine .reorganised weighed stores adopted ?_
          intro olds news chains
          rw [reorg_of_chains env chains]
          exact reorg_switches env _ block olds news receipts

end Effects

end Anduschain
