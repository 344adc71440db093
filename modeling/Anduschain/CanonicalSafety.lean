import Anduschain.CanonicalChain
import Anduschain.FiniteRun

/-! Runs of `WriteBlockWithState` calls from a first block, over any tree of blocks: when the
canonical index names the ancestors of the head and nothing else, and that the transaction
lookups always name the transactions of those ancestors. The store keeps every branch. -/
namespace Anduschain
open ByteOrder FiniteRun List

structure WriteCall where
  block : Block
  receipts : List Receipt
  state : StateDB
  coin : Bool
  collected : List Hash

section Runs
variable {σ : Type} (env : ImportEnv σ)

def ImportEnv.during (call : WriteCall) : ImportEnv σ :=
  { env with coin := fun _ => call.coin, collected := fun _ _ => call.collected }

def writeStep (n : Node σ) (call : WriteCall) : Option (Node σ) :=
  some (writeBlockWithState (env.during call) n call.block call.receipts call.state).1

theorem writeRun_total (n : Node σ) (calls : List WriteCall) :
    ∃ after, run (writeStep env) n calls = some after := by
  induction calls generalizing n with
  | nil => exact ⟨n, rfl⟩
  | cons call calls ih => exact ih _

end Runs

def blocksOf (genesis : Genesis) (calls : List WriteCall) : Set Block :=
  {block | block = genesis.block ∨ ∃ call ∈ calls, call.block = block}

namespace BlockChain

structure StartsAt (crypto : Crypto) (genesis : Genesis) (bc : BlockChain) : Prop where
  blocks : ∀ hash number, bc.getBlock hash number =
    if hash = genesis.block.hash crypto ∧ number = 0 then some genesis.block else none
  weights : ∀ hash number,
    (bc.totalDifficulty hash number).isSome = (bc.getBlock hash number).isSome
  canonical : ∀ number, bc.canonical number =
    if number = 0 then some (genesis.block.hash crypto) else none
  head : bc.currentBlock = genesis.block

/-- There is a canonical hash for the numbers up to the head's, and it is that of the head's
ancestor of that number. -/
def IndexFollows (crypto : Crypto) (bc : BlockChain) : Prop :=
  ∀ number : UInt64, ((bc.canonical number).isSome ↔ number ≤ bc.currentBlock.numberU64) ∧
    ∀ hash, bc.canonical number = some hash →
      ∃ block, bc.OnPath block ∧ block.numberU64 = number ∧ block.hash crypto = hash

end BlockChain

section Growth
variable {σ : Type} {env : ImportEnv σ} {crypto : Crypto} {blocks : Set Block} {genesis : Genesis}
  {bc after : BlockChain} {block : Block} {p : List Link}

namespace BlockChain

theorem StartsAt.grown (starts : bc.StartsAt crypto genesis) (mem : genesis.block ∈ blocks) :
    bc.Grown crypto blocks genesis := by
  have zero : genesis.block.numberU64 = 0 := by rw [Block.numberU64, genesis.first]; rfl
  have only {hash number block} (found : bc.getBlock hash number = some block) :
      hash = genesis.block.hash crypto ∧ number = 0 ∧ block = genesis.block := by
    rw [starts.blocks, Option.ite_none_right_eq_some] at found
    obtain ⟨⟨hashed, first⟩, same⟩ := found
    exact ⟨hashed, first, (Option.some.inj same).symm⟩
  constructor
  case genesis_mem => exact mem
  case stored =>
    intro hash number block found
    obtain ⟨rfl, rfl, rfl⟩ := only found
    exact ⟨mem, rfl, zero⟩
  case grown =>
    intro hash number block found
    obtain ⟨-, -, rfl⟩ := only found
    exact .inl rfl
  case weighed => exact starts.weights
  case head_mem => exact starts.head ▸ mem
  case head_stored =>
    rw [starts.blocks, starts.head, zero]
    simp

theorem Stores.kept (tree : BlockTree env.crypto blocks) (grown : bc.Grown env.crypto blocks genesis)
    (known : block ∈ blocks) (stores : bc.Stores env after block) {hash : Hash} {number : UInt64}
    {b : Block} (found : bc.getBlock hash number = some b) :
    ∃ b', after.getBlock hash number = some b' ∧ b'.link env.crypto = b.link env.crypto := by
  rw [stores.blocks]
  by_cases here : hash = block.hash env.crypto ∧ number = block.numberU64
  · obtain ⟨b_known, b_hash, -⟩ := grown.stored found
    exact ⟨block, if_pos here, tree.linked block known b b_known (here.1.symm.trans b_hash.symm)⟩
  · exact ⟨b, (if_neg here).trans found, rfl⟩

theorem Stores.grown (tree : BlockTree env.crypto blocks)
    (grown : bc.Grown env.crypto blocks genesis) (known : block ∈ blocks)
    (weight : (bc.totalDifficulty block.header.parentHash (block.numberU64 - 1)).isSome)
    (stores : bc.Stores env after block) : after.Grown env.crypto blocks genesis := by
  constructor
  case genesis_mem => exact grown.genesis_mem
  case stored =>
    intro hash number b found
    rw [stores.blocks, ite_eq_iff] at found
    rcases found with ⟨here, same⟩ | ⟨-, found⟩
    · cases same
      exact ⟨known, here.1.symm, here.2.symm⟩
    · exact grown.stored found
  case grown =>
    intro hash number b found
    rw [stores.blocks, ite_eq_iff] at found
    rcases found with ⟨-, same⟩ | ⟨-, found⟩
    · cases same
      rw [grown.weighed, Option.isSome_iff_exists] at weight
      obtain ⟨parent, parent_found⟩ := weight
      obtain ⟨parent_known, -, parent_number⟩ := grown.stored parent_found
      obtain ⟨parent', found', same⟩ := stores.kept tree grown known parent_found
      refine .inr ⟨parent', found', ?_⟩
      rw [tree.number_succ known parent_known parent_number]
      exact congrArg (·.number + 1) same.symm
    · rcases grown.grown found with root | ⟨parent, parent_found, above⟩
      · exact .inl root
      · obtain ⟨parent', found', same⟩ := stores.kept tree grown known parent_found
        exact .inr ⟨parent', found', above.trans (congrArg (·.number + 1) same.symm)⟩
  case weighed =>
    intro hash number
    rw [stores.weights, stores.blocks]
    by_cases here : hash = block.hash env.crypto ∧ number = block.numberU64
    · rw [if_pos here, if_pos here]
      rfl
    · rw [if_neg here, if_neg here, grown.weighed]
  case head_mem => exact stores.head ▸ grown.head_mem
  case head_stored =>
    obtain ⟨b, found⟩ := Option.isSome_iff_exists.mp grown.head_stored
    obtain ⟨b', found', -⟩ := stores.kept tree grown known found
    rw [stores.head, found']
    rfl

theorem SameStore.grown (same : bc.SameStore after) (grown : bc.Grown crypto blocks genesis)
    (head_mem : after.currentBlock ∈ blocks)
    (head_stored : (bc.getBlock (after.currentBlock.hash crypto)
      after.currentBlock.numberU64).isSome) : after.Grown crypto blocks genesis where
  genesis_mem := grown.genesis_mem
  stored := by
    rw [same.getBlock_eq]
    exact grown.stored
  grown := by
    rw [same.getBlock_eq]
    exact grown.grown
  weighed := by
    rw [same.getBlock_eq, same.weights]
    exact grown.weighed
  head_mem := head_mem
  head_stored := by
    rw [same.getBlock_eq]
    exact head_stored

theorem SameStore.held (same : bc.SameStore after) : after.Held crypto = bc.Held crypto := by
  funext link
  rw [Held, Held, same.getBlock_eq]

theorem Stores.held (tree : BlockTree env.crypto blocks) (grown : bc.Grown env.crypto blocks genesis)
    (known : block ∈ blocks) (stores : bc.Stores env after block) (link : Link)
    (held : bc.Held env.crypto link) : after.Held env.crypto link := by
  obtain ⟨b, found, rfl⟩ := held
  exact stores.kept tree grown known found

theorem OnPath.mem (tree : BlockTree crypto blocks) (grown : bc.Grown crypto blocks genesis)
    (path : (genesis.forest crypto).Path (bc.Held crypto) (bc.currentBlock.link crypto :: p))
    (on_path : bc.OnPath block) :
    block ∈ blocks ∧ block.link crypto ∈ bc.currentBlock.link crypto :: p := by
  induction on_path with
  | head => exact ⟨grown.head_mem, mem_cons_self⟩
  | @parent block parent _ found ih =>
    obtain ⟨known, member⟩ := ih
    obtain ⟨parent_known, parent_hash, parent_number⟩ := grown.stored found
    refine ⟨parent_known, ?_⟩
    obtain ⟨above, low, split⟩ := append_of_mem member
    rw [split] at path ⊢
    have lower := path.lower
    cases low with
    | nil =>
      have ends : 0 = block.header.number := lower.length_eq
      have next := tree.number_succ known parent_known parent_number
      omega
    | cons l low =>
      have to_l : block.header.parentHash = l.hash := lower.parent_of.1
      have same : parent.link crypto = l := grown.held_apart tree _ _
        (grown.held_of_stored found) (lower.all_held l (by simp)) (parent_hash.trans to_l)
      rw [same]
      simp

theorem OnPath.of_mem (grown : bc.Grown crypto blocks genesis) :
    ∀ {p : List Link} {block : Block}, block ∈ blocks → bc.OnPath block →
      (genesis.forest crypto).Path (bc.Held crypto) (block.link crypto :: p) →
      ∀ l ∈ block.link crypto :: p, ∃ b ∈ blocks, bc.OnPath b ∧ b.link crypto = l := by
  intro p block known on_path path l member
  induction p generalizing block with
  | nil =>
    cases mem_singleton.mp member
    exact ⟨block, known, on_path, rfl⟩
  | cons m p ih =>
    rcases mem_cons.mp member with rfl | lower
    · exact ⟨block, known, on_path, rfl⟩
    · obtain ⟨parent, parent_known, found, rfl⟩ := grown.parent_of_path path
      exact ih parent_known (.parent on_path found) path.parent_of.2.2 lower

theorem indexFollows_iff (tree : BlockTree crypto blocks) (grown : bc.Grown crypto blocks genesis)
    (path : (genesis.forest crypto).Path (bc.Held crypto) (bc.currentBlock.link crypto :: p)) :
    bc.IndexFollows crypto ↔ ∀ number : UInt64, bc.canonical number =
      (genesis.forest crypto).keyAt (bc.currentBlock.link crypto :: p) number.toNat := by
  have head_number := tree.toNat_number grown.head_mem
  have present (number : UInt64) :
      ((genesis.forest crypto).keyAt (bc.currentBlock.link crypto :: p) number.toNat).isSome ↔
        number ≤ bc.currentBlock.numberU64 := by
    rw [path.isSome_iff, UInt64.le_iff_toNat_le, head_number]
    rfl
  constructor
  · intro follows number
    cases listed : bc.canonical number with
    | none =>
      have high := (follows number).1
      rw [listed, ← present] at high
      exact (Option.not_isSome_iff_eq_none.mp fun found => absurd (high.mpr found) (by simp)).symm
    | some hash =>
      obtain ⟨block, on_path, rfl, rfl⟩ := (follows number).2 hash listed
      obtain ⟨known, member⟩ := on_path.mem tree grown path
      rw [tree.toNat_number known]
      exact (path.keyAt_mem _ member).symm
  · intro indexed number
    rw [indexed number]
    refine ⟨present number, ?_⟩
    intro hash found
    obtain ⟨l, member, height, rfl⟩ := Forest.exists_of_keyAt found
    obtain ⟨block, known, on_path, rfl⟩ := OnPath.of_mem grown grown.head_mem .head path l member
    refine ⟨block, on_path, UInt64.toNat_inj.mp ?_, rfl⟩
    rw [tree.toNat_number known]
    exact height

theorem StartsAt.path (starts : bc.StartsAt crypto genesis) :
    (genesis.forest crypto).Path (bc.Held crypto) [bc.currentBlock.link crypto] := by
  rw [starts.head]
  refine .root ⟨genesis.block, ?_, rfl⟩
  rw [starts.blocks]
  refine if_pos ⟨rfl, ?_⟩
  exact congrArg UInt64.ofNat genesis.first

theorem StartsAt.indexFollows (starts : bc.StartsAt crypto genesis) (tree : BlockTree crypto blocks)
    (mem : genesis.block ∈ blocks) : bc.IndexFollows crypto := by
  rw [indexFollows_iff tree (starts.grown mem) starts.path]
  intro k
  rw [starts.canonical, starts.head, Forest.keyAt_cons]
  have zero : k = 0 ↔ (genesis.forest crypto).height (genesis.block.link crypto) = k.toNat := by
    have first : (genesis.forest crypto).height (genesis.block.link crypto) = 0 := genesis.first
    rw [← UInt64.toNat_inj, first]
    exact eq_comm
  by_cases here : k = 0
  · rw [if_pos here, if_pos (zero.mp here)]
    rfl
  · rw [if_neg here, if_neg (here ∘ zero.mpr)]
    rfl

end BlockChain

/-- What a call does to the head's path: nothing, or the branches `olds` and `news` above a
shared block are exchanged. -/
inductive HeadMove (env : ImportEnv σ) (blocks : Set Block) (genesis : Genesis)
    (n after : Node σ) (block : Block) : Prop
  | stays (refused : n.adopts env block = false)
      (canonical : after.chain.canonical = n.chain.canonical)
      (lookups : after.chain.lookups = n.chain.lookups)
      (head : after.chain.currentBlock = n.chain.currentBlock)
      (held : ∀ link, n.chain.Held env.crypto link → after.chain.Held env.crypto link)
  | moves {stored : BlockChain} {olds news : List Block} {shared : Link} {low p q : List Link}
      (adopted : n.adopts env block = true)
      (canonical : stored.canonical = n.chain.canonical)
      (lookups : stored.lookups = n.chain.lookups)
      (switched : stored.Switched env after.chain block olds news)
      (olds_known : ∀ b ∈ olds, b ∈ blocks) (news_known : ∀ b ∈ news, b ∈ blocks)
      (held : ∀ link, n.chain.Held env.crypto link → after.chain.Held env.crypto link)
      (old_path : (genesis.forest env.crypto).Path (after.chain.Held env.crypto)
        (n.chain.currentBlock.link env.crypto :: p))
      (new_path : (genesis.forest env.crypto).Path (after.chain.Held env.crypto)
        (block.link env.crypto :: q))
      (old_split : n.chain.currentBlock.link env.crypto :: p =
        olds.map (Block.link env.crypto) ++ shared :: low)
      (new_split : block.link env.crypto :: q = news.map (Block.link env.crypto) ++ shared :: low)

theorem BlockChain.Stores.isSome (stores : bc.Stores env after block) :
    (after.getBlock (block.hash env.crypto) block.numberU64).isSome := by
  rw [stores.blocks, if_pos ⟨rfl, rfl⟩]
  rfl

variable {olds news branch : List Block} {n : Node σ} {shared : Link} {low q : List Link}

theorem BlockChain.Switched.grown
    (switched : bc.Switched env after block olds news) (grown : bc.Grown env.crypto blocks genesis)
    (known : block ∈ blocks) (found : (bc.getBlock (block.hash env.crypto) block.numberU64).isSome) :
    after.Grown env.crypto blocks genesis := by
  refine switched.store.grown grown ?_ ?_
  · rw [switched.head]
    exact known
  · rw [switched.head]
    exact found

theorem WriteResult.moves {after : Node σ} (result : WriteResult env n after block)
    (tree : BlockTree env.crypto blocks) (grown : n.chain.Grown env.crypto blocks genesis)
    (known : block ∈ blocks) :
    after.chain.Grown env.crypto blocks genesis ∧ HeadMove env blocks genesis n after block := by
  cases result with
  | unknown orphan same =>
    subst same
    exact ⟨grown, .stays (by simp [Node.adopts, orphan]) rfl rfl rfl fun _ held => held⟩
  | side weighed stores refused store canonical lookups head =>
    have stored_grown := stores.grown tree grown known weighed
    have head_mem := stored_grown.head_mem
    have head_stored := stored_grown.head_stored
    rw [← head] at head_mem head_stored
    refine ⟨store.grown stored_grown head_mem head_stored, .stays refused
      (canonical.trans stores.canonical) (lookups.trans stores.lookups)
      (head.trans stores.head) ?_⟩
    rw [store.held]
    exact stores.held tree grown known
  | @extended stored weighed stores adopted on_head switched =>
    have stored_grown := stores.grown tree grown known weighed
    refine ⟨switched.grown stored_grown known stores.isSome, ?_⟩
    obtain ⟨p, old_path⟩ := stored_grown.path_of_mem tree stored_grown.head_mem
      stored_grown.head_stored
    rw [stores.head] at old_path
    -- the parent that was weighed is the head
    have new_path : (genesis.forest env.crypto).Path (stored.Held env.crypto)
        (block.link env.crypto :: n.chain.currentBlock.link env.crypto :: p) := by
      rw [grown.weighed, Option.isSome_iff_exists] at weighed
      obtain ⟨parent, found⟩ := weighed
      obtain ⟨parent_known, parent_hash, parent_number⟩ := grown.stored found
      have same := tree.linked parent parent_known _ grown.head_mem (parent_hash.trans on_head)
      have above : block.header.number = n.chain.currentBlock.header.number + 1 :=
        (tree.number_succ known parent_known parent_number).trans (congrArg (·.number + 1) same)
      obtain ⟨b, b_found⟩ := Option.isSome_iff_exists.mp stores.isSome
      have b_link := tree.linked b (stored_grown.stored b_found).1 block known
        (stored_grown.stored b_found).2.1
      exact .child ⟨b, b_found, b_link⟩ on_head above old_path
    have held := stores.held tree grown known
    rw [← switched.store.held] at old_path new_path held
    exact .moves adopted stores.canonical stores.lookups switched (by simp) (by simpa using known)
      held old_path new_path rfl rfl
  | reorganised weighed stores adopted switches =>
    have stored_grown := stores.grown tree grown known weighed
    obtain ⟨p, old_path⟩ := stored_grown.path_of_mem tree stored_grown.head_mem
      stored_grown.head_stored
    rw [stores.head] at old_path
    obtain ⟨q, new_path⟩ := stored_grown.path_of_mem tree known stores.isSome
    obtain ⟨olds, news, shared, low, chains, olds_known, news_known, old_split, new_split⟩ :=
      reorgChains_spec tree stored_grown grown.head_mem known old_path new_path
    have switched := switches olds news chains
    have held := stores.held tree grown known
    rw [← switched.store.held] at old_path new_path held
    exact ⟨switched.grown stored_grown known stores.isSome,
      .moves adopted stores.canonical stores.lookups switched olds_known news_known held old_path
        new_path old_split new_split⟩

theorem number_of_split {held : Link → Prop}
    (path : (genesis.forest crypto).Path held (block.link crypto :: q))
    (split : block.link crypto :: q = branch.map (Block.link crypto) ++ shared :: low) :
    block.header.number = shared.number + branch.length := by
  have whole : q.length = block.header.number := path.length_eq
  have lower : low.length = shared.number := (split ▸ path).lower.length_eq
  have lengths := congrArg List.length split
  simp only [length_cons, length_append, length_map] at lengths
  omega

theorem keyAt_links (tree : BlockTree crypto blocks)
    (known : ∀ b ∈ branch, b ∈ blocks) (k : UInt64) :
    (genesis.forest crypto).keyAt (branch.map (Block.link crypto)) k.toNat =
      (branch.find? fun b => b.numberU64 = k).map (Block.hash crypto) := by
  induction branch with
  | nil => rfl
  | cons b branch ih =>
    obtain ⟨b_known, known⟩ := forall_mem_cons.mp known
    have here : b.header.number = k.toNat ↔ b.numberU64 = k := by
      rw [← tree.toNat_number b_known, UInt64.toNat_inj]
    rw [map_cons, Forest.keyAt_cons, ih known]
    by_cases same : b.numberU64 = k
    · exact (if_pos (here.mpr same)).trans (by simp [same, Block.link, Genesis.forest])
    · exact (if_neg fun number => same (here.mp number)).trans (by simp [same])

theorem canonical_of_move {after : Node σ} {stored : BlockChain}
    (tree : BlockTree env.crypto blocks)
    (switched : stored.Switched env after.chain block olds news) (known : block ∈ blocks)
    (news_known : ∀ b ∈ news, b ∈ blocks)
    (old_path : (genesis.forest env.crypto).Path (after.chain.Held env.crypto)
      (olds.map (Block.link env.crypto) ++ shared :: low))
    (new_split : block.link env.crypto :: q = news.map (Block.link env.crypto) ++ shared :: low)
    (indexed : ∀ k : UInt64, stored.canonical k = (genesis.forest env.crypto).keyAt
      (olds.map (Block.link env.crypto) ++ shared :: low) k.toNat) (k : UInt64) :
    after.chain.canonical k =
      ((genesis.forest env.crypto).keyAt (news.map (Block.link env.crypto)) k.toNat).or
        ((genesis.forest env.crypto).keyAt (olds.map (Block.link env.crypto) ++ shared :: low)
          k.toNat) := by
  rw [switched.canonical, indexed, ← keyAt_links tree news_known]
  by_cases at_head : k = block.numberU64
  · -- the head is the last of the new branch, or the shared block itself
    subst at_head
    rw [if_pos rfl, tree.toNat_number known]
    cases news with
    | nil =>
      obtain ⟨same, -⟩ := cons_eq_cons.mp new_split
      have listed := old_path.keyAt_mem shared (by simp)
      rw [← same] at listed ⊢
      exact listed.symm
    | cons b news =>
      obtain ⟨same, -⟩ := cons_eq_cons.mp new_split
      rw [map_cons, Forest.keyAt_cons, ← same]
      have here : (genesis.forest env.crypto).height (block.link env.crypto) =
        block.header.number := rfl
      rw [if_pos here]
      rfl
  · rw [if_neg at_head]

theorem HeadMove.index_iff {after : Node σ} (move : HeadMove env blocks genesis n after block)
    (tree : BlockTree env.crypto blocks) (grown : n.chain.Grown env.crypto blocks genesis)
    (known : block ∈ blocks) (after_grown : after.chain.Grown env.crypto blocks genesis)
    (follows : n.chain.IndexFollows env.crypto) :
    after.chain.IndexFollows env.crypto ↔
      (n.adopts env block = true → n.chain.currentBlock.numberU64 ≤ block.numberU64) := by
  obtain ⟨p₀, path₀⟩ := grown.path_of_mem tree grown.head_mem grown.head_stored
  have indexed := (BlockChain.indexFollows_iff tree grown path₀).mp follows
  cases move with
  | stays refused canonical lookups head held =>
    refine iff_of_true ?_ (by simp [refused])
    have path := path₀.mono held
    rw [← head] at path indexed
    rw [BlockChain.indexFollows_iff tree after_grown path, canonical]
    exact indexed
  | @moves stored olds news shared low p q adopted canonical lookups switched olds_known news_known
      held old_path new_path old_split new_split =>
      have same := (path₀.mono held).unique (after_grown.held_apart tree) old_path
      subst same
      have old_number := number_of_split old_path old_split
      have new_number := number_of_split new_path new_split
      have old_low := tree.below _ grown.head_mem
      rw [old_split] at old_path indexed
      rw [← canonical] at indexed
      have written := canonical_of_move tree switched known news_known old_path new_split indexed
      have head_path := new_path
      rw [← switched.head] at head_path
      rw [BlockChain.indexFollows_iff tree after_grown head_path, switched.head, new_split]
      rw [new_split] at new_path
      have room : shared.number + (olds.map (Block.link env.crypto)).length < 2 ^ 64 := by
        rw [length_map]
        omega
      have exact_lengths := Forest.Path.switch_iff room old_path new_path
      rw [length_map, length_map] at exact_lengths
      have numbers : n.chain.currentBlock.numberU64 ≤ block.numberU64 ↔
          olds.length ≤ news.length := by
        rw [UInt64.le_iff_toNat_le, tree.toNat_number grown.head_mem, tree.toNat_number known]
        omega
      rw [adopted, numbers, ← exact_lengths]
      constructor
      · intro agree _ k small
        have at_k := agree (UInt64.ofNat k)
        rw [written, UInt64.toNat_ofNat', Nat.mod_eq_of_lt small] at at_k
        exact at_k
      · intro agree k
        rw [written]
        exact agree rfl k.toNat k.toNat_lt

end Growth

section CanonicalIndex
variable {σ : Type}

def KeepsHeight (env : ImportEnv σ) (n : Node σ) (call : WriteCall) : Prop :=
  n.adopts (env.during call) call.block = true →
    n.chain.currentBlock.numberU64 ≤ call.block.numberU64

instance (env : ImportEnv σ) (n : Node σ) (call : WriteCall) : Decidable (KeepsHeight env n call) :=
  inferInstanceAs (Decidable (_ → _))

variable {genesis : Genesis} {calls : List WriteCall}

theorem writeStep_moves {env : ImportEnv σ} {blocks : Set Block} {n after : Node σ}
    {call : WriteCall} (stepped : writeStep env n call = some after)
    (tree : BlockTree env.crypto blocks) (grown : n.chain.Grown env.crypto blocks genesis)
    (known : call.block ∈ blocks) : after.chain.Grown env.crypto blocks genesis ∧
      HeadMove (env.during call) blocks genesis n after call.block := by
  cases stepped
  exact (write_result (env.during call) n call.block call.receipts call.state).moves tree grown known

theorem guarded_blocksOf (env : ImportEnv σ) (n : Node σ) :
    Guarded (writeStep env) (fun _ call => call.block ∈ blocksOf genesis calls) n calls :=
  guarded_of_forall fun call member _ => .inr ⟨call, member, rfl⟩

/-- In any run from the first block, over any tree of blocks, the canonical index follows the
head all along exactly when no call moves the head to a lower number. -/
theorem canonical_index_follows_iff (env : ImportEnv σ) (genesis : Genesis) (n : Node σ)
    (calls : List WriteCall) (tree : BlockTree env.crypto (blocksOf genesis calls))
    (starts : n.chain.StartsAt env.crypto genesis) :
    Always (writeStep env) (fun n => n.chain.IndexFollows env.crypto) n calls ↔
      Guarded (writeStep env) (KeepsHeight env) n calls := by
  have grown : n.chain.Grown env.crypto (blocksOf genesis calls) genesis := starts.grown (.inl rfl)
  have keeps (s : Node σ) (call : WriteCall) (t : Node σ)
      (grown : s.chain.Grown env.crypto (blocksOf genesis calls) genesis)
      (known : call.block ∈ blocksOf genesis calls) (stepped : writeStep env s call = some t) :
      t.chain.Grown env.crypto (blocksOf genesis calls) genesis :=
    (writeStep_moves stepped tree grown known).1
  refine always_iff_guarded_within keeps ?_ grown (starts.indexFollows tree (.inl rfl))
    (guarded_blocksOf env n)
  intro s call t grown follows known stepped
  obtain ⟨after_grown, move⟩ := writeStep_moves stepped tree grown known
  exact move.index_iff tree grown known after_grown follows

/-- Whichever branch a call extends, and whether it fails or not, no block leaves the store
later on, and every block in it has all its ancestors there. -/
theorem store_keeps_branches (env : ImportEnv σ) (genesis : Genesis) (n middle after : Node σ)
    (before later : List WriteCall) (tree : BlockTree env.crypto (blocksOf genesis (before ++ later)))
    (starts : n.chain.StartsAt env.crypto genesis) (ran : run (writeStep env) n before = some middle)
    (ranOn : run (writeStep env) middle later = some after) :
    (∀ link, middle.chain.Held env.crypto link → after.chain.Held env.crypto link) ∧
      ∀ hash number block, after.chain.getBlock hash number = some block →
        ∃ ancestors, (genesis.forest env.crypto).Path (after.chain.Held env.crypto)
          (block.link env.crypto :: ancestors) := by
  set blocks := blocksOf genesis (before ++ later)
  have keeps (first s : Node σ) (call : WriteCall) (t : Node σ)
      (inv : s.chain.Grown env.crypto blocks genesis ∧
        ∀ link, first.chain.Held env.crypto link → s.chain.Held env.crypto link)
      (known : call.block ∈ blocks) (stepped : writeStep env s call = some t) :
      t.chain.Grown env.crypto blocks genesis ∧
        ∀ link, first.chain.Held env.crypto link → t.chain.Held env.crypto link := by
    obtain ⟨grown, move⟩ := writeStep_moves stepped tree inv.1 known
    refine ⟨grown, fun link held => ?_⟩
    cases move with
    | stays _ _ _ _ kept => exact kept link (inv.2 link held)
    | moves _ _ _ _ _ _ kept => exact kept link (inv.2 link held)
  have grown := (run_keeps (keeps n) ⟨starts.grown (.inl rfl), fun _ held => held⟩
    (guarded_of_forall fun call member _ => .inr ⟨call, mem_append_left _ member, rfl⟩) ran).1
  obtain ⟨grownOn, held⟩ := run_keeps (keeps middle) ⟨grown, fun _ held => held⟩
    (guarded_of_forall fun call member _ => .inr ⟨call, mem_append_right _ member, rfl⟩) ranOn
  exact ⟨held, fun _ _ _ found => grownOn.path_of_stored tree found⟩

theorem mem_of_blocksOf {block : Block} (member : block ∈ blocksOf genesis calls) :
    block ∈ genesis.block :: calls.map WriteCall.block := by
  rcases member with rfl | ⟨call, in_calls, rfl⟩
  · exact mem_cons_self
  · exact mem_cons_of_mem _ (mem_map_of_mem in_calls)

theorem blockTree_of_list {crypto : Crypto}
    (linked : ∀ a ∈ genesis.block :: calls.map WriteCall.block,
      ∀ b ∈ genesis.block :: calls.map WriteCall.block,
        a.hash crypto = b.hash crypto → a.link crypto = b.link crypto)
    (below : ∀ a ∈ genesis.block :: calls.map WriteCall.block, a.header.number + 1 < 2 ^ 64) :
    BlockTree crypto (blocksOf genesis calls) :=
  ⟨fun a a_mem b b_mem => linked a (mem_of_blocksOf a_mem) b (mem_of_blocksOf b_mem),
    fun a a_mem => below a (mem_of_blocksOf a_mem)⟩

def sampleFirst : Genesis := ⟨sampleGenesis (soleAccount 9), rfl⟩

theorem sampleFullNode_starts :
    (sampleFullNode (soleAccount 9)).chain.StartsAt sampleSetup.env.crypto sampleFirst := by
  constructor
  case blocks =>
    intro hash number
    by_cases here : hash = (sampleGenesis (soleAccount 9)).hash sampleCrypto ∧ number = 0
    · simp only [BlockChain.getBlock, sampleFullNode, if_pos here]
      exact (if_pos here).symm
    · simp only [BlockChain.getBlock, sampleFullNode, if_neg here]
      exact (if_neg here).symm
  case weights =>
    intro hash number
    by_cases here : hash = (sampleGenesis (soleAccount 9)).hash sampleCrypto ∧ number = 0
    · simp only [BlockChain.getBlock, sampleFullNode, if_pos here]
      rfl
    · simp only [BlockChain.getBlock, sampleFullNode, if_neg here]
      rfl
  case canonical => exact fun _ => rfl
  case head => rfl

def sampleWrite (parent : Block) (difficulty : ℕ) (txs : List Transaction) : WriteCall where
  block :=
    { header := { sampleHeader with
        parentHash := parent.hash sampleCrypto
        number := parent.header.number + 1
        difficulty
        txHash := txRoot sampleHasher txs }
      transactions := txs
      voters := [] }
  receipts := []
  state := soleAccount 9
  coin := false
  collected := []

def sampleTrunk : List WriteCall :=
  let first := sampleWrite sampleFirst.block 1 []
  [first, sampleWrite first.block 1 []]

def sampleFork : List WriteCall := sampleTrunk ++ [sampleWrite sampleFirst.block 5 []]

theorem sampleFork_tree : BlockTree sampleSetup.env.crypto (blocksOf sampleFirst sampleFork) :=
  blockTree_of_list (by decide +kernel) (by decide +kernel)

theorem sampleTrunk_tree : BlockTree sampleSetup.env.crypto (blocksOf sampleFirst sampleTrunk) := by
  apply sampleFork_tree.mono
  rintro block (rfl | ⟨call, member, rfl⟩)
  · exact .inl rfl
  · exact .inr ⟨call, mem_append_left _ member, rfl⟩

theorem sampleTrunk_indexed :
    Guarded (writeStep sampleSetup.env) (KeepsHeight sampleSetup.env) (sampleFullNode (soleAccount 9))
        sampleTrunk ∧
      Always (writeStep sampleSetup.env) (fun n => n.chain.IndexFollows sampleSetup.env.crypto)
        (sampleFullNode (soleAccount 9)) sampleTrunk := by
  have guarded : Guarded (writeStep sampleSetup.env) (KeepsHeight sampleSetup.env)
      (sampleFullNode (soleAccount 9)) sampleTrunk := by decide +kernel
  exact ⟨guarded, (canonical_index_follows_iff sampleSetup.env sampleFirst _ sampleTrunk
    sampleTrunk_tree sampleFullNode_starts).mpr guarded⟩

/-- The head is at number one, and number two still has a canonical hash. -/
theorem sampleFork_leaves_stale_hash :
    BlockTree sampleSetup.env.crypto (blocksOf sampleFirst sampleFork) ∧
    (sampleFullNode (soleAccount 9)).chain.StartsAt sampleSetup.env.crypto sampleFirst ∧
    ∃ after, run (writeStep sampleSetup.env) (sampleFullNode (soleAccount 9)) sampleFork = some after ∧
      after.chain.currentBlock.numberU64 = 1 ∧ (after.chain.canonical 2).isSome ∧
      ¬after.chain.IndexFollows sampleSetup.env.crypto := by
  have evaluated : (run (writeStep sampleSetup.env) (sampleFullNode (soleAccount 9)) sampleFork).any
      fun n => n.chain.currentBlock.numberU64 == 1 && (n.chain.canonical 2).isSome := by
    decide +kernel
  obtain ⟨after, ran, found⟩ := (Option.any_eq_true _ _).mp evaluated
  obtain ⟨lowered, stale⟩ := Bool.and_eq_true_iff.mp found
  have at_one := eq_of_beq lowered
  refine ⟨sampleFork_tree, sampleFullNode_starts, after, ran, at_one, stale, ?_⟩
  intro follows
  have high := (follows 2).1.mp stale
  rw [at_one] at high
  exact absurd high (by decide)

/-- The two blocks of the trunk stay when the head leaves them for a heavier one. -/
theorem sampleFork_keeps_trunk :
    ∃ middle after, run (writeStep sampleSetup.env) (sampleFullNode (soleAccount 9)) sampleTrunk =
        some middle ∧
      run (writeStep sampleSetup.env) middle [sampleWrite sampleFirst.block 5 []] = some after ∧
      ∀ link, middle.chain.Held sampleSetup.env.crypto link →
        after.chain.Held sampleSetup.env.crypto link := by
  obtain ⟨middle, ran⟩ := writeRun_total sampleSetup.env (sampleFullNode (soleAccount 9)) sampleTrunk
  obtain ⟨after, ranOn⟩ := writeRun_total sampleSetup.env middle [sampleWrite sampleFirst.block 5 []]
  exact ⟨middle, after, ran, ranOn, (store_keeps_branches sampleSetup.env sampleFirst _ middle after
    sampleTrunk _ sampleFork_tree sampleFullNode_starts ran ranOn).1⟩

end CanonicalIndex

/-- A transaction has an entry exactly when the head or an ancestor of it carries it, and the
entry names that block and the place in it. -/
def BlockChain.LookupsFollow (crypto : Crypto) (bc : BlockChain) : Prop :=
  ∀ tx, ((bc.lookups tx).isSome ↔ ∃ block, bc.OnPath block ∧ tx ∈ block.txHashes crypto) ∧
    ∀ hash number i, bc.lookups tx = some (hash, number, i) →
      ∃ block, bc.OnPath block ∧ block.hash crypto = hash ∧ block.numberU64 = number ∧
        (block.txHashes crypto)[i]? = some tx

/-- A tree whose blocks carry, by their hash, these transactions; no chain of parents in it
carries one twice. -/
structure TxTree (crypto : Crypto) (blocks : Set Block) (contents : Hash → List Hash) : Prop extends
    BlockTree crypto blocks where
  carries : ∀ b ∈ blocks, b.txHashes crypto = contents (b.hash crypto)
  once : ∀ chain : List Block, (∀ b ∈ chain, b ∈ blocks) →
    chain.IsChain (fun child parent => child.header.parentHash = parent.hash crypto ∧
      child.header.number = parent.header.number + 1) →
    (chain.flatMap (Block.txHashes crypto)).Nodup

section Lookups
variable {σ : Type} {env : ImportEnv σ} {crypto : Crypto} {blocks : Set Block} {genesis : Genesis}
  {contents : Hash → List Hash} {bc : BlockChain} {block : Block} {p : List Link}

def placeOf (contents : Hash → List Hash) (tx : Hash) (link : Link) : Option (Hash × UInt64 × ℕ) :=
  entryIn link.hash (UInt64.ofNat link.number) (contents link.hash) tx

theorem placeOf_isSome {tx : Hash} {link : Link} :
    (placeOf contents tx link).isSome ↔ tx ∈ contents link.hash := by
  rw [placeOf, entryIn, Option.isSome_map, isSome_idxOf?]

theorem TxTree.placeOf_link (tree : TxTree crypto blocks contents) (known : block ∈ blocks)
    (tx : Hash) : placeOf contents tx (block.link crypto) =
      entryIn (block.hash crypto) block.numberU64 (block.txHashes crypto) tx := by
  rw [tree.carries block known]
  rfl

theorem TxTree.path_once (tree : TxTree crypto blocks contents)
    (grown : bc.Grown crypto blocks genesis)
    (path : (genesis.forest crypto).Path (bc.Held crypto) p) :
    (p.flatMap fun l => contents l.hash).Nodup := by
  obtain ⟨chain, known, links⟩ : ∃ chain : List Block, (∀ b ∈ chain, b ∈ blocks) ∧
      chain.map (Block.link crypto) = p := by
    have held := path.all_held
    clear path
    induction p with
    | nil => exact ⟨[], by simp, rfl⟩
    | cons l p ih =>
      obtain ⟨⟨b, found, b_link⟩, later⟩ := forall_mem_cons.mp held
      obtain ⟨chain, known, links⟩ := ih later
      exact ⟨b :: chain, forall_mem_cons.mpr ⟨(grown.stored found).1, known⟩, by
        rw [map_cons, b_link, links]⟩
  have linked := path.linked
  rw [← links, isChain_map] at linked
  have distinct := tree.once chain known linked
  rw [← links, flatMap_map]
  have same : chain.flatMap (Block.txHashes crypto) =
      chain.flatMap fun b => contents (b.link crypto).hash :=
    flatMap_congr fun b member => tree.carries b (known b member)
  exact same ▸ distinct

def Places (contents : Hash → List Hash) (crypto : Crypto) (genesis : Genesis) (bc : BlockChain) :
    Prop :=
  ∃ p, (genesis.forest crypto).Path (bc.Held crypto) (bc.currentBlock.link crypto :: p) ∧
    ∀ tx, bc.lookups tx = (bc.currentBlock.link crypto :: p).findSome? (placeOf contents tx)

theorem findSome?_links (tree : TxTree crypto blocks contents) {branch : List Block}
    (known : ∀ b ∈ branch, b ∈ blocks) (tx : Hash) :
    (branch.map (Block.link crypto)).findSome? (placeOf contents tx) =
      branch.findSome? fun b => entryIn (b.hash crypto) b.numberU64 (b.txHashes crypto) tx := by
  rw [findSome?_map]
  induction branch with
  | nil => rfl
  | cons b branch ih =>
    obtain ⟨b_known, known⟩ := forall_mem_cons.mp known
    rw [findSome?_cons, findSome?_cons, ih known, Function.comp_apply, tree.placeOf_link b_known]

theorem findSome?_isSome_iff (tx : Hash) (links : List Link) :
    (links.findSome? (placeOf contents tx)).isSome ↔ tx ∈ links.flatMap fun l => contents l.hash := by
  simp only [List.findSome?_isSome_iff, placeOf_isSome, mem_flatMap]

theorem HeadMove.places {n after : Node σ} (move : HeadMove env blocks genesis n after block)
    (tree : TxTree env.crypto blocks contents) 
    (after_grown : after.chain.Grown env.crypto blocks genesis)
    (places : Places contents env.crypto genesis n.chain) :
    Places contents env.crypto genesis after.chain := by
  obtain ⟨p₀, path₀, placed⟩ := places
  cases move with
  | stays refused canonical lookups head held =>
    refine ⟨p₀, ?_, ?_⟩
    · rw [head]
      exact path₀.mono held
    · rw [head, lookups]
      exact placed
  | @moves stored olds news shared low p q adopted canonical lookups switched olds_known news_known
      held old_path new_path old_split new_split =>
      have same := (path₀.mono held).unique (after_grown.held_apart tree.toBlockTree) old_path
      subst same
      refine ⟨q, switched.head ▸ new_path, ?_⟩
      intro tx
      have distinct : ∀ b ∈ news, (b.txHashes env.crypto).Nodup := by
        intro b member
        have alone := tree.once [b] (by simpa using news_known b member) (.singleton b)
        simpa using alone
      have hashes (branch : List Block) (known : ∀ b ∈ branch, b ∈ blocks) :
          tx ∈ branch.flatMap (Block.txHashes env.crypto) ↔
            ((branch.map (Block.link env.crypto)).findSome? (placeOf contents tx)).isSome := by
        rw [findSome?_isSome_iff, flatMap_map,
          flatMap_congr fun b member => tree.carries b (known b member)]
        rfl
      have apart : ((olds.map (Block.link env.crypto)).findSome? (placeOf contents tx)).isSome →
          (shared :: low).findSome? (placeOf contents tx) = none := by
        have distinct := tree.path_once after_grown old_path
        rw [old_split, flatMap_append, nodup_append] at distinct
        rw [findSome?_isSome_iff, ← Option.not_isSome_iff_eq_none, findSome?_isSome_iff]
        exact fun upper lower => distinct.2.2 tx upper tx lower rfl
      rw [switched.head, new_split, ← Forest.switch_places apart, switched.lookups distinct tx,
        lookups, placed tx, old_split, ← findSome?_links tree news_known]
      simp only [hashes olds olds_known, hashes news news_known, Option.not_isSome_iff_eq_none]

theorem Places.lookupsFollow (tree : TxTree crypto blocks contents)
    (grown : bc.Grown crypto blocks genesis) (places : Places contents crypto genesis bc) :
    bc.LookupsFollow crypto := by
  obtain ⟨p, path, placed⟩ := places
  have on_path := BlockChain.OnPath.of_mem grown grown.head_mem .head path
  intro tx
  constructor
  · rw [placed, findSome?_isSome_iff, mem_flatMap]
    constructor
    · rintro ⟨l, member, listed⟩
      obtain ⟨block, known, here, rfl⟩ := on_path l member
      exact ⟨block, here, (tree.carries block known).symm ▸ listed⟩
    · rintro ⟨block, here, listed⟩
      obtain ⟨known, member⟩ := here.mem tree.toBlockTree grown path
      exact ⟨block.link crypto, member, tree.carries block known ▸ listed⟩
  · intro hash number i found
    rw [placed] at found
    obtain ⟨l, member, entry⟩ := exists_of_findSome?_eq_some found
    obtain ⟨block, known, here, rfl⟩ := on_path l member
    rw [tree.placeOf_link known, entryIn, Option.map_eq_some_iff] at entry
    obtain ⟨j, index, same⟩ := entry
    cases same
    refine ⟨block, here, rfl, rfl, ?_⟩
    obtain ⟨within, at_i, -⟩ := idxOf?_eq_some_iff.mp index
    rw [getElem?_eq_getElem within]
    exact congrArg some at_i

/-- From a first block without transactions, over any tree of blocks in which no chain carries a
transaction twice, the lookups name the transactions of the head's path. -/
theorem lookups_follow_canonical (env : ImportEnv σ) (genesis : Genesis) (n after : Node σ)
    (calls : List WriteCall) (contents : Hash → List Hash)
    (tree : TxTree env.crypto (blocksOf genesis calls) contents)
    (starts : n.chain.StartsAt env.crypto genesis) (empty : genesis.block.transactions = [])
    (unlisted : ∀ tx, n.chain.lookups tx = none) (ran : run (writeStep env) n calls = some after) :
    after.chain.LookupsFollow env.crypto := by
  have start : n.chain.Grown env.crypto (blocksOf genesis calls) genesis ∧
      Places contents env.crypto genesis n.chain := by
    refine ⟨starts.grown (.inl rfl), [], starts.path, ?_⟩
    intro tx
    have none_carried : genesis.block.txHashes env.crypto = [] := by rw [Block.txHashes, empty]; rfl
    rw [unlisted, starts.head, findSome?_cons, tree.placeOf_link (.inl rfl), none_carried]
    rfl
  have keeps (s : Node σ) (call : WriteCall) (t : Node σ)
      (inv : s.chain.Grown env.crypto (blocksOf genesis calls) genesis ∧
        Places contents env.crypto genesis s.chain)
      (known : call.block ∈ blocksOf genesis calls) (stepped : writeStep env s call = some t) :
      t.chain.Grown env.crypto (blocksOf genesis calls) genesis ∧
        Places contents env.crypto genesis t.chain := by
    obtain ⟨after_grown, move⟩ := writeStep_moves stepped tree.toBlockTree inv.1 known
    exact ⟨after_grown, move.places tree after_grown inv.2⟩
  obtain ⟨grown, places⟩ := run_keeps keeps start (guarded_blocksOf env n) ran
  exact places.lookupsFollow tree grown

theorem once_of_level {level : ℕ} (single : ∀ b ∈ blocks, b.transactions.length ≤ 1)
    (at_level : ∀ b ∈ blocks, b.transactions.length = 1 → b.header.number = level)
    (chain : List Block) (known : ∀ b ∈ chain, b ∈ blocks)
    (linked : chain.IsChain fun child parent => child.header.parentHash = parent.hash crypto ∧
      child.header.number = parent.header.number + 1) :
    (chain.flatMap (Block.txHashes crypto)).Nodup := by
  have falling : chain.IsChain fun a b => b.header.number < a.header.number :=
    linked.imp fun a b next => by omega
  have number_of {b : Block} {tx : Hash} (member : b ∈ chain) (carried : tx ∈ b.txHashes crypto) :
      b.header.number = level := by
    have some_tx := length_pos_of_mem carried
    have at_most := single b (known b member)
    rw [Block.txHashes, length_map] at some_tx
    exact at_level b (known b member) (by omega)
  rw [nodup_flatMap]
  constructor
  · intro b member
    apply nodup_iff_sublist.mpr
    intro tx twice
    have short := twice.length_le
    have at_most := single b (known b member)
    rw [Block.txHashes, length_map] at short
    simp only [length_cons, length_nil] at short
    omega
  · refine (isChain_iff_pairwise.mp falling).imp_of_mem ?_
    intro a b a_mem b_mem lower tx in_a in_b
    have above := number_of a_mem in_a
    have below := number_of b_mem in_b
    omega

def sampleDrop : List WriteCall :=
  [sampleWrite sampleFirst.block 1 [plainTransfer 0 0 0], sampleWrite sampleFirst.block 5 []]

def sampleContents (hash : Hash) : List Hash :=
  if hash = (sampleWrite sampleFirst.block 1 [plainTransfer 0 0 0]).block.hash sampleCrypto then
    [(plainTransfer 0 0 0).hash sampleCrypto]
  else []

theorem sampleDrop_tree :
    TxTree sampleSetup.env.crypto (blocksOf sampleFirst sampleDrop) sampleContents := by
  have carries : ∀ b ∈ sampleFirst.block :: sampleDrop.map WriteCall.block,
      b.txHashes sampleSetup.env.crypto = sampleContents (b.hash sampleSetup.env.crypto) := by
    decide +kernel
  have single : ∀ b ∈ sampleFirst.block :: sampleDrop.map WriteCall.block,
      b.transactions.length ≤ 1 := by decide +kernel
  have at_one : ∀ b ∈ sampleFirst.block :: sampleDrop.map WriteCall.block,
      b.transactions.length = 1 → b.header.number = 1 := by decide +kernel
  exact { toBlockTree := blockTree_of_list (by decide +kernel) (by decide +kernel)
          carries := fun b member => carries b (mem_of_blocksOf member)
          once := once_of_level (fun b member => single b (mem_of_blocksOf member))
            fun b member => at_one b (mem_of_blocksOf member) }

theorem sampleDrop_followed :
    ∃ after, run (writeStep sampleSetup.env) (sampleFullNode (soleAccount 9)) sampleDrop = some after ∧
      after.chain.LookupsFollow sampleSetup.env.crypto := by
  obtain ⟨after, ran⟩ := writeRun_total sampleSetup.env (sampleFullNode (soleAccount 9)) sampleDrop
  exact ⟨after, ran, lookups_follow_canonical sampleSetup.env sampleFirst
    (sampleFullNode (soleAccount 9)) after sampleDrop sampleContents sampleDrop_tree
    sampleFullNode_starts rfl (fun _ => rfl) ran⟩

end Lookups

end Anduschain
