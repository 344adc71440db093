import Anduschain.CanonicalSafety

/-! The head of the chain after any run of `WriteBlockWithState` calls that succeed: no block
that was written weighs more, whatever the tree of blocks and the coins of the ties. -/
namespace Anduschain
open FiniteRun

structure WeighedTree (crypto : Crypto) (blocks : Set Block) : Prop
    extends BlockTree crypto blocks where
  weighs : ∀ a ∈ blocks, ∀ b ∈ blocks,
    a.hash crypto = b.hash crypto → a.header.difficulty = b.header.difficulty

namespace BlockChain

variable (crypto : Crypto) (bc : BlockChain)

def weight (block : Block) : Option ℕ :=
  bc.totalDifficulty (block.hash crypto) block.numberU64

def parentWeight (block : Block) : Option ℕ :=
  bc.totalDifficulty block.header.parentHash (block.numberU64 - 1)

def Summed (blocks : Set Block) (genesis : Genesis) (bc : BlockChain) : Prop :=
  ∀ block ∈ blocks, ∀ td, bc.weight crypto block = some td →
    block.hash crypto = genesis.block.hash crypto ∨
      ∃ ptd, bc.parentWeight block = some ptd ∧ td = block.header.difficulty + ptd

def Topped : Prop :=
  ∃ headTd, bc.weight crypto bc.currentBlock = some headTd ∧
    ∀ hash number td, bc.totalDifficulty hash number = some td → td ≤ headTd

structure Crowned (crypto : Crypto) (blocks : Set Block) (genesis : Genesis) (bc : BlockChain) :
    Prop where
  grown : bc.Grown crypto blocks genesis
  summed : bc.Summed crypto blocks genesis
  topped : bc.Topped crypto

end BlockChain

section Weights
variable {σ : Type} {env : ImportEnv σ} {blocks : Set Block} {genesis : Genesis} {n after : Node σ}
  {block : Block} {ptd localTd : ℕ}

theorem storeBlock_weights (env : ImportEnv σ) (n : Node σ) (block : Block) (td : ℕ)
    (state : StateDB) :
    (n.storeBlock env block td state).chain.totalDifficulty = fun hash number =>
      if hash = block.hash env.crypto ∧ number = block.numberU64 then some td
      else n.chain.totalDifficulty hash number := by
  obtain ⟨states, stored⟩ := storeBlock_chain env n block td state
  rw [stored]
  rfl

theorem write_weights (env : ImportEnv σ) (n : Node σ) (block : Block) (receipts : List Receipt)
    (state : StateDB) (known : n.chain.parentWeight block = some ptd) :
    (writeBlockWithState env n block receipts state).1.chain.totalDifficulty = fun hash number =>
      if hash = block.hash env.crypto ∧ number = block.numberU64 then
        some (block.header.difficulty + ptd)
      else n.chain.totalDifficulty hash number := by
  rw [BlockChain.parentWeight] at known
  have stored := storeBlock_weights env n block (block.header.difficulty + ptd) state
  rw [writeBlockWithState, known]
  cases headTd : n.chain.totalDifficulty (n.chain.currentBlock.hash env.crypto)
      n.chain.currentBlock.numberU64 with
  | none =>
    simp only [headTd]
    exact stored
  | some localTd =>
    simp only [headTd]
    cases prefers env block n.chain.currentBlock (block.header.difficulty + ptd) localTd with
    | false => exact stored
    | true =>
      by_cases on_head : block.header.parentHash = n.chain.currentBlock.hash env.crypto
      · simp only [if_true, on_head, ne_eq, not_true_eq_false, if_false]
        exact (extend_switches env _ block receipts).store.weights.trans stored
      · simp only [if_true, ne_eq, on_head, not_false_eq_true]
        cases chains : reorgChains env
            (n.storeBlock env block (block.header.difficulty + ptd) state).chain
            n.chain.currentBlock block with
        | error e =>
          rw [reorg, chains]
          exact stored
        | ok branches =>
          rw [reorg_of_chains env chains]
          exact (reorg_switches env _ block branches.1 branches.2 receipts).store.weights.trans
            stored

theorem le_of_refused {current : Block} {externTd : ℕ}
    (refused : prefers env block current externTd localTd = false) : externTd ≤ localTd := by
  simp only [prefers, Bool.or_eq_false_iff, decide_eq_false_iff_not] at refused
  exact Nat.le_of_not_lt refused.1

theorem le_of_preferred {current : Block} {externTd : ℕ}
    (preferred : prefers env block current externTd localTd = true) : localTd ≤ externTd := by
  simp only [prefers, Bool.or_eq_true, Bool.and_eq_true, decide_eq_true_eq, beq_iff_eq] at preferred
  rcases preferred with more | ⟨same, -⟩
  · exact more.le
  · exact same.ge

theorem adopts_eq (known : n.chain.parentWeight block = some ptd)
    (head : n.chain.weight env.crypto n.chain.currentBlock = some localTd) :
    n.adopts env block =
      prefers env block n.chain.currentBlock (block.header.difficulty + ptd) localTd := by
  rw [BlockChain.parentWeight] at known
  rw [BlockChain.weight] at head
  simp only [Node.adopts, known, head]

namespace BlockChain

theorem Grown.not_first {bc : BlockChain} (tree : BlockTree env.crypto blocks)
    (grown : bc.Grown env.crypto blocks genesis) (mem : block ∈ blocks)
    (known : bc.parentWeight block = some ptd) :
    block.hash env.crypto ≠ genesis.block.hash env.crypto := by
  intro first
  have stored : (bc.getBlock block.header.parentHash (block.numberU64 - 1)).isSome :=
    (grown.weighed _ _).symm.trans (Option.isSome_of_mem known)
  obtain ⟨parent, found⟩ := Option.isSome_iff_exists.mp stored
  obtain ⟨parent_mem, -, next⟩ := grown.stored found
  have above := tree.number_succ mem parent_mem next
  have same := congrArg Link.number (tree.linked block mem _ grown.genesis_mem first)
  have zero := genesis.first
  simp only [Block.link] at same
  omega

theorem Crowned.reweighs {bc : BlockChain} (tree : BlockTree env.crypto blocks)
    (crowned : bc.Crowned env.crypto blocks genesis) (mem : block ∈ blocks)
    (known : bc.parentWeight block = some ptd) {td : ℕ} (has : bc.weight env.crypto block = some td) :
    td = block.header.difficulty + ptd := by
  rcases crowned.summed block mem td has with first | ⟨ptd', known', sum⟩
  · exact absurd first (crowned.grown.not_first tree mem known)
  · rw [known] at known'
    cases known'
    exact sum

end BlockChain

structure Weighed (env : ImportEnv σ) (n after : Node σ) (block : Block) (ptd : ℕ) : Prop where
  parent : n.chain.parentWeight block = some ptd
  gained : after.chain.weight env.crypto block = some (block.header.difficulty + ptd)
  kept : ∀ hash number td, n.chain.totalDifficulty hash number = some td →
    after.chain.totalDifficulty hash number = some td
  only : ∀ hash number td, after.chain.totalDifficulty hash number = some td →
    n.chain.totalDifficulty hash number = some td ∨
      hash = block.hash env.crypto ∧ number = block.numberU64 ∧ td = block.header.difficulty + ptd

theorem BlockChain.Crowned.weighed (env : ImportEnv σ) (tree : BlockTree env.crypto blocks)
    (crowned : n.chain.Crowned env.crypto blocks genesis) (mem : block ∈ blocks)
    (receipts : List Receipt) (state : StateDB) (known : n.chain.parentWeight block = some ptd) :
    Weighed env n (writeBlockWithState env n block receipts state).1 block ptd := by
  have weights (hash : Hash) (number : UInt64) := congrFun₂
    (write_weights env n block receipts state known) hash number
  constructor
  case parent => exact known
  case gained => rw [BlockChain.weight, weights, if_pos ⟨rfl, rfl⟩]
  case kept =>
    intro hash number td has
    rw [weights]
    by_cases here : hash = block.hash env.crypto ∧ number = block.numberU64
    · obtain ⟨rfl, rfl⟩ := here
      rw [if_pos ⟨rfl, rfl⟩, crowned.reweighs tree mem known has]
    · rw [if_neg here]
      exact has
  case only =>
    intro hash number td has
    rw [weights] at has
    by_cases here : hash = block.hash env.crypto ∧ number = block.numberU64
    · rw [if_pos here] at has
      exact .inr ⟨here.1, here.2, (Option.some.inj has).symm⟩
    · rw [if_neg here] at has
      exact .inl has

theorem Weighed.summed (weighed : Weighed env n after block ptd)
    (tree : WeighedTree env.crypto blocks) (mem : block ∈ blocks)
    (summed : n.chain.Summed env.crypto blocks genesis) :
    after.chain.Summed env.crypto blocks genesis := by
  intro b b_mem td has
  rcases weighed.only _ _ _ has with before | ⟨same, -, total⟩
  · rcases summed b b_mem td before with first | ⟨ptd', known', sum⟩
    · exact .inl first
    · exact .inr ⟨ptd', weighed.kept _ _ _ known', sum⟩
  · -- a block of the written one's hash has its parent and its difficulty
    have linked := tree.linked b b_mem block mem same
    have parents : b.header.parentHash = block.header.parentHash := congrArg Link.parentHash linked
    have numbers : b.header.number = block.header.number := congrArg Link.number linked
    refine .inr ⟨ptd, ?_, ?_⟩
    · have kept := weighed.kept _ _ _ weighed.parent
      simpa only [BlockChain.parentWeight, Block.numberU64, parents, numbers] using kept
    · rw [tree.weighs b b_mem block mem same]
      exact total

theorem Weighed.topped (weighed : Weighed env n after block ptd)
    (move : HeadMove env blocks genesis n after block) (topped : n.chain.Topped env.crypto) :
    after.chain.Topped env.crypto := by
  obtain ⟨localTd, head, most⟩ := topped
  have choice := adopts_eq weighed.parent head
  cases move with
  | stays refused canonical lookups same held =>
    refine ⟨localTd, ?_, ?_⟩
    · rw [same]
      exact weighed.kept _ _ _ head
    · intro hash number td has
      rcases weighed.only _ _ _ has with before | ⟨-, -, rfl⟩
      · exact most _ _ _ before
      · exact le_of_refused (choice.symm.trans refused)
  | moves adopted canonical lookups switched olds_known news_known held old_path new_path old_split
      new_split =>
      refine ⟨block.header.difficulty + ptd, ?_, ?_⟩
      · rw [switched.head]
        exact weighed.gained
      · intro hash number td has
        rcases weighed.only _ _ _ has with before | ⟨-, -, rfl⟩
        · exact (most _ _ _ before).trans (le_of_preferred (choice.symm.trans adopted))
        · exact le_refl _

end Weights

section Runs
variable {σ : Type} {env : ImportEnv σ} {blocks : Set Block} {genesis : Genesis} {n after : Node σ}

def Succeeds (env : ImportEnv σ) (n : Node σ) (call : WriteCall) : Prop :=
  (writeBlockWithState (env.during call) n call.block call.receipts call.state).2.isOk = true

instance (env : ImportEnv σ) (n : Node σ) (call : WriteCall) : Decidable (Succeeds env n call) :=
  inferInstanceAs (Decidable (_ = true))

theorem Succeeds.parent {call : WriteCall} (succeeds : Succeeds env n call) :
    ∃ ptd, n.chain.parentWeight call.block = some ptd := by
  cases known : n.chain.parentWeight call.block with
  | some ptd => exact ⟨ptd, rfl⟩
  | none =>
    rw [BlockChain.parentWeight] at known
    rw [Succeeds, writeBlockWithState, known] at succeeds
    cases succeeds

section

variable {call : WriteCall} (crowned : n.chain.Crowned env.crypto blocks genesis)
  (mem : call.block ∈ blocks) (stepped : writeStep env n call = some after)
  (succeeds : Succeeds env n call)
include crowned mem stepped succeeds

theorem writeStep_weighed (tree : BlockTree env.crypto blocks) :
    ∃ ptd, Weighed (env.during call) n after call.block ptd := by
  obtain ⟨ptd, known⟩ := succeeds.parent
  cases stepped
  exact ⟨ptd, BlockChain.Crowned.weighed (env.during call) tree crowned mem call.receipts call.state
    known⟩

theorem writeStep_crowned (tree : WeighedTree env.crypto blocks) :
    after.chain.Crowned env.crypto blocks genesis := by
  obtain ⟨ptd, weighed⟩ := writeStep_weighed crowned mem stepped succeeds tree.toBlockTree
  obtain ⟨grown, move⟩ := writeStep_moves stepped tree.toBlockTree crowned.grown mem
  exact ⟨grown, weighed.summed tree mem crowned.summed, weighed.topped move crowned.topped⟩

end

theorem writeRun_weighed (tree : WeighedTree env.crypto blocks) {calls : List WriteCall}
    (mem : ∀ call ∈ calls, call.block ∈ blocks)
    (crowned : n.chain.Crowned env.crypto blocks genesis)
    (succeeded : Guarded (writeStep env) (Succeeds env) n calls)
    (ran : run (writeStep env) n calls = some after) :
    after.chain.Crowned env.crypto blocks genesis ∧
    (∀ hash number td, n.chain.totalDifficulty hash number = some td →
      after.chain.totalDifficulty hash number = some td) ∧
    ∀ call ∈ calls, ∃ ptd, after.chain.parentWeight call.block = some ptd ∧
      after.chain.weight env.crypto call.block = some (call.block.header.difficulty + ptd) := by
  induction calls generalizing n with
  | nil =>
    cases ran
    exact ⟨crowned, fun _ _ _ has => has, by simp⟩
  | cons call calls ih =>
    obtain ⟨next, stepped, ran⟩ := run_cons.mp ran
    simp only [Guarded, stepped] at succeeded
    have here := mem call List.mem_cons_self
    obtain ⟨ptd, weighed⟩ := writeStep_weighed crowned here stepped succeeded.1 tree.toBlockTree
    obtain ⟨crowned, kept, later⟩ := ih (fun c member => mem c (List.mem_cons_of_mem _ member))
      (writeStep_crowned crowned here stepped succeeded.1 tree) succeeded.2 ran
    refine ⟨crowned, fun _ _ _ has => kept _ _ _ (weighed.kept _ _ _ has), ?_⟩
    intro c member
    rcases List.mem_cons.mp member with rfl | member
    · exact ⟨ptd, kept _ _ _ (weighed.kept _ _ _ weighed.parent), kept _ _ _ weighed.gained⟩
    · exact later c member

theorem BlockChain.StartsAt.crowned {bc : BlockChain} {crypto : Crypto}
    (starts : bc.StartsAt crypto genesis) (mem : genesis.block ∈ blocks) : bc.Crowned crypto blocks genesis := by
  have grown := starts.grown mem
  have only {hash number td} (has : bc.totalDifficulty hash number = some td) :
      hash = genesis.block.hash crypto ∧ number = 0 := by
    have found := starts.weights hash number
    rw [has, starts.blocks] at found
    by_contra other
    rw [if_neg other] at found
    cases found
  refine ⟨grown, ?_, ?_⟩
  · intro block _ td has
    exact .inl (only has).1
  · have weighed : (bc.weight crypto bc.currentBlock).isSome :=
      (starts.weights _ _).trans grown.head_stored
    obtain ⟨headTd, head⟩ := Option.isSome_iff_exists.mp weighed
    refine ⟨headTd, head, ?_⟩
    intro hash number td has
    obtain ⟨rfl, rfl⟩ := only has
    have at_head := head
    rw [BlockChain.weight, starts.head] at at_head
    obtain ⟨-, zero⟩ := only at_head
    rw [zero, has] at at_head
    exact (Option.some.inj at_head).le

/-- After any run of calls that succeed, over any tree of blocks and with any coins, every block
written weighs its difficulty and what its parent does, and the head weighs as much or more. -/
theorem head_outweighs_written (env : ImportEnv σ) (genesis : Genesis) (n after : Node σ)
    (calls : List WriteCall) (tree : WeighedTree env.crypto (blocksOf genesis calls))
    (starts : n.chain.StartsAt env.crypto genesis)
    (succeeded : Guarded (writeStep env) (Succeeds env) n calls)
    (ran : run (writeStep env) n calls = some after) :
    ∃ headTd, after.chain.weight env.crypto after.chain.currentBlock = some headTd ∧
      ∀ call ∈ calls, ∃ ptd, after.chain.parentWeight call.block = some ptd ∧
        after.chain.weight env.crypto call.block = some (call.block.header.difficulty + ptd) ∧
        call.block.header.difficulty + ptd ≤ headTd := by
  have first : genesis.block ∈ blocksOf genesis calls := .inl rfl
  have crowned := starts.crowned first
  obtain ⟨crowned, -, written⟩ := writeRun_weighed tree (fun call member => .inr ⟨call, member, rfl⟩)
    crowned succeeded ran
  obtain ⟨headTd, head, most⟩ := crowned.topped
  refine ⟨headTd, head, ?_⟩
  intro call member
  obtain ⟨ptd, known, weighs⟩ := written call member
  exact ⟨ptd, known, weighs, most _ _ _ weighs⟩

theorem sampleFork_weighed : WeighedTree sampleSetup.env.crypto (blocksOf sampleFirst sampleFork) where
  toBlockTree := sampleFork_tree
  weighs a a_mem b b_mem := by
    have apart : ∀ a ∈ sampleFirst.block :: sampleFork.map WriteCall.block,
        ∀ b ∈ sampleFirst.block :: sampleFork.map WriteCall.block,
          a.hash sampleSetup.env.crypto = b.hash sampleSetup.env.crypto →
            a.header.difficulty = b.header.difficulty := by decide +kernel
    exact apart a (mem_of_blocksOf a_mem) b (mem_of_blocksOf b_mem)

/-- Two light blocks and a heavier one beside them: the head is the heavier one. -/
theorem sampleFork_head_outweighs :
    ∃ after, run (writeStep sampleSetup.env) (sampleFullNode (soleAccount 9)) sampleFork = some after ∧
      ∃ headTd, after.chain.weight sampleSetup.env.crypto after.chain.currentBlock = some headTd ∧
        ∀ call ∈ sampleFork, ∃ ptd, after.chain.parentWeight call.block = some ptd ∧
          after.chain.weight sampleSetup.env.crypto call.block =
            some (call.block.header.difficulty + ptd) ∧
          call.block.header.difficulty + ptd ≤ headTd := by
  obtain ⟨after, ran⟩ := writeRun_total sampleSetup.env (sampleFullNode (soleAccount 9)) sampleFork
  have succeeded : Guarded (writeStep sampleSetup.env) (Succeeds sampleSetup.env)
      (sampleFullNode (soleAccount 9)) sampleFork := by decide +kernel
  exact ⟨after, ran, head_outweighs_written sampleSetup.env sampleFirst _ after sampleFork
    sampleFork_weighed sampleFullNode_starts succeeded ran⟩

end Runs

end Anduschain
