import Anduschain.JoinReward

/-! Where the chain identifier that the reward compares comes from: the
configurations built into package params share its variables, a configuration
that `SetupGenesisBlock` reads back from the database has a number of its own. -/
namespace Anduschain
open ByteOrder BinaryRounding CheckedSteps

def ChainId.number : ChainId → ℕ
  | .generalId => 3357
  | .sideId => 3358
  | .dvlpNetId => 14288642
  | .loaded id => id

/-- A chain configuration; the fork numbers are of any type. -/
structure NodeConfig (Forks : Type) where
  chainID : ChainId
  forks : Forks

/-- `json.Marshal` and `json.Unmarshal`: the integer is kept, the pointer is not. -/
def NodeConfig.reload {Forks : Type} (config : NodeConfig Forks) : NodeConfig Forks :=
  { config with chainID := .loaded config.chainID.number }

structure GenesisSpec (Forks : Type) where
  hash : Hash
  config : Option (NodeConfig Forks)

/-- What `SetupGenesisBlock` reads: the canonical hash of block zero, the configurations
by genesis hash, and the height of the head header. -/
structure GenesisDB (Forks : Type) where
  canonical : Option Hash
  config : Hash → Option (NodeConfig Forks)
  height : Option ℕ

structure NetParams (Forks : Type) where
  mainnetGenesisHash : Hash
  testnetGenesisHash : Hash
  mainnetForks : Forks
  testnetForks : Forks
  allDebForks : Forks
  checkCompatible : NodeConfig Forks → NodeConfig Forks → ℕ → Option ℕ

inductive GenesisError where
  | noConfig
  | mismatch (stored new : Hash)
  | missingHead
  | incompatible (rewindTo : ℕ)
  deriving DecidableEq

structure GenesisSetup (Forks : Type) where
  config : NodeConfig Forks
  hash : Hash
  error : Option GenesisError
  db : GenesisDB Forks

section Setup
variable {Forks : Type}

namespace NetParams
variable (net : NetParams Forks)

def mainnetChainConfig : NodeConfig Forks := ⟨.loaded 14288640, net.mainnetForks⟩

def testnetChainConfig : NodeConfig Forks := ⟨.loaded 14288641, net.testnetForks⟩

def allDebProtocolChanges : NodeConfig Forks := ⟨.dvlpNetId, net.allDebForks⟩

def defaultGenesisBlock : GenesisSpec Forks := ⟨net.mainnetGenesisHash, some net.mainnetChainConfig⟩

def configOf (g : GenesisSpec Forks) : NodeConfig Forks := g.config.getD net.allDebProtocolChanges

def configOrDefault (genesis : Option (GenesisSpec Forks)) (ghash : Hash) : NodeConfig Forks :=
  match genesis with
  | some g => net.configOf g
  | none =>
    if ghash = net.mainnetGenesisHash then net.mainnetChainConfig
    else if ghash = net.testnetGenesisHash then net.testnetChainConfig
    else net.allDebProtocolChanges

end NetParams

def GenesisDB.writeChainConfig (db : GenesisDB Forks) (hash : Hash) (config : NodeConfig Forks) :
    GenesisDB Forks :=
  { db with config := fun h => if h = hash then some config.reload else db.config h }

def GenesisDB.commit (db : GenesisDB Forks) (hash : Hash) (config : NodeConfig Forks) :
    GenesisDB Forks :=
  { db.writeChainConfig hash config with canonical := some hash, height := some 0 }

def setupGenesisBlock (net : NetParams Forks) (db : GenesisDB Forks)
    (genesis : Option (GenesisSpec Forks)) : GenesisSetup Forks :=
  if genesis.any (·.config.isNone) then ⟨net.allDebProtocolChanges, 0, some .noConfig, db⟩
  else match db.canonical with
    | none =>
      let g := genesis.getD net.defaultGenesisBlock
      ⟨net.configOf g, g.hash, none, db.commit g.hash (net.configOf g)⟩
    | some stored =>
      match genesis.filter (·.hash ≠ stored) with
      | some g => ⟨net.configOf g, g.hash, some (.mismatch stored g.hash), db⟩
      | none =>
        let newcfg := net.configOrDefault genesis stored
        let written : GenesisSetup Forks :=
          ⟨newcfg, stored, none, db.writeChainConfig stored newcfg⟩
        match db.config stored with
        | none => written
        | some storedcfg =>
          if genesis.isNone ∧ stored ≠ net.mainnetGenesisHash then ⟨storedcfg, stored, none, db⟩
          else match db.height with
            | none => ⟨newcfg, stored, some .missingHead, db⟩
            | some height =>
              match net.checkCompatible storedcfg newcfg height with
              | none => written
              | some rewindTo =>
                if height ≠ 0 ∧ rewindTo ≠ 0 then
                  ⟨newcfg, stored, some (.incompatible rewindTo), db⟩
                else written

theorem setupGenesisBlock_first (net : NetParams Forks) {db : GenesisDB Forks} (hash : Hash)
    (config : NodeConfig Forks) (fresh : db.canonical = none) :
    setupGenesisBlock net db (some ⟨hash, some config⟩) =
      ⟨config, hash, none, db.commit hash config⟩ := by
  simp [setupGenesisBlock, fresh, NetParams.configOf]

theorem setupGenesisBlock_restart (net : NetParams Forks) (db : GenesisDB Forks) {hash : Hash}
    (config : NodeConfig Forks) (custom : hash ≠ net.mainnetGenesisHash) :
    setupGenesisBlock net (db.commit hash config) none =
      ⟨config.reload, hash, none, db.commit hash config⟩ := by
  simp [setupGenesisBlock, GenesisDB.commit, GenesisDB.writeChainConfig, custom]

end Setup

section Outcome
variable (env : RewardEnv) (chainid : ChainId) (engineOtprn : Option Otprn) (state : StateDB)
  (txs : List Transaction) (header : Header)

/-- The header after the call: a development engine may have replaced its OTPRN. -/
def rewardHeader : Header :=
  if chainid = .generalId ∨ chainid = .sideId then header
  else { header with otprn := rewardOtprn chainid engineOtprn header }

/-- Everything the caller sees of `ChangeJoinNonceAndReword`; an error leaves the state
as it was. -/
def rewardOutcome : Except RewardError StateDB × Header :=
  (changeJoinNonceAndReword env chainid engineOtprn state txs header,
    rewardHeader chainid engineOtprn header)

end Outcome

theorem ChainId.eq_or_reloaded {c d : ChainId} (same : c.number = d.number) :
    c = d ∨ d = .loaded c.number ∧ c ≠ d ∨ c = .loaded d.number ∧ c ≠ d := by
  cases c <;> cases d <;> simp_all [ChainId.number]

theorem rewardOutcome_reloaded {c : ChainId} (built : c ≠ .loaded c.number) :
    ∃ env engineOtprn state txs header,
      rewardOutcome env c engineOtprn state txs header ≠
        rewardOutcome env (.loaded c.number) engineOtprn state txs header := by
  have paid : c = .generalId ∨ c = .sideId → ∃ env engineOtprn state txs header,
      rewardOutcome env c engineOtprn state txs header ≠
        rewardOutcome env (.loaded c.number) engineOtprn state txs header := by
    intro isTest
    refine ⟨sampleEnv, none, fun _ => none, [], sampleHeader, fun same => ?_⟩
    have states := congrArg Prod.fst same
    simp only [rewardOutcome, changeJoinNonceAndReword, isTest, if_true] at states
    have balances := congrArg (StateDB.getBalance · sampleHeader.coinbase) (Except.ok.inj states)
    rw [StateDB.getBalance_addBalance] at balances
    simp at balances
  cases c with
  | generalId => exact paid (.inl rfl)
  | sideId => exact paid (.inr rfl)
  | dvlpNetId =>
    -- an engine with the test fairnode's OTPRN rewrites the header
    refine ⟨sampleEnv, decodeOtprn testOtprnBytes, fun _ => none, [], sampleHeader, fun same => ?_⟩
    have headers := congrArg (Header.otprn ∘ Prod.snd) same
    exact absurd headers (by decide +kernel)
  | loaded id => exact absurd rfl built

/-- Two configurations of one chain number are rewarded alike exactly when they hold the
same variable of params, or neither holds one. -/
theorem rewardOutcome_agrees_iff {Forks : Type} (cfg₁ cfg₂ : NodeConfig Forks)
    (same : cfg₁.chainID.number = cfg₂.chainID.number) :
    (∀ env engineOtprn state txs header,
        rewardOutcome env cfg₁.chainID engineOtprn state txs header =
          rewardOutcome env cfg₂.chainID engineOtprn state txs header) ↔
      cfg₁.chainID = cfg₂.chainID := by
  constructor
  · intro agrees
    rcases ChainId.eq_or_reloaded same with equal | ⟨reloaded, differ⟩ | ⟨reloaded, differ⟩
    · exact equal
    · obtain ⟨env, engineOtprn, state, txs, header, apart⟩ :=
        rewardOutcome_reloaded (reloaded ▸ differ)
      exact absurd (reloaded ▸ agrees env engineOtprn state txs header) apart
    · obtain ⟨env, engineOtprn, state, txs, header, apart⟩ :=
        rewardOutcome_reloaded (reloaded ▸ differ.symm)
      exact absurd (reloaded ▸ (agrees env engineOtprn state txs header).symm) apart
  · intro equal env engineOtprn state txs header
    rw [equal]

def sampleNet : NetParams Unit where
  mainnetGenesisHash := 1
  testnetGenesisHash := 2
  mainnetForks := ()
  testnetForks := ()
  allDebForks := ()
  checkCompatible _ _ _ := none

/-- The identifier of the test network is compared with nothing, so it may be read back. -/
theorem sampleTestnet_agrees :
    sampleNet.testnetChainConfig.chainID.number = sampleNet.testnetChainConfig.reload.chainID.number ∧
      ∀ env engineOtprn state txs header,
        rewardOutcome env sampleNet.testnetChainConfig.chainID engineOtprn state txs header =
          rewardOutcome env sampleNet.testnetChainConfig.reload.chainID engineOtprn state txs header :=
  ⟨rfl, (rewardOutcome_agrees_iff sampleNet.testnetChainConfig sampleNet.testnetChainConfig.reload
    rfl).mpr rfl⟩

def sampleGeneral : GenesisSpec Unit := ⟨3, some ⟨.generalId, ()⟩⟩

def sampleFirstStart : GenesisSetup Unit :=
  setupGenesisBlock sampleNet ⟨none, fun _ => none, none⟩ (some sampleGeneral)

def sampleRestart : GenesisSetup Unit := setupGenesisBlock sampleNet sampleFirstStart.db none

/-- For an empty block the coinbase is paid two Daon before the restart and nothing after it. -/
theorem sampleRestart_stops_reward :
    sampleFirstStart.config.chainID.number = sampleRestart.config.chainID.number ∧
      sampleFirstStart.error = none ∧ sampleRestart.error = none ∧
      rewardOutcome sampleEnv sampleFirstStart.config.chainID none (fun _ => none) [] sampleHeader =
        (.ok (StateDB.addBalance (fun _ => none) sampleHeader.coinbase (2 * 10 ^ 18)), sampleHeader) ∧
      rewardOutcome sampleEnv sampleRestart.config.chainID none (fun _ => none) [] sampleHeader =
        (.ok fun _ => none, sampleHeader) := by
  have first : sampleFirstStart = _ := setupGenesisBlock_first sampleNet 3 ⟨.generalId, ()⟩ rfl
  have again : sampleRestart.config = NodeConfig.reload ⟨.generalId, ()⟩ ∧
      sampleRestart.error = none := by
    rw [sampleRestart, first, setupGenesisBlock_restart sampleNet _ _ (by decide)]
    exact ⟨rfl, rfl⟩
  rw [again.1, first]
  exact ⟨rfl, rfl, again.2, rfl, by simp [rewardOutcome, changeJoinNonceAndReword, rewardHeader,
    rewardOtprn, NodeConfig.reload, ChainId.number]⟩

end Anduschain
