import Anduschain.TxData
import Anduschain.WriteLog

/-! The L1 message sync service (rollup/sync_service) over the database accessors of
core/rawdb: what a recorded block number says about the stored messages, and where a restarted
service goes on. -/
namespace Anduschain.L1Sync
open ByteOrder Anduschain.Types GoCall WriteLog List

inductive Key where
  | syncedL1BlockNumber
  | highestSyncedQueueIndex
  | l1Message (queueIndex : UInt64)
  deriving DecidableEq

abbrev Database := Key → Option Bytes

abbrev Put := Key × Option Bytes

def writeSyncedL1BlockNumber (number : UInt64) : Put :=
  (.syncedL1BlockNumber, some (beBytes number.toNat))

/-- The error is the end of the process in `log.Crit`. -/
def readSyncedL1BlockNumber (db : Database) : GoCall String (Option UInt64) :=
  match db .syncedL1BlockNumber with
  | none => returns none
  | some data =>
    if data = [] then returns none
    else if 2 ^ 64 ≤ beNat data then fails "Unexpected synced L1 block number in database"
    else returns (some (UInt64.ofNat (beNat data)))

def messageBytes (message : L1MessageTx) : Bytes := RlpItem.encode (TxData.l1Message message).toItem

def writeL1Message (message : L1MessageTx) : List Put :=
  [(.l1Message message.queueIndex, some (messageBytes message)),
    (.highestSyncedQueueIndex, some (beBytes message.queueIndex.toNat))]

/-- The messages of each L1 block, under different queue indices, and what a query for a range
returns. -/
structure L1Chain where
  messages : UInt64 → List L1MessageTx
  fetch : UInt64 → UInt64 → List L1MessageTx
  fetched : ∀ first last m, m ∈ fetch first last ↔ ∃ n, first ≤ n ∧ n ≤ last ∧ m ∈ messages n
  distinct : ∀ n n' m m', m ∈ messages n → m' ∈ messages n' → m.queueIndex = m'.queueIndex → m = m'

inductive Turn where
  | cancelled
  | failed
  | answered

structure Progress where
  db : Database
  latestProcessedBlock : UInt64
  batch : List Put
  numBlocksPendingDbWrite : UInt64

def valueSize (batch : List Put) : ℕ := (batch.map fun put => (put.2.getD []).length).sum

def flush (p : Progress) (lastBlock : UInt64) : Progress where
  db := applyWrites (p.batch ++ [writeSyncedL1BlockNumber lastBlock]) p.db
  latestProcessedBlock := lastBlock
  batch := []
  numBlocksPendingDbWrite := 0

/-- The last block of a query; the addition may wrap. -/
def rangeEnd (latestConfirmed start : UInt64) : UInt64 :=
  if latestConfirmed < start + 99 then latestConfirmed else start + 99

section Service
variable (chain : L1Chain) (deployment : UInt64)

/-- The loop over ranges of 100 blocks, with `true` if it came to its end. -/
def fetchLoop (latestConfirmed : UInt64) : List Turn → UInt64 → Progress → Progress × Bool
  | [], _, p => (p, false)
  | turn :: turns, start, p =>
    if latestConfirmed < start then (p, true)
    else
      match turn with
      | .cancelled | .failed => (if 0 < start then flush p (start - 1) else p, true)
      | .answered =>
        let stop := rangeEnd latestConfirmed start
        let p := { p with
          batch := p.batch ++ (chain.fetch start stop).flatMap writeL1Message
          numBlocksPendingDbWrite := p.numBlocksPendingDbWrite + (stop - start) }
        let p := if stop = latestConfirmed ∨ 10 * 1024 ≤ valueSize p.batch ∨
          1000 ≤ p.numBlocksPendingDbWrite
          then flush p stop else p
        fetchLoop latestConfirmed turns (start + 100) p

def fetchMessages (db : Database) (latestProcessedBlock latestConfirmed : UInt64) (turns : List Turn) :
    Progress × Bool :=
  fetchLoop chain latestConfirmed turns (latestProcessedBlock + 1) ⟨db, latestProcessedBlock, [], 0⟩

def newSyncService (db : Database) : GoCall String UInt64 := do
  let block ← readSyncedL1BlockNumber db
  return block.getD deployment

/-- What comes up from an empty database: a run of `fetchMessages` that returns, or a process that
ends between two batches and starts again. -/
inductive Reached : Database → UInt64 → Prop
  | start {latest : UInt64} : newSyncService deployment (fun _ => none) = returns latest →
      Reached (fun _ => none) latest
  | fetch {db : Database} {latest : UInt64} (latestConfirmed : UInt64) (turns : List Turn) :
      Reached db latest → (fetchMessages chain db latest latestConfirmed turns).2 = true →
      Reached (fetchMessages chain db latest latestConfirmed turns).1.db
        (fetchMessages chain db latest latestConfirmed turns).1.latestProcessedBlock
  | restart {db : Database} {latest latest' : UInt64} (latestConfirmed : UInt64) (turns : List Turn) :
      Reached db latest →
      newSyncService deployment (fetchMessages chain db latest latestConfirmed turns).1.db =
        returns latest' →
      Reached (fetchMessages chain db latest latestConfirmed turns).1.db latest'

end Service

def Recorded (db : Database) (number : UInt64) : Prop :=
  db .syncedL1BlockNumber = some (beBytes number.toNat)

def Stored (db : Database) (message : L1MessageTx) : Prop :=
  db (.l1Message message.queueIndex) = some (messageBytes message)

def StoredBelow (chain : L1Chain) (deployment : UInt64) (db : Database) (bound : ℕ) : Prop :=
  ∀ n, deployment < n → n.toNat < bound → ∀ m ∈ chain.messages n, Stored db m

/-- What every database fulfils: the messages up to a recorded block are stored. -/
structure Complete (chain : L1Chain) (deployment : UInt64) (db : Database) : Prop where
  known : db .syncedL1BlockNumber = none ∨ ∃ number, Recorded db number
  stored : ∀ number, Recorded db number → StoredBelow chain deployment db (number.toNat + 1)

def Pending (chain : L1Chain) (batch : List Put) : Prop :=
  ∀ put ∈ batch, put.1 = .highestSyncedQueueIndex ∨
    ∃ n, ∃ m ∈ chain.messages n, put = (.l1Message m.queueIndex, some (messageBytes m))

section Invariants
variable {chain : L1Chain} {deployment : UInt64} {db : Database} {batch : List Put} {p : Progress}

theorem Stored.applyWrites {n : UInt64} {m : L1MessageTx} (stored : Stored db m)
    (listed : m ∈ chain.messages n)
    (pending : Pending chain batch) : Stored (applyWrites batch db) m := by
  refine applyWrites_value (.inr stored) fun put member same => ?_
  rcases pending put member with other | ⟨n', m', listed', rfl⟩
  · exact absurd (other.symm.trans same) nofun
  · rw [chain.distinct n' n m' m listed' listed (Key.l1Message.inj same)]

theorem pending_fetch (first last : UInt64) :
    Pending chain ((chain.fetch first last).flatMap writeL1Message) := by
  intro put member
  obtain ⟨m, found, put_eq⟩ := mem_flatMap.mp member
  obtain ⟨n, -, -, listed⟩ := (chain.fetched first last m).mp found
  rcases mem_cons.mp put_eq with rfl | last
  · exact .inr ⟨n, m, listed, rfl⟩
  · rw [mem_singleton.mp last]
    exact .inl rfl

variable {last latest : UInt64} {bound : ℕ}

theorem stored_fetch {first n : UInt64} {m : L1MessageTx} (lower : first ≤ n) (upper : n ≤ last)
    (listed : m ∈ chain.messages n) :
    Stored (applyWrites ((chain.fetch first last).flatMap writeL1Message) db) m := by
  have found : m ∈ chain.fetch first last := (chain.fetched first last m).mpr ⟨n, lower, upper, listed⟩
  refine applyWrites_value (.inl ⟨_, mem_flatMap.mpr ⟨m, found, mem_cons_self⟩, rfl⟩) ?_
  intro put member same
  rcases pending_fetch first last put member with other | ⟨n', m', listed', rfl⟩
  · exact absurd (other.symm.trans same) nofun
  · rw [chain.distinct n' n m' m listed' listed (Key.l1Message.inj same)]

/-- The database is complete, and with the pending writes it has everything below the next block
to ask for. -/
structure Fetching (chain : L1Chain) (deployment : UInt64) (start : ℕ) (p : Progress) : Prop where
  complete : Complete chain deployment p.db
  pending : Pending chain p.batch
  below : StoredBelow chain deployment (applyWrites p.batch p.db) start
  processed : StoredBelow chain deployment p.db (p.latestProcessedBlock.toNat + 1)

theorem StoredBelow.mono {bound' : ℕ} (stored : StoredBelow chain deployment db bound)
    (le : bound' ≤ bound) : StoredBelow chain deployment db bound' :=
  fun n after below => stored n after (Nat.lt_of_lt_of_le below le)

theorem Fetching.flush (fetching : Fetching chain deployment bound p)
    (covered : last.toNat + 1 ≤ bound) : Fetching chain deployment bound (flush p last) := by
  have below : StoredBelow chain deployment (L1Sync.flush p last).db bound := by
    intro n after lower m listed
    simp only [Stored, L1Sync.flush, applyWrites_append]
    refine (applyWrites_untouched ?_).trans (fetching.below n after lower m listed)
    exact forall_mem_singleton.mpr (by rintro ⟨⟩)
  have written : Recorded (L1Sync.flush p last).db last := by
    simp only [Recorded, L1Sync.flush, applyWrites_append]
    exact applyWrites_value (.inl ⟨_, mem_cons_self, rfl⟩) (forall_mem_singleton.mpr fun _ => rfl)
  refine ⟨⟨.inr ⟨last, written⟩, fun number recorded => ?_⟩, by rintro _ ⟨⟩, below, below.mono covered⟩
  obtain rfl : last = number :=
    UInt64.toNat_inj.mp (beBytes_inj (Option.some.inj (written.symm.trans recorded)))
  exact below.mono covered

theorem Fetching.answer {first count : UInt64} (fetching : Fetching chain deployment bound p)
    (reached : first.toNat ≤ bound) :
    Fetching chain deployment (max bound (last.toNat + 1)) { p with
      batch := p.batch ++ (chain.fetch first last).flatMap writeL1Message
      numBlocksPendingDbWrite := count } where
  complete := fetching.complete
  pending put member :=
    (mem_append.mp member).elim (fetching.pending put) (pending_fetch first last put)
  below := by
    intro n after lower m listed
    rw [applyWrites_append]
    by_cases old : n.toNat < bound
    · exact (fetching.below n after old m listed).applyWrites listed (pending_fetch first last)
    · exact stored_fetch (UInt64.le_iff_toNat_le.mpr (by omega))
        (UInt64.le_iff_toNat_le.mpr (by omega)) listed
  processed := fetching.processed

theorem fetchLoop_keeps {latestConfirmed start : UInt64} (turns : List Turn)
    (fetching : Fetching chain deployment bound p)
    (reached : ¬ latestConfirmed < start → start.toNat ≤ bound) :
    ∃ bound', Fetching chain deployment bound' (fetchLoop chain latestConfirmed turns start p).1 := by
  induction turns generalizing start p bound with
  | nil => exact ⟨bound, fetching⟩
  | cons turn turns ih =>
    unfold fetchLoop
    split
    · exact ⟨bound, fetching⟩
    · rename_i more
      have here := reached more
      have stopped : ∃ bound', Fetching chain deployment bound'
          (if 0 < start then L1Sync.flush p (start - 1) else p) := by
        split
        · rename_i positive
          have before : (start - 1).toNat + 1 = start.toNat := by
            have some : UInt64.toNat 1 ≤ start.toNat := UInt64.lt_iff_toNat_lt.mp positive
            rw [UInt64.toNat_sub_of_le _ _ (UInt64.le_iff_toNat_le.mpr some)]
            exact Nat.sub_add_cancel some
          exact ⟨bound, fetching.flush (before ▸ here)⟩
        · exact ⟨bound, fetching⟩
      cases turn with
      | cancelled => exact stopped
      | failed => exact stopped
      | answered =>
        refine ih (?_ : Fetching chain deployment
          (max bound ((rangeEnd latestConfirmed start).toNat + 1)) _) ?_
        · split
          · exact (fetching.answer here).flush (Nat.le_max_right _ _)
          · exact fetching.answer here
        · intro again
          rw [rangeEnd]
          rw [UInt64.not_lt, UInt64.le_iff_toNat_le, UInt64.toNat_add] at again
          split
          all_goals
            rename_i far
            rw [UInt64.lt_iff_toNat_lt, UInt64.toNat_add] at far
            have := start.toNat_lt
            simp only [UInt64.toNat_add, UInt64.reduceToNat] at again far ⊢
            omega

theorem newSyncService_recorded {number : UInt64} (recorded : Recorded db number) :
    newSyncService deployment db = returns (if number = 0 then deployment else number) := by
  rw [newSyncService, readSyncedL1BlockNumber, recorded]
  have bound : ¬ 2 ^ 64 ≤ number.toNat := Nat.not_le.mpr number.toNat_lt
  by_cases zero : number = 0
  · subst zero
    rfl
  · have some : beBytes number.toNat ≠ [] := fun empty => zero (UInt64.toNat_inj.mp (beBytes_inj empty))
    simp only [if_neg some, beNat_beBytes, if_neg bound, UInt64.ofNat_toNat, if_neg zero]
    rfl

theorem fetchMessages_keeps (latestConfirmed : UInt64) (turns : List Turn)
    (complete : Complete chain deployment db)
    (processed : StoredBelow chain deployment db (latest.toNat + 1)) :
    Complete chain deployment (fetchMessages chain db latest latestConfirmed turns).1.db ∧
      StoredBelow chain deployment (fetchMessages chain db latest latestConfirmed turns).1.db
        ((fetchMessages chain db latest latestConfirmed turns).1.latestProcessedBlock.toNat + 1) := by
  have fetching : Fetching chain deployment (latest.toNat + 1) ⟨db, latest, [], 0⟩ :=
    ⟨complete, nofun, processed, processed⟩
  have reached (_ : ¬ latestConfirmed < latest + 1) : (latest + 1).toNat ≤ latest.toNat + 1 := by
    rw [UInt64.toNat_add]
    exact Nat.mod_le _ _
  obtain ⟨bound, done⟩ := fetchLoop_keeps turns fetching reached
  exact ⟨done.complete, done.processed⟩

theorem storedBelow_deployment : StoredBelow chain deployment db (deployment.toNat + 1) := by
  intro n after below
  have := UInt64.lt_iff_toNat_lt.mp after
  omega

theorem newSyncService_processed (complete : Complete chain deployment db)
    (restarted : newSyncService deployment db = returns latest) :
    StoredBelow chain deployment db (latest.toNat + 1) := by
  rcases complete.known with none | ⟨number, recorded⟩
  · rw [newSyncService, readSyncedL1BlockNumber, none] at restarted
    cases restarted
    exact storedBelow_deployment
  · rw [newSyncService_recorded recorded] at restarted
    split at restarted
    · cases restarted
      exact storedBelow_deployment
    · cases restarted
      exact complete.stored _ recorded

theorem Reached.complete (reached : Reached chain deployment db latest) :
    Complete chain deployment db ∧ StoredBelow chain deployment db (latest.toNat + 1) := by
  induction reached with
  | start started =>
    have complete : Complete chain deployment fun _ => none := ⟨.inl rfl, nofun⟩
    exact ⟨complete, newSyncService_processed complete started⟩
  | fetch latestConfirmed turns _ _ ih => exact fetchMessages_keeps latestConfirmed turns ih.1 ih.2
  | restart latestConfirmed turns _ started ih =>
    have complete := (fetchMessages_keeps latestConfirmed turns ih.1 ih.2).1
    exact ⟨complete, newSyncService_processed complete started⟩

end Invariants

/-- A recorded block number vouches for all messages up to it. A service that starts over goes on
after the recorded block, unless that is block 0 and the deployment block is another. -/
theorem l1_sync_complete_iff (chain : L1Chain) (deployment : UInt64) (db : Database) (latest : UInt64)
    (reached : Reached chain deployment db latest) (number : UInt64) (recorded : Recorded db number) :
    (∀ n, deployment < n → n ≤ number → ∀ m ∈ chain.messages n, Stored db m) ∧
      (newSyncService deployment db = returns number ↔ (number = 0 → deployment = 0)) := by
  refine ⟨fun n after upto => reached.complete.1.stored number recorded n after ?_, ?_⟩
  · exact Nat.lt_succ_of_le (UInt64.le_iff_toNat_le.mp upto)
  · rw [newSyncService_recorded recorded, returns.injEq]
    split <;> simp_all

def sampleQuiet : L1Chain := ⟨fun _ => [], fun _ _ => [], by simp, nofun⟩

theorem sampleQuiet_resumes : ∃ db latest, Reached sampleQuiet 7 db latest ∧ Recorded db 9 ∧
    newSyncService 7 db = returns 9 := by
  have reached : Reached sampleQuiet 7 _ _ := .fetch 9 [.answered, .answered] (.start rfl) rfl
  have resumes := (l1_sync_complete_iff _ _ _ _ reached 9 rfl).2.mpr (by decide)
  exact ⟨_, _, reached, rfl, resumes⟩

/-- After the last block number the service asks for block 0 and records it, and then starts at
block 0 again. -/
theorem sampleQuiet_starts_over : ∃ db latest, Reached sampleQuiet 0xffffffffffffffff db latest ∧
    Recorded db 0 ∧ newSyncService 0xffffffffffffffff db = returns 0xffffffffffffffff ∧
    newSyncService 5 db = returns 5 := by
  have reached : Reached sampleQuiet 0xffffffffffffffff _ _ :=
    .fetch 0 [.answered, .answered] (.start rfl) rfl
  exact ⟨_, _, reached, rfl, rfl, rfl⟩

end Anduschain.L1Sync
