import Anduschain.BlockBody

/-! The block fetcher's body filter (eth/fetcher): bodies that arrive from a peer are
matched with the headers that await them, and the rest is handed on to the downloader. -/
namespace Anduschain
open ByteOrder List

structure Announce where
  number : UInt64
  origin : String
  deriving DecidableEq

structure Awaited extends Announce where
  header : Header
  deriving DecidableEq

structure Inject where
  origin : String
  block : Block

/-- The fetcher's maps; a counter that is deleted at zero reads as zero. -/
structure Fetcher where
  announces : String → ℤ
  announced : Hash → List Announce
  fetching : Hash → Option Announce
  fetched : Hash → List Awaited
  completing : List (Hash × Awaited)
  queues : String → ℤ
  queued : Hash → Option Inject

def blockLimit : ℤ := 64
def maxUncleDist : ℤ := 7
def maxQueueDist : ℤ := 32

/-- What the fetcher asks of its node. A `range` over a map has an order of its own each time;
`order` is told how many bodies are left. -/
structure FetchEnv where
  crypto : Crypto
  hasher : TrieHasher
  getBlock : Hash → Option Block
  chainHeight : UInt64
  order : ℕ → List (Hash × Awaited) → List (Hash × Awaited)
  order_perm : ∀ left entries, (order left entries).Perm entries

namespace Fetcher

def completingAt (f : Fetcher) (hash : Hash) : Option Awaited := f.completing.lookup hash

def forgetHash (f : Fetcher) (hash : Hash) : Fetcher :=
  let held := f.announced hash ++ (f.fetching hash).toList ++
    (f.fetched hash).map Awaited.toAnnounce ++ (f.completingAt hash).toList.map Awaited.toAnnounce
  { f with
    announces := fun peer => f.announces peer - held.countP (·.origin = peer)
    announced := fun h => if h = hash then [] else f.announced h
    fetching := fun h => if h = hash then none else f.fetching h
    fetched := fun h => if h = hash then [] else f.fetched h
    completing := f.completing.filter (·.1 ≠ hash) }

/-- `enqueue`; the distance to the chain's head is a difference of `int64` values. -/
def enqueue (env : FetchEnv) (f : Fetcher) (peer : String) (block : Block) : Fetcher :=
  let hash := block.hash env.crypto
  let count := f.queues peer + 1
  let dist := (block.numberU64.toInt64 - env.chainHeight.toInt64).toInt
  if blockLimit < count then f.forgetHash hash
  else if dist < -maxUncleDist ∨ maxQueueDist < dist then f.forgetHash hash
  else if (f.queued hash).isSome then f
  else { f with
    queues := fun p => if p = peer then count else f.queues p
    queued := fun h => if h = hash then some { origin := peer, block } else f.queued h }

end Fetcher

variable (env : FetchEnv)

def awaits (f : Fetcher) (peer : String) (txs : List Transaction)
    (entry : Hash × Awaited) : Bool :=
  (f.queued entry.1).isNone && txRoot env.hasher txs == entry.2.header.txHash &&
    entry.2.origin == peer

structure Matching where
  matched : Bool
  fetcher : Fetcher
  blocks : List Block

/-- One turn of the inner loop; `voters` is the read `task.voters[i]`, `none` if out of range. -/
def matchEntry (peer : String) (txs : List Transaction)
    (voters : Option (List Voter)) (acc : Matching) (entry : Hash × Awaited) : Option Matching :=
  if awaits env acc.fetcher peer txs entry then
    if (env.getBlock entry.1).isNone then do
      let voters ← voters
      return { acc with
        matched := true
        blocks := acc.blocks ++ [Block.withBody entry.2.header ⟨txs, voters⟩] }
    else some { acc with matched := true, fetcher := acc.fetcher.forgetHash entry.1 }
  else some acc

def matchBody (peer : String) (left : ℕ) (txs : List Transaction)
    (voters : Option (List Voter)) (f : Fetcher) (blocks : List Block) : Option Matching :=
  (env.order left f.completing).foldlM (matchEntry env peer txs voters)
    { matched := false, fetcher := f, blocks }

structure Filtered where
  transactions : List (List Transaction)
  voters : List (List Voter)
  blocks : List Block
  fetcher : Fetcher

/-- The loop over `task.transactions`, split at the index `i`. A match takes transactions out of
their list and leaves `task.voters`. -/
def filterLoop (env : FetchEnv) (peer : String) (voters : List (List Voter)) :
    List (List Transaction) → List (List Transaction) → Fetcher → List Block → Option Filtered
  | kept, [], f, blocks => some { transactions := kept, voters, blocks, fetcher := f }
  | kept, txs :: rest, f, blocks => do
      let found ← matchBody env peer rest.length txs voters[kept.length]? f blocks
      let kept := if found.matched then kept else kept ++ [txs]
      filterLoop env peer voters kept rest found.fetcher found.blocks

def schedule (f : Fetcher) (blocks : List Block) : Fetcher :=
  blocks.foldl (fun f block =>
    match f.completingAt (block.hash env.crypto) with
    | some announce => f.enqueue env announce.origin block
    | none => f) f

def filterBodies (peer : String) (batch : List Body) (f : Fetcher) :
    Option Filtered := do
  let filtered ← filterLoop env peer (batch.map Body.voters) [] (batch.map Body.transactions) f []
  return { filtered with fetcher := schedule env filtered.fetcher filtered.blocks }

def unmatchedBodies (env : FetchEnv) (peer : String) : List Body → Fetcher → List Body
  | [], _ => []
  | body :: rest, f =>
    match matchBody env peer rest.length body.transactions (some body.voters) f [] with
    | some found =>
      if found.matched then unmatchedBodies env peer rest found.fetcher
      else body :: unmatchedBodies env peer rest found.fetcher
    | none => body :: unmatchedBodies env peer rest f

structure KeepsTogether (batch unmatched : List Body) (filtered : Filtered) : Prop where
  paired : ∀ block ∈ filtered.blocks, block.body ∈ batch
  aligned : filtered.transactions.length = filtered.voters.length
  handed : filtered.transactions.zip filtered.voters =
    unmatched.map fun body => (body.transactions, body.voters)

section Matches
variable {env : FetchEnv} {peer : String} {txs : List Transaction} {f : Fetcher}

@[simp] theorem awaits_forgetHash (hash : Hash) (entry : Hash × Awaited) :
    awaits env (f.forgetHash hash) peer txs entry = awaits env f peer txs entry := rfl

variable {voters : Option (List Voter)} {acc : Matching} {acc' : Matching}
  {entries : List (Hash × Awaited)}

theorem matchEntry_matched
    {entry : Hash × Awaited} (turn : matchEntry env peer txs voters acc entry = some acc') :
    acc'.matched = (acc.matched || awaits env acc.fetcher peer txs entry) ∧
      ∀ e, awaits env acc'.fetcher peer txs e = awaits env acc.fetcher peer txs e := by
  unfold matchEntry at turn
  by_cases waiting : awaits env acc.fetcher peer txs entry
  · rw [if_pos waiting] at turn
    split at turn
    · simp only [Option.bind_eq_bind, Option.bind_eq_some_iff] at turn
      obtain ⟨_, _, assembled⟩ := turn
      obtain rfl := Option.some.inj assembled
      simp [waiting]
    · obtain rfl := Option.some.inj turn
      simp [waiting]
  · rw [if_neg waiting] at turn
    obtain rfl := Option.some.inj turn
    simp [waiting]

theorem matchEntries_matched
    (run : entries.foldlM (matchEntry env peer txs voters) acc = some acc') :
    acc'.matched = (acc.matched || entries.any (awaits env acc.fetcher peer txs)) := by
  induction entries generalizing acc with
  | nil =>
    obtain rfl : acc = acc' := by simpa using run
    simp
  | cons entry entries ih =>
    simp only [foldlM_cons, Option.bind_eq_bind, Option.bind_eq_some_iff] at run
    obtain ⟨next, turn, run⟩ := run
    obtain ⟨matched, same⟩ := matchEntry_matched turn
    rw [ih run, matched, any_cons, Bool.or_assoc, funext same]

theorem matchEntries_total (voters : List Voter) (entries : List (Hash × Awaited)) (acc : Matching) :
    ∃ acc', entries.foldlM (matchEntry env peer txs (some voters)) acc = some acc' := by
  induction entries generalizing acc with
  | nil => exact ⟨acc, rfl⟩
  | cons entry entries ih =>
    have turn : ∃ next, matchEntry env peer txs (some voters) acc entry = some next := by
      unfold matchEntry
      split
      · split
        · exact ⟨_, rfl⟩
        · exact ⟨_, rfl⟩
      · exact ⟨_, rfl⟩
    obtain ⟨next, turn⟩ := turn
    obtain ⟨acc', run⟩ := ih next
    exact ⟨acc', by rw [foldlM_cons, turn]; exact run⟩

theorem matchEntries_idle
    (idle : ∀ entry ∈ entries, awaits env acc.fetcher peer txs entry = false) :
    entries.foldlM (matchEntry env peer txs voters) acc = some acc := by
  induction entries with
  | nil => rfl
  | cons entry entries ih =>
    have turn : matchEntry env peer txs voters acc entry = some acc := by
      rw [matchEntry, if_neg (by simp [idle entry])]
    rw [foldlM_cons, turn]
    exact ih fun e member => idle e (mem_cons_of_mem _ member)

variable {left : ℕ} {blocks : List Block}

theorem matchBody_matched {found : Matching}
    (run : matchBody env peer left txs voters f blocks = some found) :
    found.matched = f.completing.any (awaits env f peer txs) := by
  rw [matchEntries_matched run, Bool.false_or]
  exact (env.order_perm left f.completing).any_eq

theorem matchBody_idle (idle : ∀ entry ∈ f.completing, awaits env f peer txs entry = false) :
    matchBody env peer left txs voters f blocks =
      some { matched := false, fetcher := f, blocks } :=
  matchEntries_idle fun entry member => idle entry ((env.order_perm left _).mem_iff.mp member)

end Matches

section Loop
variable {env : FetchEnv} {peer : String} {voters : List (List Voter)}
  {kept rest : List (List Transaction)} {f : Fetcher} {blocks : List Block}

theorem filterLoop_length
    {filtered : Filtered} (run : filterLoop env peer voters kept rest f blocks = some filtered) :
    filtered.voters = voters ∧ filtered.transactions.length ≤ kept.length + rest.length := by
  induction rest generalizing kept f blocks with
  | nil =>
    obtain rfl := Option.some.inj run
    exact ⟨rfl, by simp⟩
  | cons txs rest ih =>
    simp only [filterLoop, Option.bind_eq_bind, Option.bind_eq_some_iff] at run
    obtain ⟨found, -, run⟩ := run
    obtain ⟨same, bound⟩ := ih run
    refine ⟨same, bound.trans ?_⟩
    split
    · simp
    · simp
      omega

theorem filterLoop_shorter
    {filtered : Filtered} (run : filterLoop env peer voters kept rest f blocks = some filtered)
    (hit : ∃ txs ∈ rest, ∃ entry ∈ f.completing, awaits env f peer txs entry = true) :
    filtered.transactions.length < kept.length + rest.length := by
  induction rest generalizing kept f blocks with
  | nil => simp at hit
  | cons txs rest ih =>
    simp only [filterLoop, Option.bind_eq_bind, Option.bind_eq_some_iff] at run
    obtain ⟨found, body, run⟩ := run
    have matched := matchBody_matched body
    by_cases first : ∃ entry ∈ f.completing, awaits env f peer txs entry = true
    · rw [any_eq_true.mpr first] at matched
      rw [if_pos matched] at run
      have bound := (filterLoop_length run).2
      simp only [length_cons]
      omega
    · -- nothing was forgotten, so the later match is still there
      have idle : ∀ entry ∈ f.completing, awaits env f peer txs entry = false := by
        simpa using first
      rw [matchBody_idle idle] at body
      obtain rfl := Option.some.inj body
      obtain ⟨later, member, awaited⟩ := hit
      have inRest : later ∈ rest := by
        rcases mem_cons.mp member with rfl | inRest
        · exact absurd awaited first
        · exact inRest
      have bound := ih run ⟨later, inRest, awaited⟩
      simp at bound ⊢
      omega

theorem filterLoop_returns (f : Fetcher) (blocks : List Block)
    (room : kept.length + rest.length ≤ voters.length) :
    ∃ filtered, filterLoop env peer voters kept rest f blocks = some filtered := by
  induction rest generalizing kept f blocks with
  | nil => exact ⟨_, rfl⟩
  | cons txs rest ih =>
    simp only [length_cons] at room
    have inRange : kept.length < voters.length := by omega
    obtain ⟨found, body⟩ : ∃ found, (env.order rest.length f.completing).foldlM
        (matchEntry env peer txs (some voters[kept.length]))
        { matched := false, fetcher := f, blocks } = some found := matchEntries_total ..
    have fits : (if found.matched then kept else kept ++ [txs]).length + rest.length ≤
        voters.length := by
      split
      · omega
      · simp
        omega
    obtain ⟨filtered, run⟩ := ih found.fetcher found.blocks fits
    refine ⟨filtered, ?_⟩
    rw [filterLoop, matchBody, getElem?_eq_getElem inRange, body]
    exact run

theorem filterLoop_idle
    (idle : ∀ txs ∈ rest, ∀ entry ∈ f.completing, awaits env f peer txs entry = false) :
    filterLoop env peer voters kept rest f blocks =
      some { transactions := kept ++ rest, voters, blocks, fetcher := f } := by
  induction rest generalizing kept with
  | nil => rw [filterLoop, append_nil]
  | cons txs rest ih =>
    have later : ∀ txs ∈ rest, ∀ entry ∈ f.completing, awaits env f peer txs entry = false :=
      fun t member => idle t (mem_cons_of_mem _ member)
    simp [filterLoop, matchBody_idle (idle txs mem_cons_self), ih later]

theorem unmatchedBodies_idle {batch : List Body} (idle : ∀ body ∈ batch, ∀ entry ∈ f.completing,
      awaits env f peer body.transactions entry = false) :
    unmatchedBodies env peer batch f = batch := by
  induction batch with
  | nil => rfl
  | cons body rest ih =>
    have later := ih fun b member => idle b (mem_cons_of_mem _ member)
    simp [unmatchedBodies, matchBody_idle (idle body mem_cons_self), later]

end Loop

/-- The filter always returns, and keeps bodies together exactly when it has nothing to do:
when no header that its state awaits matches a body of the batch. -/
theorem filterBodies_keepsTogether_iff (env : FetchEnv) (peer : String) (batch : List Body)
    (f : Fetcher) :
    ∃ filtered, filterBodies env peer batch f = some filtered ∧
      (KeepsTogether batch (unmatchedBodies env peer batch f) filtered ↔
        ∀ body ∈ batch, ∀ entry ∈ f.completing,
          awaits env f peer body.transactions entry = false) := by
  obtain ⟨inner, run⟩ : ∃ inner, filterLoop env peer (batch.map Body.voters) []
      (batch.map Body.transactions) f [] = some inner := filterLoop_returns f [] (by simp)
  refine ⟨{ inner with fetcher := schedule env inner.fetcher inner.blocks },
    by rw [filterBodies, run]; rfl, ?_⟩
  constructor
  · rintro together body member entry waiting
    have aligned : inner.transactions.length = inner.voters.length := together.aligned
    rw [(filterLoop_length run).1, length_map] at aligned
    by_contra awaited
    have hit : ∃ txs ∈ batch.map Body.transactions, ∃ entry ∈ f.completing,
        awaits env f peer txs entry = true :=
      ⟨_, mem_map_of_mem member, entry, waiting, by simpa using awaited⟩
    have shorter := filterLoop_shorter run hit
    simp only [length_nil, length_map] at shorter
    omega
  · intro idle
    rw [filterLoop_idle (by simpa using idle)] at run
    obtain rfl := Option.some.inj run
    refine ⟨by simp, by simp, ?_⟩
    rw [unmatchedBodies_idle idle]
    exact zip_map' ..

def bodyTx (nonce : UInt64) : Transaction := { plainTransfer 0 0 0 with accountNonce := nonce }

def bodyVoter (voter : Address) : Voter := { header := [], voter, voteSign := [] }

def sampleBodies : List Body :=
  [⟨[bodyTx 1], [bodyVoter 1]⟩, ⟨[bodyTx 2], [bodyVoter 2]⟩]

def sampleFetchEnv : FetchEnv where
  crypto := sampleCrypto
  hasher := sampleHasher
  getBlock _ := none
  chainHeight := 0
  order _ entries := entries
  order_perm _ entries := List.Perm.refl entries

def sampleFetcher (origin : String) : Fetcher where
  announces _ := 2
  announced _ := []
  fetching _ := none
  fetched _ := []
  completing := sampleBodies.map fun body =>
    let header := { sampleHeader with number := 1, txHash := txRoot sampleHasher body.transactions }
    (header.hash sampleCrypto, { number := 1, origin, header })
  queues _ := 0
  queued _ := none

/-- Both bodies match: the second transaction is joined with the first voter, and the
downloader gets two voter lists with no transactions. -/
theorem sampleFetcher_mixes_bodies :
    (filterBodies sampleFetchEnv "p" sampleBodies (sampleFetcher "p")).map
        (fun filtered => (filtered.blocks.map Block.body, filtered.transactions, filtered.voters)) =
      some ([⟨[bodyTx 1], [bodyVoter 1]⟩, ⟨[bodyTx 2], [bodyVoter 1]⟩], [],
        [[bodyVoter 1], [bodyVoter 2]]) := by
  decide +kernel

end Anduschain
