import Anduschain.RecentSigners
import Anduschain.SseSealer

/-! `snapshot` of consensus/layer2: the search back to a snapshot in memory, on disk or of a
trusted checkpoint, and the headers applied on top of it. Whatever the two stores hold after
any calls, the signers, votes and tally are those of all headers applied to the genesis block. -/
namespace Anduschain
open ByteOrder CheckedSteps List

def checkpointInterval : UInt64 := 1024

def fullImmutabilityThreshold : ℕ := 90000

structure HeaderReader extends ChainReader where
  getHeaderByNumber : UInt64 → Option Header

structure SnapshotStore where
  recents : Hash → Option VotingSnapshot
  disk : Hash → Option VotingSnapshot

def SnapshotStore.store (kept : SnapshotStore) (snap : VotingSnapshot) : SnapshotStore :=
  { kept with disk := Function.update kept.disk snap.hash (some snap) }

def SnapshotStore.remember (kept : SnapshotStore) (snap : VotingSnapshot) : SnapshotStore :=
  { kept with recents := Function.update kept.recents snap.hash (some snap) }

def readSigners : ℕ → Bytes → List Address
  | 0, _ => []
  | n + 1, b => BitVec.ofNat 160 (beNat (b.take addressLength)) :: readSigners n (b.drop addressLength)

def checkpointSigners (extra : Bytes) : List Address :=
  readSigners ((extra.length - extraVanity - extraSeal) / addressLength) (extra.drop extraVanity)

namespace Poa
variable (crypto : Crypto) (c : Poa) (chain : HeaderReader)

/-- The genesis block, or a checkpoint without a parent or below too many headers. -/
def trusted (number : UInt64) (gathered : ℕ) : Option Header :=
  if number = 0 ∨ number % c.epoch = 0 ∧
      (fullImmutabilityThreshold < gathered ∨ (chain.getHeaderByNumber (number - 1)).isNone) then
    chain.getHeaderByNumber number
  else none

def gather (number : UInt64) (hash : Hash) (parents : List Header) :
    Except PoaError (Header × List Header) :=
  match parents.getLast? with
  | some header =>
    if header.hash crypto ≠ hash ∨ UInt64.ofNat header.number ≠ number then .error .unknownAncestor
    else .ok (header, parents.dropLast)
  | none =>
    match chain.getHeader hash number.toNat with
    | some header => .ok (header, [])
    | none => .error .unknownAncestor

/-- The loop of `snapshot`; the headers are gathered in the order in which they are applied. -/
def search (kept : SnapshotStore) : ℕ → UInt64 → Hash → List Header → List Header →
    Except PoaError (VotingSnapshot × List Header × SnapshotStore)
  | 0, _, _, _, _ => .error .unknownBlock
  | fuel + 1, number, hash, parents, headers =>
    match (kept.recents hash).or (if number % checkpointInterval = 0 then kept.disk hash else none) with
    | some snap => .ok (snap, headers, kept)
    | none =>
      match c.trusted chain number headers.length with
      | some checkpoint =>
        let snap := newSnapshot number (checkpoint.hash crypto) (checkpointSigners checkpoint.extra)
        .ok (snap, headers, kept.store snap)
      | none => do
          let next ← gather crypto chain number hash parents
          search kept fuel (number - 1) next.1.parentHash next.2 (next.1 :: headers)

def findSnapshot (kept : SnapshotStore) (fuel : ℕ) (number : UInt64) (hash : Hash)
    (parents : List Header) : Except PoaError VotingSnapshot × SnapshotStore :=
  match c.search crypto chain kept fuel number hash parents [] with
  | .error e => (.error e, kept)
  | .ok (found, headers, kept) =>
    match c.apply crypto found headers with
    | .error e => (.error e, kept)
    | .ok snap =>
      let kept := kept.remember snap
      (.ok snap, if snap.number % checkpointInterval = 0 ∧ headers ≠ [] then kept.store snap else kept)

end Poa

section Bare
variable {crypto : Crypto} {c : Poa}

/-- A poll without its recent signers, which layer2 does not look at. -/
def Poll.bare (s : Poll) : Poll := { s with recents := [] }

namespace Poll
variable (s : Poll)

theorem bare_expire (epoch number : UInt64) : (s.expire epoch number).bare = s.bare.expire epoch number := by
  unfold expire
  split <;> rfl

theorem bare_forget (number : UInt64) : (s.forget number).bare = s.bare := by
  simp only [forget]
  split <;> rfl

theorem bare_withdraw (signer address : Address) :
    (s.withdraw signer address).bare = s.bare.withdraw signer address := by
  have votes : s.bare.votes = s.votes := rfl
  unfold withdraw
  rw [votes]
  cases s.votes.find? _ <;> rfl

theorem bare_cast (number : UInt64) (signer address : Address) (authorize : Bool) :
    (s.cast number signer address authorize).bare = s.bare.cast number signer address authorize := by
  unfold cast
  rw [show s.bare.toSnapshot.validVote address authorize = s.validVote address authorize from rfl]
  split <;> rfl

theorem bare_settle (number : UInt64) (address : Address) :
    (s.settle number address).bare = (s.bare.settle number address).bare := by
  have shrunk : ((((s.dropSigner address).forget number).silence address).close address).bare =
      ((((s.bare.dropSigner address).forget number).silence address).close address).bare := by
    have plain (t : Poll) : ((t.silence address).close address).bare =
        ((t.bare.silence address).close address).bare := rfl
    rw [plain, plain ((s.bare.dropSigner address).forget number), bare_forget, bare_forget]
    rfl
  have tallies : s.bare.tally = s.tally := rfl
  unfold settle
  rw [tallies]
  cases s.tally address with
  | none => rfl
  | some tally =>
    dsimp only
    rw [show s.bare.signers = s.signers from rfl]
    split
    · split
      · rfl
      · exact shrunk
    · rfl

end Poll

variable {s : Poll} {headers : List Header} {known : List Address} {t p : Poll} {header : Header}
  {signers : List Address}

theorem Poll.bare_ext (signers : s.signers = t.signers) (votes : s.votes = t.votes)
    (tally : s.tally = t.tally) : s.bare = t.bare := by
  rcases s with ⟨⟨_, _⟩, _, _, _⟩
  rcases t with ⟨⟨_, _⟩, _, _, _⟩
  cases signers
  cases votes
  cases tally
  rfl

theorem Poa.applyHeader_voted (applied : c.applyHeader crypto s header = .ok p) : ∃ signer,
      c.ecrecover crypto header = .ok signer ∧ signer ∈ s.signers ∧
      (header.nonce = nonceAuthVote ∨ header.nonce = nonceDropVote) ∧
      p.bare = ((((s.bare.expire c.epoch (UInt64.ofNat header.number)).withdraw signer header.coinbase).cast
        (UInt64.ofNat header.number) signer header.coinbase (header.nonce = nonceAuthVote)).settle
          (UInt64.ofNat header.number) header.coinbase).bare := by
  obtain ⟨voted, counted, rfl⟩ := applyHeader_ok_iff.mp applied
  obtain ⟨signer, recovered, authorized, -, nonce, rfl⟩ := ballot_ok_iff.mp counted
  refine ⟨signer, recovered, authorized, nonce, ?_⟩
  have plain (u : Poll) (number : UInt64) : (u.remember number signer).bare = u.bare := rfl
  rw [Poll.bare_settle, Poll.bare_cast, Poll.bare_withdraw, plain, Poll.bare_forget, Poll.bare_expire]

theorem Poa.applyHeader_bare (unspaced : c.rule.spaced = false)
    (same : s.bare = t.bare) (applied : c.applyHeader crypto s header = .ok p) :
    ∃ q, c.applyHeader crypto t header = .ok q ∧ p.bare = q.bare := by
  obtain ⟨signer, recovered, authorized, nonce, after⟩ := applyHeader_voted applied
  have signers : s.bare.signers = t.bare.signers := by rw [same]
  have stepped : c.applyHeader crypto t header = .ok _ :=
    applyHeader_ok_iff.mpr ⟨_, ballot_ok_iff.mpr ⟨signer, recovered, signers ▸ authorized,
      by simp [unspaced], nonce, rfl⟩, rfl⟩
  obtain ⟨signer', recovered', -, -, after'⟩ := applyHeader_voted stepped
  obtain rfl := Except.ok.inj (recovered.symm.trans recovered')
  exact ⟨_, stepped, by rw [after, after', same]⟩

theorem Poa.apply_bare (unspaced : c.rule.spaced = false) {s t p : VotingSnapshot}
    (same : s.bare = t.bare) (number : s.number = t.number) (applied : c.apply crypto s headers = .ok p) :
    ∃ q, c.apply crypto t headers = .ok q ∧ p.bare = q.bare := by
  induction headers generalizing s t with
  | nil =>
    cases applied
    exact ⟨t, rfl, same⟩
  | cons header rest ih =>
    obtain ⟨m, first, others⟩ := apply_cons.mp applied
    obtain ⟨next, poll, stepped, rfl⟩ := apply_one.mp first
    obtain ⟨poll', stepped', alike⟩ := applyHeader_bare unspaced same stepped
    rw [number] at next
    have here := apply_one.mpr ⟨next, poll', stepped', rfl⟩
    obtain ⟨q, applied', alike⟩ := ih
      (t := { poll' with number := t.number + 1, hash := header.hash crypto }) alike
      (congrArg (· + 1) number) others
    exact ⟨q, apply_cons.mpr ⟨_, here, applied'⟩, alike⟩

theorem Poa.apply_recovers {sigcache : Hash → Option Address}
    (recovers : ∀ header ∈ headers, { c with sigcache }.ecrecover crypto header = c.ecrecover crypto header)
    (s : VotingSnapshot) : { c with sigcache }.apply crypto s headers = c.apply crypto s headers := by
  have steps (poll : Poll) : headers.foldlM ({ c with sigcache }.applyHeader crypto) poll =
      headers.foldlM (c.applyHeader crypto) poll := by
    induction headers generalizing poll with
    | nil => rfl
    | cons header rest ih =>
      obtain ⟨here, later⟩ := forall_mem_cons.mp recovers
      have one (poll : Poll) : { c with sigcache }.applyHeader crypto poll header =
          c.applyHeader crypto poll header := by
        simp only [applyHeader, ballot, here]
      rw [foldlM_cons, foldlM_cons, one]
      exact congrArg _ (funext fun poll => ih later poll)
  simp only [apply, steps]

theorem sorted_addSigner (sorted : signers.Pairwise (· ≤ ·)) (address : Address) :
    (addSigner signers address).Pairwise (· ≤ ·) := by
  unfold addSigner
  split
  · exact sorted
  · exact sorted.orderedInsert _ _

theorem sorted_foldl_addSigner (sorted : known.Pairwise (· ≤ ·))
    (signers : List Address) : (signers.foldl addSigner known).Pairwise (· ≤ ·) := by
  induction signers generalizing known with
  | nil => exact sorted
  | cons signer rest ih => exact ih (sorted_addSigner sorted signer)

theorem Poa.apply_sorted {s t : VotingSnapshot}
    (sorted : s.signers.Pairwise (· ≤ ·)) (applied : c.apply crypto s headers = .ok t) :
    t.signers.Pairwise (· ≤ ·) := by
  induction headers generalizing s with
  | nil =>
    cases applied
    exact sorted
  | cons header rest ih =>
    obtain ⟨m, first, others⟩ := apply_cons.mp applied
    obtain ⟨-, poll, stepped, rfl⟩ := apply_one.mp first
    refine ih ?_ others
    obtain ⟨voted, counted, rfl⟩ := applyHeader_ok_iff.mp stepped
    obtain ⟨signer, -, -, -, -, rfl⟩ := ballot_ok_iff.mp counted
    generalize made : Poll.cast _ _ _ _ _ = voted
    have same : voted.signers = s.signers := by
      rw [← made]
      simp [Poll.remember]
    rcases settle_changes voted (UInt64.ofNat header.number) header.coinbase with kept | ⟨kept, -⟩ | ⟨kept, -⟩
    · rw [kept, same]
      exact sorted
    · rw [kept, same]
      exact sorted_addSigner sorted _
    · rw [kept, same]
      exact sorted.sublist erase_sublist

theorem orderedInsert_last {signer : Address} (below : ∀ b ∈ known, ¬signer ≤ b) :
    known.orderedInsert (· ≤ ·) signer = known ++ [signer] := by
  induction known with
  | nil => rfl
  | cons b known ih =>
    obtain ⟨here, later⟩ := forall_mem_cons.mp below
    rw [orderedInsert_of_not_le _ _ here, ih later, cons_append]

theorem foldl_addSigner_sorted {rest : List Address} (sorted : (known ++ rest).Pairwise (· < ·)) :
    rest.foldl addSigner known = known ++ rest := by
  induction rest generalizing known with
  | nil => rw [foldl_nil, append_nil]
  | cons signer rest ih =>
    have below (b : Address) (member : b ∈ known) : ¬signer ≤ b :=
      BitVec.not_le.mpr ((pairwise_append.mp sorted).2.2 b member signer mem_cons_self)
    have last : addSigner known signer = known ++ [signer] := by
      rw [addSigner, if_neg fun member => below signer member (BitVec.le_refl signer),
        orderedInsert_last below]
    rw [foldl_cons, last, ih (by rwa [append_assoc]), append_assoc]
    rfl

theorem readSigners_flatMap (signers : List Address) (rest : Bytes) :
    readSigners signers.length (signers.flatMap addressBytes ++ rest) = signers := by
  induction signers with
  | nil => rfl
  | cons signer signers ih =>
    have len : (addressBytes signer).length = addressLength := beFixed_length _ _
    rw [length_cons, readSigners, flatMap_cons, append_assoc, take_left' len,
      drop_left' len, ih, addressBytes, beNat_beFixed_of_lt signer.isLt, BitVec.ofNat_toNat,
      BitVec.setWidth_eq]

theorem checkpointSigners_eq {extra : Bytes}
    (listed : (extra.take (extra.length - extraSeal)).drop extraVanity = signers.flatMap addressBytes) :
    checkpointSigners extra = signers := by
  have len := congrArg List.length listed
  rw [length_flatMap_addressBytes, length_drop, length_take] at len
  have count : (extra.length - extraVanity - extraSeal) / addressLength = signers.length := by
    refine Nat.div_eq_of_eq_mul_left (by decide) ?_
    omega
  rw [checkpointSigners, count]
  rw [drop_take] at listed
  rw [← take_append_drop (extra.length - extraSeal - extraVanity) (extra.drop extraVanity), listed]
  exact readSigners_flatMap _ _

end Bare

def tip (genesis : Header) (pre : List Header) : Header := pre.getLast?.getD genesis

def genesisSnapshot (crypto : Crypto) (genesis : Header) : VotingSnapshot :=
  newSnapshot 0 (genesis.hash crypto) (checkpointSigners genesis.extra)

/-- Linked, with a hash for each block, every header applicable, and checkpoints as `verifyHeader`
wants them. That the zero address seals nothing is its check of the difficulty, where the coinbase
has a key. -/
structure ValidChain (crypto : Crypto) (c : Poa) (genesis : Header) (headers : List Header) : Prop where
  unspaced : c.rule.spaced = false
  bounded : headers.length < 2 ^ 64
  linked : ∀ pre header, pre ++ [header] <+: headers → header.parentHash = (tip genesis pre).hash crypto
  distinct : ∀ pre pre', pre <+: headers → pre' <+: headers →
    (tip genesis pre).hash crypto = (tip genesis pre').hash crypto → pre = pre'
  applied : ∃ s, c.apply crypto (genesisSnapshot crypto genesis) headers = .ok s
  checkpoints : ∀ pre header s, pre ++ [header] <+: headers →
    c.apply crypto (genesisSnapshot crypto genesis) pre = .ok s → UInt64.ofNat header.number % c.epoch = 0 →
      header.coinbase = 0 ∧ header.nonce = nonceDropVote ∧ 0 ∉ s.signers ∧
        (header.extra.take (header.extra.length - extraSeal)).drop extraVanity = s.signers.flatMap addressBytes

structure ReadsChain (crypto : Crypto) (genesis : Header) (headers : List Header) (chain : HeaderReader) :
    Prop where
  start : chain.getHeaderByNumber 0 = some genesis
  byNumber : ∀ pre, pre <+: headers → ∀ header,
    chain.getHeaderByNumber (UInt64.ofNat pre.length) = some header → header = tip genesis pre
  byHash : ∀ pre header, pre ++ [header] <+: headers → ∀ found,
    chain.getHeader (header.hash crypto) (pre.length + 1) = some found → found = header

/-- What the stores may hold: calls for blocks of the chain, with any headers as parents and any
signatures remembered, and entries dropped at any time. -/
inductive Filled (crypto : Crypto) (c : Poa) (genesis : Header) (headers : List Header) : SnapshotStore → Prop
  | empty : Filled crypto c genesis headers ⟨fun _ => none, fun _ => none⟩
  | call {kept : SnapshotStore} {chain : HeaderReader} {sigcache : Hash → Option Address}
      {pre parents : List Header} (fuel : ℕ) : Filled crypto c genesis headers kept →
      ReadsChain crypto genesis headers chain →
      (∀ header ∈ headers, { c with sigcache }.ecrecover crypto header = c.ecrecover crypto header) →
      pre <+: headers → (∀ parent ∈ parents, parent ∈ headers) →
      Filled crypto c genesis headers ({ c with sigcache }.findSnapshot crypto chain kept fuel
        (UInt64.ofNat pre.length) ((tip genesis pre).hash crypto) parents).2
  | evict {kept : SnapshotStore} {recents : Hash → Option VotingSnapshot} :
      Filled crypto c genesis headers kept →
      (∀ hash s, recents hash = some s → kept.recents hash = some s) →
      Filled crypto c genesis headers { kept with recents }

section Chain
variable {crypto : Crypto} {c : Poa} {genesis : Header} {headers : List Header} {chain : HeaderReader}
  {kept : SnapshotStore} {pre : List Header} {s : VotingSnapshot}

def Right (crypto : Crypto) (c : Poa) (genesis : Header) (pre : List Header) (s : VotingSnapshot) : Prop :=
  s.number = UInt64.ofNat pre.length ∧ s.hash = (tip genesis pre).hash crypto ∧
    ∃ t, c.apply crypto (genesisSnapshot crypto genesis) pre = .ok t ∧ s.bare = t.bare

def Trusty (crypto : Crypto) (c : Poa) (genesis : Header) (headers : List Header) (kept : SnapshotStore) :
    Prop :=
  ∀ pre, pre <+: headers → ∀ s, kept.recents ((tip genesis pre).hash crypto) = some s ∨
    kept.disk ((tip genesis pre).hash crypto) = some s → Right crypto c genesis pre s

variable {mid parents : List Header} {header : Header} {fuel : ℕ}

theorem genesis_number {t : VotingSnapshot} (applied : c.apply crypto (genesisSnapshot crypto genesis) pre = .ok t) :
    t.number = UInt64.ofNat pre.length := by
  rw [Poa.apply_number applied, genesisSnapshot, newSnapshot, UInt64.zero_add]

theorem tip_concat (pre : List Header) (header : Header) : tip genesis (pre ++ [header]) = header := by
  rw [tip, getLast?_concat, Option.getD_some]

theorem ofNat_concat_sub (pre : List Header) (header : Header) :
    UInt64.ofNat (pre ++ [header]).length - 1 = UInt64.ofNat pre.length := by
  rw [length_append, UInt64.ofNat_add]
  exact UInt64.add_sub_cancel _ _

variable (valid : ValidChain crypto c genesis headers)
include valid

theorem ValidChain.split (within : pre ++ mid <+: headers) : ∃ s t,
    c.apply crypto (genesisSnapshot crypto genesis) pre = .ok s ∧ c.apply crypto s mid = .ok t ∧
      c.apply crypto (genesisSnapshot crypto genesis) (pre ++ mid) = .ok t := by
  obtain ⟨rest, rfl⟩ := within
  obtain ⟨_, applied⟩ := valid.applied
  obtain ⟨t, both, -⟩ := Poa.apply_append.mp applied
  obtain ⟨s, first, second⟩ := Poa.apply_append.mp both
  exact ⟨s, t, first, second, both⟩

theorem Right.apply (right : Right crypto c genesis pre s) (within : pre ++ mid <+: headers) :
    ∃ t, c.apply crypto s mid = .ok t ∧ Right crypto c genesis (pre ++ mid) t := by
  obtain ⟨number, hash, base, reached, same⟩ := right
  obtain ⟨m, t, first, second, whole⟩ := valid.split within
  obtain rfl := Except.ok.inj (reached.symm.trans first)
  obtain ⟨q, applied, alike⟩ := Poa.apply_bare valid.unspaced same.symm
    ((genesis_number reached).trans number.symm) second
  refine ⟨q, applied, ?_, ?_, t, whole, alike.symm⟩
  · rw [Poa.apply_number applied, number, length_append, UInt64.ofNat_add]
  · obtain ⟨-, poll, -, rfl⟩ := Poa.apply_ok_iff.mp applied
    rw [tip, getLast?_append]
    cases mid.getLast? with
    | none => exact hash
    | some last => rfl

theorem ValidChain.number (within : pre ++ [header] <+: headers) :
    UInt64.ofNat header.number = UInt64.ofNat (pre ++ [header]).length := by
  obtain ⟨s, t, first, second, -⟩ := valid.split within
  rw [(Poa.apply_one.mp second).1, genesis_number first, length_append, UInt64.ofNat_add]
  rfl

theorem right_checkpoint (within : pre <+: headers)
    (checkpoint : pre = [] ∨ UInt64.ofNat pre.length % c.epoch = 0) :
    Right crypto c genesis pre (newSnapshot (UInt64.ofNat pre.length) ((tip genesis pre).hash crypto)
      (checkpointSigners (tip genesis pre).extra)) := by
  refine ⟨rfl, rfl, ?_⟩
  rcases eq_nil_or_concat' pre with rfl | ⟨pre, header, rfl⟩
  · exact ⟨_, rfl, rfl⟩
  · obtain ⟨s, t, first, second, whole⟩ := valid.split within
    obtain ⟨-, poll, stepped, rfl⟩ := Poa.apply_one.mp second
    refine ⟨_, whole, ?_⟩
    have multiple : UInt64.ofNat header.number % c.epoch = 0 := by
      rw [valid.number within]
      exact checkpoint.resolve_left (by simp)
    obtain ⟨coinbase, nonce, absent, listed⟩ := valid.checkpoints pre header s within first multiple
    obtain ⟨signer, -, -, -, after⟩ := Poa.applyHeader_voted stepped
    have sorted : s.signers.Pairwise (· < ·) := by
      have weak := Poa.apply_sorted (sorted_foldl_addSigner .nil _) first
      refine (weak.and s.distinct).imp fun {a b} both => ?_
      exact BitVec.lt_of_le_ne both.1 both.2
    have signers : (checkpointSigners (tip genesis (pre ++ [header])).extra).foldl addSigner [] = s.signers := by
      rw [tip, getLast?_concat, Option.getD_some, checkpointSigners_eq listed]
      exact foldl_addSigner_sorted sorted
    -- The votes are reset, and the vote of the checkpoint itself is on an address that is no signer.
    let reset : Poll := { s.bare with votes := [], tally := fun _ => none }
    have uncounted : reset.cast (UInt64.ofNat header.number) signer 0 false = reset := by
      have gone : (0 : Address) ∉ reset.signers := absent
      rw [Poll.cast, if_neg]
      rw [validVote_iff, decide_eq_true gone]
      nofun
    have calm : poll.bare = reset.bare := by
      rw [after, coinbase, nonce, Poll.expire, if_pos multiple]
      exact congrArg (fun u : Poll => (u.settle (UInt64.ofNat header.number) 0).bare) uncounted
    change Poll.bare _ = poll.bare
    refine Eq.trans (b := reset.bare) ?_ calm.symm
    exact Poll.bare_ext signers rfl rfl

theorem gather_own (reads : ReadsChain crypto genesis headers chain)
    {next : Header × List Header} (within : pre ++ [header] <+: headers)
    (own : ∀ parent ∈ parents, parent ∈ headers)
    (gathered : Poa.gather crypto chain (UInt64.ofNat (pre.length + 1)) (header.hash crypto) parents = .ok next) :
    next.1 = header ∧ ∀ parent ∈ next.2, parent ∈ headers := by
  unfold Poa.gather at gathered
  cases last : parents.getLast? with
  | some parent =>
    simp only [last] at gathered
    split at gathered
    · nomatch gathered
    · rename_i fine
      cases gathered
      rw [not_or, not_not] at fine
      obtain ⟨before, after, split⟩ := append_of_mem (own parent (mem_of_getLast? last))
      have here : before ++ [parent] <+: headers := ⟨after, by rw [split, append_assoc]; rfl⟩
      have same := valid.distinct _ _ here within (by rw [tip_concat, tip_concat, fine.1])
      exact ⟨(append_inj' same rfl).2 |> singleton_inj.mp,
        fun other member => own other (mem_of_mem_dropLast member)⟩
  | none =>
    simp only [last] at gathered
    split at gathered
    · rename_i found stored
      cases gathered
      have small := within.length_le
      rw [length_append, length_singleton] at small
      rw [UInt64.toNat_ofNat', Nat.mod_eq_of_lt (by have := valid.bounded; omega)] at stored
      exact ⟨reads.byHash pre header within found stored, fun _ none => absurd none not_mem_nil⟩
    · nomatch gathered

theorem Trusty.put (trusty : Trusty crypto c genesis headers kept) (within : pre <+: headers)
    (right : Right crypto c genesis pre s) :
    Trusty crypto c genesis headers (kept.store s) ∧ Trusty crypto c genesis headers (kept.remember s) := by
  have here {entries : Hash → Option VotingSnapshot} {other : List Header} {found : VotingSnapshot}
      (block : other <+: headers)
      (entry : Function.update entries s.hash (some s) ((tip genesis other).hash crypto) = some found) :
      Right crypto c genesis other found ∨ entries ((tip genesis other).hash crypto) = some found := by
    rw [right.2.1] at entry
    by_cases same : (tip genesis other).hash crypto = (tip genesis pre).hash crypto
    · rw [same, Function.update_self] at entry
      rw [valid.distinct other pre block within same]
      exact .inl (Option.some.inj entry ▸ right)
    · rw [Function.update_of_ne same] at entry
      exact .inr entry
  constructor
  · rintro other block found (entry | entry)
    · exact trusty other block found (.inl entry)
    · exact (here block entry).elim id fun old => trusty other block found (.inr old)
  · rintro other block found (entry | entry)
    · exact (here block entry).elim id fun old => trusty other block found (.inl old)
    · exact trusty other block found (.inr entry)

variable {target before : List Header} {kept' : SnapshotStore}

theorem search_right (reads : ReadsChain crypto genesis headers chain)
    (trusty : Trusty crypto c genesis headers kept) (within : target <+: headers) {gathered : List Header}
    (split : pre ++ gathered = target) (own : ∀ parent ∈ parents, parent ∈ headers)
    (found : c.search crypto chain kept fuel (UInt64.ofNat pre.length) ((tip genesis pre).hash crypto)
      parents gathered = .ok (s, mid, kept')) :
    ∃ below, below ++ mid = target ∧ Right crypto c genesis below s ∧
      Trusty crypto c genesis headers kept' := by
  induction fuel generalizing pre parents gathered with
  | zero => nomatch found
  | succ fuel ih =>
    have block : pre <+: headers := (split ▸ prefix_append pre gathered).trans within
    have small : pre.length < 2 ^ 64 := Nat.lt_of_le_of_lt block.length_le valid.bounded
    rw [Poa.search] at found
    split at found
    · rename_i snap known
      cases found
      refine ⟨pre, split, trusty pre block s ?_, trusty⟩
      rcases Option.or_eq_some_iff.mp known with known | ⟨-, known⟩
      · exact .inl known
      · split at known
        · exact .inr known
        · nomatch known
    · split at found
      · rename_i checkpoint known
        simp only [Poa.trusted] at known
        split at known
        · rename_i base
          obtain rfl := reads.byNumber pre block checkpoint known
          have right := right_checkpoint valid block (base.imp (fun zero => ?_) And.left)
          · cases found
            exact ⟨pre, split, right, (trusty.put valid block right).1⟩
          · have none := congrArg UInt64.toNat zero
            rw [UInt64.toNat_ofNat', Nat.mod_eq_of_lt small] at none
            exact eq_nil_of_length_eq_zero none
        · nomatch known
      · rename_i untrusted
        rcases eq_nil_or_concat' pre with rfl | ⟨pre, header, rfl⟩
        · simp [Poa.trusted, reads.start] at untrusted
        · obtain ⟨next, taken, rest⟩ := bind_eq_ok.mp found
          rw [length_append, length_singleton, tip_concat] at taken
          obtain ⟨rfl, left⟩ := gather_own valid reads block own taken
          rw [valid.linked pre next.1 block, ofNat_concat_sub] at rest
          exact ih (by rw [← split, append_assoc]; rfl) left rest

def AtHand (crypto : Crypto) (chain : HeaderReader) (before : List Header) : Prop :=
  ∀ pre header, pre ++ [header] <+: before →
    chain.getHeader (header.hash crypto) (pre.length + 1) = some header

theorem gather_ok (atHand : AtHand crypto chain before) (split : before ++ parents = pre ++ [header])
    (within : pre ++ [header] <+: headers) :
    ∃ before' parents', Poa.gather crypto chain (UInt64.ofNat (pre ++ [header]).length)
        ((tip genesis (pre ++ [header])).hash crypto) parents = .ok (header, parents') ∧
      before' ++ parents' = pre ∧ AtHand crypto chain before' := by
  rcases eq_nil_or_concat' parents with rfl | ⟨parents, last, rfl⟩
  · rw [append_nil] at split
    subst split
    refine ⟨pre, [], ?_, append_nil _, fun q h block => atHand q h (block.trans (prefix_append _ _))⟩
    have small := Nat.lt_of_le_of_lt within.length_le valid.bounded
    rw [length_append, length_singleton] at small ⊢
    simp only [Poa.gather, getLast?_nil, tip_concat, UInt64.toNat_ofNat',
      Nat.mod_eq_of_lt small, atHand pre header prefix_rfl]
  · rw [← append_assoc] at split
    obtain ⟨rfl, same⟩ := append_inj' split rfl
    obtain rfl := singleton_inj.mp same
    refine ⟨before, parents, ?_, rfl, atHand⟩
    simp only [Poa.gather, getLast?_concat, tip_concat, valid.number within, dropLast_concat,
      ne_eq, not_true, or_self, if_false]

theorem search_total (reads : ReadsChain crypto genesis headers chain)
    (within : target <+: headers) (split : before ++ parents = target) (atHand : AtHand crypto chain before)
    (enough : target.length < fuel) (gathered : List Header) :
    ∃ result, c.search crypto chain kept fuel (UInt64.ofNat target.length)
      ((tip genesis target).hash crypto) parents gathered = .ok result := by
  induction fuel generalizing before parents target gathered with
  | zero => exact absurd enough (Nat.not_lt_zero _)
  | succ fuel ih =>
    rw [Poa.search]
    split
    · exact ⟨_, rfl⟩
    · split
      · exact ⟨_, rfl⟩
      · rename_i untrusted
        rcases eq_nil_or_concat' target with rfl | ⟨target, header, rfl⟩
        · simp [Poa.trusted, reads.start] at untrusted
        · obtain ⟨before', parents', taken, parts, left⟩ := gather_ok valid atHand split within
          rw [length_append, length_singleton] at enough
          obtain ⟨result, found⟩ := ih ((prefix_append _ _).trans within) parts left (by omega)
            (header :: gathered)
          refine ⟨result, ?_⟩
          rw [taken]
          simp only [bind, Except.bind]
          rw [valid.linked target header within, ofNat_concat_sub, found]

omit valid in
theorem search_sigcache (c : Poa) (sigcache : Hash → Option Address) (fuel : ℕ) (number : UInt64) (hash : Hash)
    (parents gathered : List Header) :
    { c with sigcache }.search crypto chain kept fuel number hash parents gathered =
      c.search crypto chain kept fuel number hash parents gathered := by
  induction fuel generalizing number hash parents gathered with
  | zero => rfl
  | succ fuel ih => simp only [Poa.search, Poa.trusted, ih]

theorem find_right (reads : ReadsChain crypto genesis headers chain)
    (trusty : Trusty crypto c genesis headers kept) {sigcache : Hash → Option Address} (within : pre <+: headers)
    (recovers : ∀ header ∈ headers, { c with sigcache }.ecrecover crypto header = c.ecrecover crypto header)
    (own : ∀ parent ∈ parents, parent ∈ headers) {result : Except PoaError VotingSnapshot}
    (called : { c with sigcache }.findSnapshot crypto chain kept fuel (UInt64.ofNat pre.length)
      ((tip genesis pre).hash crypto) parents = (result, kept')) :
    Trusty crypto c genesis headers kept' ∧ (∀ s, result = .ok s → Right crypto c genesis pre s) ∧
      ((∃ found, c.search crypto chain kept fuel (UInt64.ofNat pre.length) ((tip genesis pre).hash crypto)
        parents [] = .ok found) → ∃ s, result = .ok s) := by
  simp only [Poa.findSnapshot, search_sigcache] at called
  cases found : c.search crypto chain kept fuel (UInt64.ofNat pre.length) ((tip genesis pre).hash crypto)
    parents [] with
  | error e =>
    rw [found] at called
    cases called
    exact ⟨trusty, nofun, nofun⟩
  | ok result =>
    obtain ⟨s, mid, stored⟩ := result
    obtain ⟨below, split, right, kept⟩ := search_right valid reads trusty within
      (append_nil pre) own found
    subst split
    obtain ⟨t, applied, above⟩ := right.apply valid within
    have same : { c with sigcache }.apply crypto s mid = .ok t := by
      rw [Poa.apply_recovers fun header member => recovers header
        (within.subset (mem_append_right below member)), applied]
    rw [found] at called
    simp only [same] at called
    cases called
    have remembered := (kept.put valid within above).2
    refine ⟨?_, fun _ same => Except.ok.inj same ▸ above, fun _ => ⟨t, rfl⟩⟩
    split
    · exact (remembered.put valid within above).1
    · exact remembered

theorem filled_trusty (filled : Filled crypto c genesis headers kept) : Trusty crypto c genesis headers kept := by
  induction filled with
  | empty => rintro pre - s (entry | entry) <;> nomatch entry
  | call fuel _ reads recovers within own ih => exact (find_right valid reads ih within recovers own rfl).1
  | evict _ subset ih =>
    rintro pre block s (entry | entry)
    · exact ih pre block s (.inl (subset _ _ entry))
    · exact ih pre block s (.inr entry)

end Chain

def sampleSigned : Poa := { samplePoa (.layer2 fun _ _ _ => none) with sigcache := fun _ => some 5 }

def sampleBase : Header :=
  { sampleHeader with
    extra := List.replicate extraVanity 0 ++ addressBytes 5 ++ List.replicate extraSeal 0 }

def sampleSuccessor : Header :=
  { sampleHeader with
    number := 1
    parentHash := sampleBase.hash sampleCrypto
    coinbase := 7 }

theorem singleton_prefixes {α : Type*} {pre : List α} {x : α} (within : pre <+: [x]) : pre = [] ∨ pre = [x] := by
  simpa [prefix_cons_iff] using within

theorem sampleSuccessor_valid : ValidChain sampleCrypto sampleSigned sampleBase [sampleSuccessor] := by
  have only (pre : List Header) (header : Header) (within : pre ++ [header] <+: [sampleSuccessor]) :
      pre = [] ∧ header = sampleSuccessor := by
    have := singleton_prefixes within
    simp_all [append_eq_singleton_iff]
  have apart : sampleSuccessor.hash sampleCrypto ≠ sampleBase.hash sampleCrypto := by decide +kernel
  have applies : (sampleSigned.apply sampleCrypto (genesisSnapshot sampleCrypto sampleBase)
      [sampleSuccessor]).toOption.isSome = true := by decide +kernel
  obtain ⟨s, applies⟩ := Option.isSome_iff_exists.mp applies
  refine ⟨rfl, by decide, ?_, ?_, ⟨s, ?_⟩, ?_⟩
  · intro pre header within
    obtain ⟨rfl, rfl⟩ := only pre header within
    rw [sampleSuccessor, tip, getLast?_nil, Option.getD_none]
  · intro pre pre' within within' same
    rcases singleton_prefixes within with rfl | rfl <;> rcases singleton_prefixes within' with rfl | rfl
    · rfl
    · exact absurd same.symm apart
    · exact absurd same apart
    · rfl
  · cases run : sampleSigned.apply sampleCrypto (genesisSnapshot sampleCrypto sampleBase) [sampleSuccessor] with
    | error e => rw [run] at applies; nomatch applies
    | ok t => rw [run] at applies; exact congrArg _ (Option.some.inj applies)
  · intro pre header s within _ multiple
    obtain ⟨-, rfl⟩ := only pre header within
    exact absurd multiple (by decide)

def sampleReader : HeaderReader where
  config := sampleChain.config
  getHeader _ _ := none
  getHeaderByNumber number := if number = 0 then some sampleBase else none

end Anduschain
