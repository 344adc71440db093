import Anduschain.CanonicalChain
import Anduschain.GoCall

/-! The header chain of the core and the light client: `WriteHeader`, which may re-route the
canonical index to another fork, and `SetHead`, which rewinds it. The loops that walk parents are
read along paths of stored headers. -/
namespace Anduschain
open ByteOrder List
open UInt64 (toNat_ofNat' toNat_one toNat_inj le_iff_toNat_le)

def Header.numberU64 (h : Header) : UInt64 := UInt64.ofNat h.number

def Header.link (crypto : Crypto) (h : Header) : Link := ⟨h.hash crypto, h.parentHash, h.number⟩

/-- The header chain and its part of the database; a missing canonical hash reads as zero. -/
structure HeaderChain where
  headers : Hash → UInt64 → Option Header
  td : Hash → UInt64 → Option ℕ
  canonical : UInt64 → Option Hash
  genesisHeader : Header
  currentHeader : Header
  currentHeaderHash : Hash

inductive HeaderError where
  | unknownAncestor
  deriving DecidableEq

/-- The numbers there are bound every loop over them. -/
def turns : ℕ := 2 ^ 64

namespace HeaderChain

def readCanonicalHash (index : UInt64 → Option Hash) (number : UInt64) : Hash := (index number).getD 0

def writeCanonicalHash (index : UInt64 → Option Hash) (hash : Hash) (number : UInt64) :
    UInt64 → Option Hash :=
  fun k => if k = number then some hash else index k

/-- The deletions go to a batch, so the loop reads the index as it was. -/
def deleteAbove (index : UInt64 → Option Hash) :
    ℕ → UInt64 → GoCall HeaderError (UInt64 → Option Hash)
  | 0, _ => .runs
  | left + 1, i =>
    if readCanonicalHash index i = 0 then .returns index
    else do
      let rest ← deleteAbove index left (i + 1)
      return fun k => if k = i then none else rest k

/-- Overwrites the canonical hashes from a parent down to the chain they meet. -/
def reroute (hc : HeaderChain) : ℕ → Hash → UInt64 → Option Header → (UInt64 → Option Hash) →
    GoCall HeaderError (UInt64 → Option Hash)
  | 0, _, _, _, _ => .runs
  | left + 1, headHash, headNumber, headHeader, index =>
    if readCanonicalHash index headNumber = headHash then .returns index
    else
      match headHeader with
      | none => .panics
      | some h =>
        reroute hc left h.parentHash (h.numberU64 - 1) (hc.headers h.parentHash (h.numberU64 - 1))
          (writeCanonicalHash index headHash headNumber)

variable (crypto : Crypto) (hc : HeaderChain)

def store (header : Header) (externTd : ℕ) : HeaderChain :=
  { hc with
    headers := fun h n =>
      if h = header.hash crypto ∧ n = header.numberU64 then some header else hc.headers h n
    td := fun h n =>
      if h = header.hash crypto ∧ n = header.numberU64 then some externTd else hc.td h n }

/-- The coin decides between headers of equal weight. -/
def writeHeader (coin : Bool) (hc : HeaderChain) (header : Header) :
    GoCall HeaderError (HeaderChain × WriteStatus) :=
  let hash := header.hash crypto
  let number := header.numberU64
  match hc.td header.parentHash (number - 1) with
  | none => .fails .unknownAncestor
  | some ptd =>
    let externTd := header.difficulty + ptd
    let stored := hc.store crypto header externTd
    match hc.td hc.currentHeaderHash hc.currentHeader.numberU64 with
    | none => .panics
    | some localTd =>
      if localTd < externTd || externTd == localTd && coin then do
        let cleared ← deleteAbove hc.canonical turns (number + 1)
        let index ← stored.reroute turns header.parentHash (number - 1)
          (stored.headers header.parentHash (number - 1)) cleared
        return ({ stored with
          canonical := writeCanonicalHash index hash number
          currentHeader := header
          currentHeaderHash := hash }, .canon)
      else .returns (stored, .side)

/-- The headers from `hdr` down that stand above the new head, and the one the loop stops at. -/
def unwind (hc : HeaderChain) (head : UInt64) :
    ℕ → Option Header → GoCall HeaderError (List Header × Option Header)
  | 0, _ => .runs
  | _ + 1, none => .returns ([], none)
  | left + 1, some hdr =>
    if head < hdr.numberU64 then do
      let (above, last) ← unwind hc head left (hc.headers hdr.parentHash (hdr.numberU64 - 1))
      return (hdr :: above, last)
    else .returns ([], some hdr)

/-- Without a callback for the deleted headers. -/
def setHead (head : UInt64) : GoCall HeaderError HeaderChain := do
  let height := hc.currentHeader.numberU64
  let (above, last) ← hc.unwind head turns (some hc.currentHeader)
  let deleted := above.map fun hdr => (hdr.hash crypto, hdr.numberU64)
  let current := last.getD hc.genesisHeader
  return { hc with
    headers := fun h n => if (h, n) ∈ deleted then none else hc.headers h n
    td := fun h n => if (h, n) ∈ deleted then none else hc.td h n
    canonical := fun k => if head < k ∧ k ≤ height then none else hc.canonical k
    currentHeader := current
    currentHeaderHash := current.hash crypto }

def Held (link : Link) : Prop :=
  ∃ h, hc.headers link.hash (UInt64.ofNat link.number) = some h ∧ h.link crypto = link

def rooted (crypto : Crypto) (hc : HeaderChain) : ℕ → Hash → Bool
  | 0, hash => hash == hc.genesisHeader.hash crypto
  | n + 1, hash =>
    (hc.headers hash (UInt64.ofNat (n + 1))).any fun h => hc.rooted crypto n h.parentHash

def adopts (coin : Bool) (hc : HeaderChain) (header : Header) : Bool :=
  match hc.td header.parentHash (header.numberU64 - 1),
      hc.td hc.currentHeaderHash hc.currentHeader.numberU64 with
  | some ptd, some localTd =>
    localTd < header.difficulty + ptd || header.difficulty + ptd == localTd && coin
  | _, _ => false

end HeaderChain

/-- Headers of which the hash tells the place, one above the parent's; no number is the last of
uint64, and no hash is zero. -/
structure HeaderTree (crypto : Crypto) (headers : Set Header) : Prop where
  linked : ∀ a ∈ headers, ∀ b ∈ headers, a.hash crypto = b.hash crypto → a.link crypto = b.link crypto
  follows : ∀ a ∈ headers, ∀ b ∈ headers, a.parentHash = b.hash crypto → a.number = b.number + 1
  below : ∀ a ∈ headers, a.number + 1 < 2 ^ 64
  nonzero : ∀ a ∈ headers, a.hash crypto ≠ 0

namespace HeaderTree
variable {crypto : Crypto} {headers : Set Header} {a b : Header}

theorem toNat_number (tree : HeaderTree crypto headers) (mem : a ∈ headers) :
    a.numberU64.toNat = a.number := by
  have low := tree.below a mem
  rw [Header.numberU64, toNat_ofNat', Nat.mod_eq_of_lt (by omega)]

theorem number_succ (tree : HeaderTree crypto headers) (a_mem : a ∈ headers) (b_mem : b ∈ headers)
    (next : b.numberU64 = a.numberU64 - 1) : a.number = b.number + 1 :=
  eq_succ_of_ofNat (tree.below a a_mem) (tree.below b b_mem) next

end HeaderTree

namespace HeaderChain
variable {crypto : Crypto} {headers : Set Header} {genesis : Genesis} {hc : HeaderChain}
  {header : Header} {hash : Hash} {number : UInt64} {a : Link} {p q : List Link}

/-- What is stored of a tree; a stored header is the first one or the child of one of the tree,
which a rewind may have deleted. -/
structure Stocked (crypto : Crypto) (headers : Set Header) (genesis : Genesis) (hc : HeaderChain) :
    Prop where
  genesis_mem : genesis.block.header ∈ headers
  genesis_eq : hc.genesisHeader = genesis.block.header
  stored : ∀ {hash number h}, hc.headers hash number = some h →
    h ∈ headers ∧ h.hash crypto = hash ∧ h.numberU64 = number
  child : ∀ {hash number h}, hc.headers hash number = some h →
    h.hash crypto = genesis.block.hash crypto ∨
      ∃ parent ∈ headers, h.parentHash = parent.hash crypto ∧ h.number = parent.number + 1
  weighed : ∀ hash number, (hc.td hash number).isSome = (hc.headers hash number).isSome
  current_mem : hc.currentHeader ∈ headers
  current_hash : hc.currentHeaderHash = hc.currentHeader.hash crypto

namespace Stocked

variable (stocked : hc.Stocked crypto headers genesis)
include stocked

theorem held_of_stored
    (found : hc.headers hash number = some header) : hc.Held crypto (header.link crypto) := by
  obtain ⟨-, rfl, rfl⟩ := stocked.stored found
  exact ⟨header, found, rfl⟩

theorem held_apart (tree : HeaderTree crypto headers)
    (a b : Link) (a_held : hc.Held crypto a) (b_held : hc.Held crypto b) (same : a.hash = b.hash) :
    a = b := by
  obtain ⟨x, x_found, rfl⟩ := a_held
  obtain ⟨y, y_found, rfl⟩ := b_held
  exact tree.linked x (stocked.stored x_found).1 y (stocked.stored y_found).1 same

theorem held_mem (held : hc.Held crypto a) :
    ∃ h ∈ headers, hc.headers a.hash (UInt64.ofNat a.number) = some h ∧ h.link crypto = a := by
  obtain ⟨h, found, linked⟩ := held
  exact ⟨h, (stocked.stored found).1, found, linked⟩

theorem held_nonzero (tree : HeaderTree crypto headers) (held : hc.Held crypto a) : a.hash ≠ 0 := by
  obtain ⟨h, mem, -, rfl⟩ := stocked.held_mem held
  exact tree.nonzero h mem

theorem rooted_of_path (path : (genesis.forest crypto).Path (hc.Held crypto) (a :: p)) :
    hc.rooted crypto a.number a.hash = true := by
  induction p generalizing a with
  | nil =>
    cases path
    have zero : (genesis.block.link crypto).number = 0 := genesis.first
    rw [show (genesis.forest crypto).root.number = 0 from zero, rooted, stocked.genesis_eq]
    exact beq_self_eq_true _
  | cons b p ih =>
    cases path with
    | child held parent height lower =>
      obtain ⟨h, mem, found, rfl⟩ := stocked.held_mem held
      have above : h.number = b.number + 1 := height
      have lower_rooted := ih lower
      rw [← show h.parentHash = b.hash from parent] at lower_rooted
      rw [show (h.link crypto).number = b.number + 1 from above] at found ⊢
      rw [rooted, found]
      exact lower_rooted

theorem path_of_rooted (tree : HeaderTree crypto headers)
    (first : hc.Held crypto (genesis.block.link crypto)) {n : ℕ} (room : n < 2 ^ 64)
    (rooted : hc.rooted crypto n hash = true) :
    ∃ a p, (genesis.forest crypto).Path (hc.Held crypto) (a :: p) ∧ a.hash = hash ∧ a.number = n := by
  induction n generalizing hash with
  | zero =>
    rw [HeaderChain.rooted, beq_iff_eq, stocked.genesis_eq] at rooted
    exact ⟨genesis.block.link crypto, [], .root first, rooted.symm, genesis.first⟩
  | succ n ih =>
    rw [HeaderChain.rooted, Option.any_eq_true] at rooted
    obtain ⟨h, found, rooted⟩ := rooted
    obtain ⟨mem, hashed, numbered⟩ := stocked.stored found
    have number : h.number = n + 1 := by
      rw [← tree.toNat_number mem, numbered, toNat_ofNat', Nat.mod_eq_of_lt room]
    obtain ⟨b, p, path, b_hash, b_number⟩ := ih (by omega) rooted
    refine ⟨h.link crypto, b :: p, ?_, hashed, number⟩
    refine .child (stocked.held_of_stored found) b_hash.symm ?_ path
    show h.number = b.number + 1
    rw [number, b_number]

end Stocked

def Indexes (crypto : Crypto) (genesis : Genesis) (path : List Link) (index : UInt64 → Option Hash) :
    Prop :=
  ∀ k : UInt64, index k = (genesis.forest crypto).keyAt path k.toNat

variable {index : UInt64 → Option Hash}

theorem Indexes.isSome_iff {held : Link → Prop} (indexes : Indexes crypto genesis (a :: p) index)
    (path : (genesis.forest crypto).Path held (a :: p)) (k : UInt64) :
    (index k).isSome ↔ k.toNat ≤ a.number := by
  rw [indexes k]
  exact path.isSome_iff k.toNat

theorem readCanonicalHash_eq_iff (nonzero : hash ≠ 0) :
    readCanonicalHash index number = hash ↔ index number = some hash := by
  rw [readCanonicalHash]
  cases index number with
  | none => simpa using Ne.symm nonzero
  | some found => simp

theorem deleteAbove_returns {top : ℕ} (low : top + 1 < 2 ^ 64)
    (present : ∀ k : UInt64, readCanonicalHash index k = 0 ↔ top < k.toNat) {left : ℕ} {i : UInt64}
    (enough : top < i.toNat + left) :
    ∃ cleared, deleteAbove index (left + 1) i = .returns cleared ∧
      ∀ k, cleared k = if i ≤ k ∧ k.toNat ≤ top then none else index k := by
  induction left generalizing i with
  | zero =>
    refine ⟨index, ?_, ?_⟩
    · rw [deleteAbove, if_pos ((present i).mpr enough)]
    · intro k
      rw [if_neg]
      rw [le_iff_toNat_le]
      omega
  | succ left ih =>
    by_cases gone : top < i.toNat
    · refine ⟨index, ?_, ?_⟩
      · rw [deleteAbove, if_pos ((present i).mpr gone)]
      · intro k
        rw [if_neg]
        rw [le_iff_toNat_le]
        omega
    · have next : (i + 1).toNat = i.toNat + 1 := by
        rw [UInt64.toNat_add, toNat_one, Nat.mod_eq_of_lt (by omega)]
      obtain ⟨rest, returned, spec⟩ := ih (i := i + 1) (by omega)
      refine ⟨fun k => if k = i then none else rest k, ?_, ?_⟩
      · rw [deleteAbove, if_neg (fun zero => gone ((present i).mp zero)), returned]
        rfl
      · intro k
        by_cases here : k = i
        · subst here
          simp only [if_true]
          rw [if_pos ⟨UInt64.le_refl k, by omega⟩]
        · have apart : k.toNat ≠ i.toNat := fun same => here (toNat_inj.mp same)
          simp only [here, if_false]
          rw [spec]
          apply if_congr ?_ rfl rfl
          rw [le_iff_toNat_le, le_iff_toNat_le, next]
          omega

section Loops
variable {old : List Link} {index : UInt64 → Option Hash}

theorem Held.toNat_number (tree : HeaderTree crypto headers)
    (stocked : hc.Stocked crypto headers genesis) (held : hc.Held crypto a) :
    (UInt64.ofNat a.number).toNat = a.number := by
  obtain ⟨h, mem, -, rfl⟩ := stocked.held_mem held
  exact tree.toNat_number mem

def Agrees (crypto : Crypto) (genesis : Genesis) (old : List Link) (n : ℕ)
    (index : UInt64 → Option Hash) : Prop :=
  ∀ k : UInt64, k.toNat ≤ n → index k = (genesis.forest crypto).keyAt old k.toNat

variable (tree : HeaderTree crypto headers) (stocked : hc.Stocked crypto headers genesis)
  (old_path : (genesis.forest crypto).Path (hc.Held crypto) old)
include tree stocked old_path

theorem reroute_returns (path : (genesis.forest crypto).Path (hc.Held crypto) (a :: p)) {left : ℕ}
    (enough : a.number ≤ left) (agrees : Agrees crypto genesis old a.number index) :
    ∃ routed, hc.reroute (left + 1) a.hash (UInt64.ofNat a.number)
        (hc.headers a.hash (UInt64.ofNat a.number)) index = .returns routed ∧
      ∀ k : UInt64, routed k =
        if k.toNat ≤ a.number then (genesis.forest crypto).keyAt (a :: p) k.toNat else index k := by
  induction p generalizing a left index with
  | nil =>
    have held := path.all_held a mem_cons_self
    have exact_number := held.toNat_number tree stocked
    have first : a = (genesis.forest crypto).root := path.eq_root
    have zero : a.number = 0 := first ▸ (genesis.forest crypto).root_height
    have named : index (UInt64.ofNat a.number) = some a.hash := by
      rw [agrees _ exact_number.le, exact_number, zero, old_path.keyAt_zero, first]
      rfl
    refine ⟨index, ?_, ?_⟩
    · rw [reroute.eq_def]
      exact if_pos ((readCanonicalHash_eq_iff (stocked.held_nonzero tree held)).mpr named)
    · intro k
      by_cases low : k.toNat ≤ a.number
      · have at_zero : k.toNat = 0 := by omega
        rw [if_pos low, agrees k low, at_zero, old_path.keyAt_zero, path.keyAt_zero]
      · rw [if_neg low]
  | cons b p ih =>
    have held := path.all_held a mem_cons_self
    have exact_number := held.toNat_number tree stocked
    rw [reroute.eq_def]
    dsimp only
    by_cases met : readCanonicalHash index (UInt64.ofNat a.number) = a.hash
    · -- the rest of the path is the path re-routed from
      have named := (readCanonicalHash_eq_iff (stocked.held_nonzero tree held)).mp met
      rw [agrees _ exact_number.le, exact_number] at named
      refine ⟨index, if_pos met, ?_⟩
      intro k
      by_cases low : k.toNat ≤ a.number
      · rw [if_pos low, agrees k low]
        exact old_path.keyAt_below (stocked.held_apart tree) path named low
      · rw [if_neg low]
    · obtain ⟨parent, height, lower⟩ := path.parent_of
      have above : a.number = b.number + 1 := height
      obtain ⟨h, mem, found, linked⟩ := stocked.held_mem held
      have up : h.parentHash = b.hash := (congrArg Link.parentHash linked).trans parent
      have down : h.numberU64 - 1 = UInt64.ofNat b.number :=
        ofNat_sub_one ((congrArg Link.number linked).trans above)
      obtain ⟨left, rfl⟩ : ∃ fewer, left = fewer + 1 := ⟨left - 1, by omega⟩
      have next : Agrees crypto genesis old b.number
          (writeCanonicalHash index a.hash (UInt64.ofNat a.number)) := by
        intro k low
        rw [writeCanonicalHash, if_neg]
        · exact agrees k (by omega)
        · rintro rfl
          omega
      obtain ⟨routed, returned, spec⟩ := ih lower (by omega : b.number ≤ left) next
      refine ⟨routed, ?_, ?_⟩
      · rw [if_neg met, found]
        simp only [up, down]
        exact returned
      · intro k
        rw [spec]
        by_cases low : k.toNat ≤ b.number
        · have apart : (genesis.forest crypto).height a ≠ k.toNat := by
            show a.number ≠ k.toNat
            omega
          rw [if_pos low, if_pos (by omega), Forest.keyAt_cons a, if_neg apart]
        · rw [if_neg low, writeCanonicalHash]
          by_cases here : k = UInt64.ofNat a.number
          · rw [if_pos here, here, exact_number, if_pos le_rfl]
            exact (path.keyAt_mem a mem_cons_self).symm
          · have apart : k.toNat ≠ a.number := by
              intro same
              exact here (toNat_inj.mp (same.trans exact_number.symm))
            rw [if_neg here, if_neg (by omega)]

theorem reroute_panics {n left : ℕ} (enough : n ≤ left)
    (low : n < 2 ^ 64) (nonzero : hash ≠ 0) (cut : hc.rooted crypto n hash = false)
    (agrees : Agrees crypto genesis old n index) :
    hc.reroute (left + 1) hash (UInt64.ofNat n) (hc.headers hash (UInt64.ofNat n)) index =
      .panics := by
  induction n generalizing hash left index with
  | zero =>
    have here : (UInt64.ofNat 0).toNat = 0 := rfl
    have elsewhere : hash ≠ genesis.block.hash crypto := by
      rintro rfl
      rw [rooted, stocked.genesis_eq, beq_eq_false_iff_ne] at cut
      exact cut rfl
    have unmet : readCanonicalHash index (UInt64.ofNat 0) ≠ hash := by
      rw [ne_eq, readCanonicalHash_eq_iff nonzero, agrees _ here.le, here, old_path.keyAt_zero]
      intro same
      exact elsewhere (Option.some.inj same).symm
    rw [reroute.eq_def]
    dsimp only
    rw [if_neg unmet]
    cases found : hc.headers hash (UInt64.ofNat 0) with
    | none => rfl
    | some h =>
      obtain ⟨mem, hashed, numbered⟩ := stocked.stored found
      have zero : h.number = 0 := by rw [← tree.toNat_number mem, numbered, here]
      rcases stocked.child found with first | ⟨parent, -, -, above⟩
      · exact absurd (hashed.symm.trans first) elsewhere
      · omega
  | succ n ih =>
    have here : (UInt64.ofNat (n + 1)).toNat = n + 1 := by
      rw [toNat_ofNat', Nat.mod_eq_of_lt low]
    have unmet : readCanonicalHash index (UInt64.ofNat (n + 1)) ≠ hash := by
      rw [ne_eq, readCanonicalHash_eq_iff nonzero, agrees _ here.le, here]
      intro named
      obtain ⟨b, member, height, key⟩ := Forest.exists_of_keyAt named
      obtain ⟨upper, rest, rfl⟩ := append_of_mem member
      have whole := stocked.rooted_of_path old_path.lower
      rw [show b.number = n + 1 from height, show b.hash = hash from key, cut] at whole
      cases whole
    rw [reroute.eq_def]
    dsimp only
    rw [if_neg unmet]
    cases found : hc.headers hash (UInt64.ofNat (n + 1)) with
    | none => rfl
    | some h =>
      obtain ⟨mem, hashed, numbered⟩ := stocked.stored found
      have number : h.number = n + 1 := by rw [← tree.toNat_number mem, numbered, here]
      obtain ⟨left, rfl⟩ : ∃ fewer, left = fewer + 1 := ⟨left - 1, by omega⟩
      have lower_cut : hc.rooted crypto n h.parentHash = false := by
        rw [rooted, found] at cut
        exact cut
      have parent_nonzero : h.parentHash ≠ 0 := by
        rcases stocked.child found with first | ⟨parent, parent_mem, same, -⟩
        · have linked := tree.linked h mem _ stocked.genesis_mem first
          have zero : h.number = 0 := (congrArg Link.number linked).trans genesis.first
          omega
        · rw [same]
          exact tree.nonzero parent parent_mem
      have next : Agrees crypto genesis old n
          (writeCanonicalHash index hash (UInt64.ofNat (n + 1))) := by
        intro k k_low
        rw [writeCanonicalHash, if_neg]
        · exact agrees k (by omega)
        · rintro rfl
          omega
      simp only [show h.numberU64 - 1 = UInt64.ofNat n from ofNat_sub_one number]
      exact ih (by omega) (by omega) parent_nonzero lower_cut next

end Loops

end HeaderChain

end Anduschain
