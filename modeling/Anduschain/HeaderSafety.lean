import Anduschain.HeaderChain
import Anduschain.CanonicalSafety

/-! Runs of `WriteHeader` and `SetHead` from the first header, over any tree of headers: the
canonical index follows the head and no call reads a missing header exactly when no header becomes
the head on a fork that a rewind has cut off. -/
namespace Anduschain
open ByteOrder FiniteRun List

namespace HeaderChain
variable {crypto : Crypto} {headers : Set Header} {genesis : Genesis} {hc after : HeaderChain}
  {header : Header} {hash : Hash} {number : UInt64} {a : Link} {p q : List Link} {coin : Bool}

/-- A header chain of the tree whose head has all its ancestors, and whose index reads them. -/
structure Standing (crypto : Crypto) (headers : Set Header) (genesis : Genesis) (hc : HeaderChain) :
    Prop extends Stocked crypto headers genesis hc where
  path : ∃ p, (genesis.forest crypto).Path (hc.Held crypto) (hc.currentHeader.link crypto :: p) ∧
    Indexes crypto genesis (hc.currentHeader.link crypto :: p) hc.canonical

section Storing
variable {ptd : ℕ} (tree : HeaderTree crypto headers)
include tree

section

variable (stocked : hc.Stocked crypto headers genesis) (mem : header ∈ headers)
include stocked mem

theorem Stocked.parent_of_td
    (known : hc.td header.parentHash (header.numberU64 - 1) = some ptd) :
    ∃ parent ∈ headers, hc.headers header.parentHash (header.numberU64 - 1) = some parent ∧
      header.parentHash = parent.hash crypto ∧ header.number = parent.number + 1 := by
  have weighed := stocked.weighed header.parentHash (header.numberU64 - 1)
  rw [known] at weighed
  obtain ⟨parent, found⟩ := Option.isSome_iff_exists.mp weighed.symm
  obtain ⟨parent_mem, hashed, numbered⟩ := stocked.stored found
  exact ⟨parent, parent_mem, found, hashed.symm, tree.number_succ mem parent_mem numbered⟩

theorem Stocked.store
    (known : hc.td header.parentHash (header.numberU64 - 1) = some ptd) (externTd : ℕ) :
    (hc.store crypto header externTd).Stocked crypto headers genesis := by
  obtain ⟨parent, parent_mem, -, up, above⟩ := stocked.parent_of_td tree mem known
  constructor
  case genesis_mem => exact stocked.genesis_mem
  case genesis_eq => exact stocked.genesis_eq
  case stored =>
    intro hash number h found
    rcases ite_eq_iff.mp found with ⟨here, same⟩ | ⟨-, found⟩
    · cases same
      exact ⟨mem, here.1.symm, here.2.symm⟩
    · exact stocked.stored found
  case child =>
    intro hash number h found
    rcases ite_eq_iff.mp found with ⟨-, same⟩ | ⟨-, found⟩
    · cases same
      exact .inr ⟨parent, parent_mem, up, above⟩
    · exact stocked.child found
  case weighed =>
    intro hash number
    simp only [HeaderChain.store]
    by_cases here : hash = header.hash crypto ∧ number = header.numberU64
    · rw [if_pos here, if_pos here]
      rfl
    · rw [if_neg here, if_neg here]
      exact stocked.weighed hash number
  case current_mem => exact stocked.current_mem
  case current_hash => exact stocked.current_hash

theorem Stocked.held_store
    (externTd : ℕ) (a : Link)
    (held : hc.Held crypto a) : (hc.store crypto header externTd).Held crypto a := by
  obtain ⟨h, h_mem, found, rfl⟩ := stocked.held_mem held
  by_cases here : (h.link crypto).hash = header.hash crypto ∧
      UInt64.ofNat (h.link crypto).number = header.numberU64
  · exact ⟨header, if_pos here, tree.linked header mem h h_mem here.1.symm⟩
  · exact ⟨h, (if_neg here).trans found, rfl⟩

end

theorem rooted_store (mem : header ∈ headers) (externTd : ℕ)
    {n : ℕ} (low : n < header.number) (hash : Hash) :
    (hc.store crypto header externTd).rooted crypto n hash = hc.rooted crypto n hash := by
  have bound := tree.below header mem
  induction n generalizing hash with
  | zero => rfl
  | succ n ih =>
    have apart : UInt64.ofNat (n + 1) ≠ header.numberU64 := by
      intro same
      have toNat := congrArg UInt64.toNat same
      rw [tree.toNat_number mem, UInt64.toNat_ofNat', Nat.mod_eq_of_lt (by omega)] at toNat
      omega
    have unread : (hc.store crypto header externTd).headers hash (UInt64.ofNat (n + 1)) =
        hc.headers hash (UInt64.ofNat (n + 1)) := if_neg fun both => apart both.2
    rw [rooted, rooted, unread]
    cases hc.headers hash (UInt64.ofNat (n + 1)) with
    | none => rfl
    | some h => exact ih (by omega) h.parentHash

theorem Standing.store (standing : hc.Standing crypto headers genesis) (mem : header ∈ headers)
    (known : hc.td header.parentHash (header.numberU64 - 1) = some ptd) (externTd : ℕ) :
    (hc.store crypto header externTd).Standing crypto headers genesis := by
  obtain ⟨p, path, indexes⟩ := standing.path
  exact ⟨standing.toStocked.store tree mem known externTd,
    p, path.mono (standing.toStocked.held_store tree mem externTd), indexes⟩

end Storing

theorem Standing.headTd (standing : hc.Standing crypto headers genesis) :
    ∃ localTd, hc.td hc.currentHeaderHash hc.currentHeader.numberU64 = some localTd := by
  obtain ⟨p, path, -⟩ := standing.path
  obtain ⟨h, found, -⟩ := path.all_held _ mem_cons_self
  apply Option.isSome_iff_exists.mp
  rw [standing.weighed, standing.current_hash]
  exact Option.isSome_of_mem found

theorem Standing.cleared (tree : HeaderTree crypto headers)
    (standing : hc.Standing crypto headers genesis)
    (path : (genesis.forest crypto).Path (hc.Held crypto) (hc.currentHeader.link crypto :: p))
    (indexes : Indexes crypto genesis (hc.currentHeader.link crypto :: p) hc.canonical)
    (mem : header ∈ headers) :
    ∃ cleared, deleteAbove hc.canonical turns (header.numberU64 + 1) = .returns cleared ∧
      ∀ k : UInt64, cleared k = if k.toNat ≤ header.number then hc.canonical k else none := by
  have bound := tree.below header mem
  have top_bound := tree.below hc.currentHeader standing.current_mem
  have present (k : UInt64) :
      readCanonicalHash hc.canonical k = 0 ↔ hc.currentHeader.number < k.toNat := by
    have some_iff := indexes.isSome_iff path k
    rw [readCanonicalHash]
    cases found : hc.canonical k with
    | none =>
      rw [found] at some_iff
      have above : ¬k.toNat ≤ hc.currentHeader.number := fun low => by simpa using some_iff.mpr low
      simp only [Option.getD_none, true_iff]
      omega
    | some named =>
      rw [found] at some_iff
      have below : k.toNat ≤ hc.currentHeader.number := some_iff.mp rfl
      rw [indexes] at found
      obtain ⟨b, member, -, rfl⟩ := Forest.exists_of_keyAt found
      have nonzero := standing.held_nonzero tree (path.all_held b member)
      simp only [Option.getD_some]
      exact ⟨fun zero => absurd zero nonzero, fun above => absurd above (by omega)⟩
  have next : (header.numberU64 + 1).toNat = header.number + 1 := by
    rw [UInt64.toNat_add, tree.toNat_number mem, UInt64.toNat_one, Nat.mod_eq_of_lt bound]
  have enough : hc.currentHeader.number < (header.numberU64 + 1).toNat + (2 ^ 64 - 1) := by omega
  obtain ⟨cleared, returned, spec⟩ := deleteAbove_returns top_bound present enough
  refine ⟨cleared, returned, ?_⟩
  intro k
  have above : header.numberU64 + 1 ≤ k ↔ header.number < k.toNat := by
    rw [UInt64.le_iff_toNat_le, next]
    omega
  rw [spec]
  by_cases low : k.toNat ≤ header.number
  · rw [if_pos low, if_neg (fun both => absurd (above.mp both.1) (by omega))]
  · rw [if_neg low]
    by_cases top : k.toNat ≤ hc.currentHeader.number
    · rw [if_pos ⟨above.mpr (by omega), top⟩]
    · rw [if_neg (fun both => top both.2), ← Option.not_isSome_iff_eq_none, indexes.isSome_iff path]
      exact top

theorem writeHeader_adopted (crypto : Crypto) {ptd localTd : ℕ} {cleared : UInt64 → Option Hash}
    (known : hc.td header.parentHash (header.numberU64 - 1) = some ptd)
    (head : hc.td hc.currentHeaderHash hc.currentHeader.numberU64 = some localTd)
    (adopted : hc.adopts coin header = true)
    (deleted : deleteAbove hc.canonical turns (header.numberU64 + 1) = .returns cleared) :
    hc.writeHeader crypto coin header = do
      let stored := hc.store crypto header (header.difficulty + ptd)
      let index ← stored.reroute turns header.parentHash (header.numberU64 - 1)
        (stored.headers header.parentHash (header.numberU64 - 1)) cleared
      return ({ stored with
        canonical := writeCanonicalHash index (header.hash crypto) header.numberU64
        currentHeader := header
        currentHeaderHash := header.hash crypto }, .canon) := by
  simp only [adopts, known, head] at adopted
  simp only [writeHeader, known, head, adopted, if_true, deleted]
  rfl

theorem Standing.extend (tree : HeaderTree crypto headers)
    (stocked : hc.Stocked crypto headers genesis) (mem : header ∈ headers)
    (found : hc.headers (header.hash crypto) header.numberU64 = some header)
    (path : (genesis.forest crypto).Path (hc.Held crypto) (a :: p)) (up : header.parentHash = a.hash)
    (above : header.number = a.number + 1) {index : UInt64 → Option Hash}
    (routed : ∀ k : UInt64, k.toNat ≠ header.number →
      index k = (genesis.forest crypto).keyAt (a :: p) k.toNat) :
    Standing crypto headers genesis { hc with
      canonical := writeCanonicalHash index (header.hash crypto) header.numberU64
      currentHeader := header
      currentHeaderHash := header.hash crypto } := by
  constructor
  case toStocked =>
    exact { stocked with current_mem := mem, current_hash := rfl }
  case path =>
    refine ⟨a :: p, .child ⟨header, found, rfl⟩ up above path, ?_⟩
    intro k
    rw [Forest.keyAt_cons]
    by_cases here : header.number = k.toNat
    · have same : k = header.numberU64 :=
        UInt64.toNat_inj.mp (here.symm.trans (tree.toNat_number mem).symm)
      exact (if_pos same).trans (if_pos here).symm
    · have apart : k ≠ header.numberU64 := by
        rintro rfl
        exact here (tree.toNat_number mem).symm
      exact (if_neg apart).trans ((routed k (Ne.symm here)).trans (if_neg here).symm)

/-- What `WriteHeader` does to a chain that stands: it refuses the header, stores it, makes it the
head, or reads a missing one. -/
inductive Written (crypto : Crypto) (headers : Set Header) (genesis : Genesis) (coin : Bool)
    (hc : HeaderChain) (header : Header) : Prop
  | refused (adopted : hc.adopts coin header = false)
      (returned : hc.writeHeader crypto coin header = .fails .unknownAncestor)
  | side {after : HeaderChain} (adopted : hc.adopts coin header = false)
      (returned : hc.writeHeader crypto coin header = .returns (after, .side))
      (standing : after.Standing crypto headers genesis)
  | canon {after : HeaderChain} (rooted : hc.rooted crypto (header.number - 1) header.parentHash)
      (returned : hc.writeHeader crypto coin header = .returns (after, .canon))
      (standing : after.Standing crypto headers genesis)
  | cut (adopted : hc.adopts coin header = true)
      (missing : hc.rooted crypto (header.number - 1) header.parentHash = false)
      (panics : hc.writeHeader crypto coin header = .panics)

theorem Standing.written (tree : HeaderTree crypto headers)
    (standing : hc.Standing crypto headers genesis) (mem : header ∈ headers) (coin : Bool) :
    Written crypto headers genesis coin hc header := by
  cases known : hc.td header.parentHash (header.numberU64 - 1) with
  | none =>
    apply Written.refused
    · simp only [adopts, known]
    · simp only [writeHeader, known]
  | some ptd =>
    obtain ⟨localTd, head⟩ := standing.headTd
    have choice : hc.adopts coin header =
        (decide (localTd < header.difficulty + ptd) ||
          header.difficulty + ptd == localTd && coin) := by
      simp only [adopts, known, head]
    have stored := standing.store tree mem known (header.difficulty + ptd)
    cases adopted : hc.adopts coin header with
    | false =>
      refine .side adopted ?_ stored
      simp only [writeHeader, known, head, ← choice, adopted]
      rfl
    | true =>
      obtain ⟨p, path, indexes⟩ := standing.path
      obtain ⟨cleared, deleted, spec⟩ := standing.cleared tree path indexes mem
      have old_path := path.mono (standing.held_store tree mem (header.difficulty + ptd))
      obtain ⟨parent, parent_mem, -, up, above⟩ :=
        standing.toStocked.parent_of_td tree mem known
      have bound := tree.below header mem
      have down : header.numberU64 - 1 = UInt64.ofNat parent.number := ofNat_sub_one above
      have agrees : Agrees crypto genesis (hc.currentHeader.link crypto :: p) parent.number
          cleared := by
        intro k low
        rw [spec, if_pos (by omega), indexes]
      have kept : (hc.store crypto header (header.difficulty + ptd)).rooted crypto parent.number
          header.parentHash = hc.rooted crypto parent.number header.parentHash :=
        rooted_store tree mem _ (by omega) _
      have below : header.number - 1 = parent.number := by omega
      have room : parent.number ≤ 2 ^ 64 - 1 := by omega
      have call := writeHeader_adopted crypto known head adopted deleted
      rw [down] at call
      cases line : hc.rooted crypto parent.number header.parentHash with
      | false =>
        refine .cut adopted (below.symm ▸ line) (call.trans ?_)
        have panics := reroute_panics tree stored.toStocked old_path room (by omega)
          (up ▸ tree.nonzero parent parent_mem) (kept.trans line) agrees
        exact congrArg (· >>= _) panics
      | true =>
        obtain ⟨a, q, new_path, hashed, numbered⟩ := stored.path_of_rooted tree
          (old_path.all_held _ old_path.root_mem) (by omega) (kept.trans line)
        rw [← numbered] at agrees room
        obtain ⟨routed, returned, routes⟩ := reroute_returns tree stored.toStocked old_path
          new_path room agrees
        have index_eq (k : UInt64) (apart : k.toNat ≠ header.number) :
            routed k = (genesis.forest crypto).keyAt (a :: q) k.toNat := by
          rw [routes]
          by_cases low : k.toNat ≤ a.number
          · rw [if_pos low]
          · have unset : (genesis.forest crypto).keyAt (a :: q) k.toNat = none := by
              rw [← Option.not_isSome_iff_eq_none, new_path.isSome_iff]
              exact low
            rw [if_neg low, spec, if_neg (by omega), unset]
        have found : (hc.store crypto header (header.difficulty + ptd)).headers
            (header.hash crypto) header.numberU64 = some header := if_pos ⟨rfl, rfl⟩
        refine .canon (below.symm ▸ line) (call.trans ?_)
          (Standing.extend tree stored.toStocked mem found new_path hashed.symm
            (above.trans (congrArg (· + 1) numbered.symm)) index_eq)
        rw [← hashed, ← numbered]
        exact congrArg (· >>= _) returned

theorem unwind_returns (tree : HeaderTree crypto headers)
    (stocked : hc.Stocked crypto headers genesis) (head : UInt64) {h : Header} (mem : h ∈ headers)
    (path : (genesis.forest crypto).Path (hc.Held crypto) (h.link crypto :: p)) {left : ℕ}
    (enough : h.number ≤ left) :
    ∃ above last low, hc.unwind head (left + 1) (some h) = .returns (above, some last) ∧
      last ∈ headers ∧ h.link crypto :: p = above.map (Header.link crypto) ++ last.link crypto :: low ∧
      (∀ b ∈ above, b ∈ headers ∧ head < b.numberU64) ∧ last.number ≤ head.toNat ∧
      (above = [] ∨ last.number = head.toNat) := by
  have number_iff {b : Header} (b_mem : b ∈ headers) :
      head < b.numberU64 ↔ head.toNat < b.number := by
    rw [UInt64.lt_iff_toNat_lt, tree.toNat_number b_mem]
  induction p generalizing h left with
  | nil =>
    have zero : h.number = 0 := by
      have root := path.eq_root
      exact (congrArg Link.number root).trans genesis.first
    have low : ¬head < h.numberU64 := by
      rw [number_iff mem]
      omega
    refine ⟨[], h, [], ?_, mem, rfl, by simp, by omega, .inl rfl⟩
    rw [unwind, if_neg low]
  | cons b p ih =>
    by_cases high : head < h.numberU64
    · obtain ⟨parent, height, lower⟩ := path.parent_of
      have above_b : h.number = b.number + 1 := height
      obtain ⟨g, g_mem, found, rfl⟩ := stocked.held_mem (lower.all_held b mem_cons_self)
      obtain ⟨left, rfl⟩ : ∃ fewer, left = fewer + 1 := ⟨left - 1, by omega⟩
      have smaller : g.number ≤ left := by
        have : (g.link crypto).number = g.number := rfl
        omega
      obtain ⟨above, last, low, returned, last_mem, split, deleted, small, stops⟩ :=
        ih g_mem lower smaller
      refine ⟨h :: above, last, low, ?_, last_mem, ?_, ?_, small, .inr ?_⟩
      · rw [unwind, if_pos high, show h.parentHash = (g.link crypto).hash from parent,
          show h.numberU64 - 1 = _ from ofNat_sub_one above_b, found, returned]
        rfl
      · rw [split]
        rfl
      · intro c member
        rcases mem_cons.mp member with rfl | member
        · exact ⟨mem, high⟩
        · exact deleted c member
      · rcases stops with rfl | stops
        · -- the new head is the parent of the last header deleted
          have top := congrArg Link.number (cons_eq_cons.mp split).1
          have same : g.number = last.number := top
          have beyond := (number_iff mem).mp high
          have : (g.link crypto).number = g.number := rfl
          omega
        · exact stops
    · refine ⟨[], h, b :: p, ?_, mem, rfl, by simp, ?_, .inl rfl⟩
      · rw [unwind, if_neg high]
      · rw [number_iff mem] at high
        omega

theorem Indexes.rewound {held : Link → Prop} {above low : List Link} {head height : UInt64}
    {index : UInt64 → Option Hash} (indexes : Indexes crypto genesis (above ++ a :: low) index)
    (whole : (genesis.forest crypto).Path held (above ++ a :: low)) (small : a.number ≤ head.toNat)
    (stops : above = [] ∨ a.number = head.toNat) (top : height.toNat = a.number + above.length) :
    Indexes crypto genesis (a :: low) fun k => if head < k ∧ k ≤ height then none else index k := by
  intro k
  have listed : ((genesis.forest crypto).keyAt above k.toNat).isSome ↔
      a.number < k.toNat ∧ k.toNat ≤ a.number + above.length := whole.above_iff k.toNat
  have reaches : ((genesis.forest crypto).keyAt (a :: low) k.toNat).isSome ↔ k.toNat ≤ a.number :=
    whole.lower.isSome_iff k.toNat
  have cut : (head < k ∧ k ≤ height) ↔
      head.toNat < k.toNat ∧ k.toNat ≤ a.number + above.length := by
    rw [UInt64.lt_iff_toNat_lt, UInt64.le_iff_toNat_le, top]
  by_cases removed : head < k ∧ k ≤ height
  · refine (if_pos removed).trans (Eq.symm ?_)
    rw [← Option.not_isSome_iff_eq_none, reaches]
    have above_head := (cut.mp removed).1
    omega
  · have none_above : (genesis.forest crypto).keyAt above k.toNat = none := by
      rw [← Option.not_isSome_iff_eq_none, listed]
      rintro ⟨beyond, under⟩
      rcases stops with rfl | stops
      · simp only [length_nil] at under
        omega
      · exact removed (cut.mpr ⟨by omega, under⟩)
    refine (if_neg removed).trans ?_
    rw [indexes, Forest.keyAt_append, none_above, Option.none_or]

theorem Standing.setHead (tree : HeaderTree crypto headers)
    (standing : hc.Standing crypto headers genesis) (head : UInt64) :
    ∃ after, hc.setHead crypto head = .returns after ∧ after.Standing crypto headers genesis := by
  obtain ⟨p, path, indexes⟩ := standing.path
  have room : hc.currentHeader.number ≤ 2 ^ 64 - 1 := by
    have bound := tree.below _ standing.current_mem
    omega
  obtain ⟨above, last, low, returned, last_mem, split, deleted, small, stops⟩ :=
    unwind_returns tree standing.toStocked head standing.current_mem path room
  have kept (hash : Hash) (number : UInt64) (low : number ≤ head) :
      (hash, number) ∉ above.map fun hdr => (hdr.hash crypto, hdr.numberU64) := by
    intro member
    obtain ⟨hdr, in_above, same⟩ := mem_map.mp member
    have high := (deleted hdr in_above).2
    rw [(Prod.mk.inj same).2] at high
    exact absurd high (UInt64.not_lt.mpr low)
  have whole := path
  rw [split] at whole indexes
  have lower := whole.lower
  refine ⟨_, congrArg (· >>= _) returned, ?_⟩
  constructor
  case toStocked =>
    constructor
    case genesis_mem => exact standing.genesis_mem
    case genesis_eq => exact standing.genesis_eq
    case stored =>
      intro hash number h found
      exact standing.stored (Option.ite_none_left_eq_some.mp found).2
    case child =>
      intro hash number h found
      exact standing.child (Option.ite_none_left_eq_some.mp found).2
    case weighed =>
      intro hash number
      by_cases gone : (hash, number) ∈ above.map fun hdr => (hdr.hash crypto, hdr.numberU64)
      · simp only [gone, if_true]
        rfl
      · simp only [gone, if_false]
        exact standing.weighed hash number
    case current_mem => exact last_mem
    case current_hash => rfl
  case path =>
    refine ⟨low, lower.transfer ?_, ?_⟩
    · intro a member
      obtain ⟨h, found, linked⟩ := lower.all_held a member
      refine ⟨h, (if_neg (kept _ _ ?_)).trans found, linked⟩
      have below : a.number ≤ last.number := lower.height_le a member
      rw [UInt64.le_iff_toNat_le, Held.toNat_number tree standing.toStocked ⟨h, found, linked⟩]
      omega
    · have top : hc.currentHeader.numberU64.toNat = last.number + above.length := by
        have old_length : p.length = hc.currentHeader.number := path.length_eq
        have new_length : low.length = last.number := lower.length_eq
        have lengths := congrArg List.length split
        simp only [length_cons, length_append, length_map] at lengths
        rw [tree.toNat_number standing.current_mem]
        omega
      refine indexes.rewound whole small ?_ (top.trans (by rw [length_map]; rfl))
      exact stops.imp_left (congrArg (List.map (Header.link crypto)))

inductive OnPath (hc : HeaderChain) : Header → Prop
  | head : OnPath hc hc.currentHeader
  | parent {h parent : Header} : OnPath hc h →
      hc.headers h.parentHash (h.numberU64 - 1) = some parent → OnPath hc parent

/-- There is a canonical hash for the numbers up to the head's, and it is that of the head's
ancestor of that number. -/
def IndexFollows (crypto : Crypto) (hc : HeaderChain) : Prop :=
  ∀ number : UInt64, ((hc.canonical number).isSome ↔ number ≤ hc.currentHeader.numberU64) ∧
    ∀ hash, hc.canonical number = some hash →
      ∃ h, hc.OnPath h ∧ h.numberU64 = number ∧ h.hash crypto = hash

theorem OnPath.of_mem (stocked : hc.Stocked crypto headers genesis) {h : Header} (mem : h ∈ headers)
    (on_path : hc.OnPath h)
    (path : (genesis.forest crypto).Path (hc.Held crypto) (h.link crypto :: p)) :
    ∀ a ∈ h.link crypto :: p, ∃ g ∈ headers, hc.OnPath g ∧ g.link crypto = a := by
  induction p generalizing h with
  | nil =>
    intro a member
    cases mem_singleton.mp member
    exact ⟨h, mem, on_path, rfl⟩
  | cons b p ih =>
    intro a member
    rcases mem_cons.mp member with rfl | member
    · exact ⟨h, mem, on_path, rfl⟩
    · obtain ⟨parent, height, lower⟩ := path.parent_of
      obtain ⟨g, g_mem, found, rfl⟩ := stocked.held_mem (lower.all_held b mem_cons_self)
      have up : h.parentHash = (g.link crypto).hash := parent
      have down : h.number = (g.link crypto).number + 1 := height
      rw [← up, ← show h.numberU64 - 1 = _ from ofNat_sub_one down] at found
      exact ih g_mem (.parent on_path found) lower a member

theorem Standing.indexFollows (tree : HeaderTree crypto headers)
    (standing : hc.Standing crypto headers genesis) : hc.IndexFollows crypto := by
  obtain ⟨p, path, indexes⟩ := standing.path
  intro number
  constructor
  · rw [indexes.isSome_iff path, UInt64.le_iff_toNat_le, tree.toNat_number standing.current_mem]
    rfl
  · intro hash found
    rw [indexes] at found
    obtain ⟨a, member, height, rfl⟩ := Forest.exists_of_keyAt found
    obtain ⟨h, mem, on_path, rfl⟩ :=
      OnPath.of_mem standing.toStocked standing.current_mem .head path a member
    refine ⟨h, on_path, ?_, rfl⟩
    exact UInt64.toNat_inj.mp ((tree.toNat_number mem).trans height)

end HeaderChain

section Runs

inductive HeaderCall where
  | write (header : Header) (coin : Bool)
  | setHead (head : UInt64)
  deriving DecidableEq

def HeaderChain.call (crypto : Crypto) (hc : HeaderChain) : HeaderCall → Option HeaderChain
  | .write header coin =>
    match hc.writeHeader crypto coin header with
    | .returns (after, _) => some after
    | .fails _ => some hc
    | .panics => none
    | .runs => none
  | .setHead head =>
    match hc.setHead crypto head with
    | .returns after => some after
    | .fails _ => some hc
    | .panics => none
    | .runs => none

def headerStep (crypto : Crypto) (s : Option HeaderChain) (call : HeaderCall) :
    Option (Option HeaderChain) :=
  some (s.bind fun hc => hc.call crypto call)

def HeadersSound (crypto : Crypto) (s : Option HeaderChain) : Prop :=
  ∃ hc, s = some hc ∧ hc.IndexFollows crypto

/-- A header that is to be the head has all its ancestors among the stored headers: no rewind
has deleted one of them. -/
def Unbroken (crypto : Crypto) (s : Option HeaderChain) (call : HeaderCall) : Prop :=
  match s, call with
  | some hc, .write header coin =>
    hc.adopts coin header = true → hc.rooted crypto (header.number - 1) header.parentHash = true
  | _, _ => True

instance (crypto : Crypto) : ∀ s call, Decidable (Unbroken crypto s call)
  | some _, .write _ _ => inferInstanceAs (Decidable (_ → _))
  | some _, .setHead _ => inferInstanceAs (Decidable True)
  | none, .write _ _ => inferInstanceAs (Decidable True)
  | none, .setHead _ => inferInstanceAs (Decidable True)

def headersOf (genesis : Genesis) (calls : List HeaderCall) : Set Header :=
  {h | h = genesis.block.header ∨ ∃ coin, HeaderCall.write h coin ∈ calls}

structure HeaderChain.StartsAt (crypto : Crypto) (genesis : Genesis) (hc : HeaderChain) : Prop where
  stored : ∀ hash number, hc.headers hash number =
    if hash = genesis.block.hash crypto ∧ number = 0 then some genesis.block.header else none
  weights : ∀ hash number, (hc.td hash number).isSome = (hc.headers hash number).isSome
  canonical : ∀ number, hc.canonical number =
    if number = 0 then some (genesis.block.hash crypto) else none
  genesis_eq : hc.genesisHeader = genesis.block.header
  head : hc.currentHeader = genesis.block.header
  head_hash : hc.currentHeaderHash = genesis.block.hash crypto

variable {crypto : Crypto} {headers : Set Header} {genesis : Genesis} {hc : HeaderChain}

theorem HeaderChain.StartsAt.standing (starts : hc.StartsAt crypto genesis)
    (mem : genesis.block.header ∈ headers) : hc.Standing crypto headers genesis := by
  have zero : genesis.block.header.numberU64 = 0 := by rw [Header.numberU64, genesis.first]; rfl
  have only {hash number h} (found : hc.headers hash number = some h) :
      hash = genesis.block.hash crypto ∧ number = 0 ∧ h = genesis.block.header := by
    rw [starts.stored, Option.ite_none_right_eq_some] at found
    obtain ⟨⟨hashed, first⟩, same⟩ := found
    exact ⟨hashed, first, (Option.some.inj same).symm⟩
  constructor
  case toStocked =>
    constructor
    case genesis_mem => exact mem
    case genesis_eq => exact starts.genesis_eq
    case stored =>
      intro hash number h found
      obtain ⟨rfl, rfl, rfl⟩ := only found
      exact ⟨mem, rfl, zero⟩
    case child =>
      intro hash number h found
      obtain ⟨-, -, rfl⟩ := only found
      exact .inl rfl
    case weighed => exact starts.weights
    case current_mem => exact starts.head ▸ mem
    case current_hash =>
      rw [starts.head_hash, starts.head]
      rfl
  case path =>
    rw [starts.head]
    refine ⟨[], .root ⟨genesis.block.header, ?_, rfl⟩, ?_⟩
    · rw [starts.stored]
      exact if_pos ⟨rfl, zero⟩
    · intro k
      rw [starts.canonical, Forest.keyAt_cons]
      have height : (genesis.forest crypto).height (genesis.block.header.link crypto) = 0 :=
        genesis.first
      rw [height]
      by_cases here : k = 0
      · subst here
        rfl
      · have apart : 0 ≠ k.toNat := fun same => here (UInt64.toNat_inj.mp same.symm)
        rw [if_neg here, if_neg apart]
        rfl

theorem HeaderChain.Standing.call (tree : HeaderTree crypto headers)
    (standing : hc.Standing crypto headers genesis) (call : HeaderCall)
    (known : ∀ header coin, call = .write header coin → header ∈ headers) :
    (Unbroken crypto (some hc) call ∧
      ∃ after, hc.call crypto call = some after ∧ after.Standing crypto headers genesis) ∨
    (¬Unbroken crypto (some hc) call ∧ hc.call crypto call = none) := by
  cases call with
  | setHead head =>
    obtain ⟨after, returned, standing⟩ := standing.setHead tree head
    exact .inl ⟨trivial, after, by simp only [HeaderChain.call, returned], standing⟩
  | write header coin =>
    cases standing.written tree (known header coin rfl) coin with
    | refused adopted returned =>
      refine .inl ⟨fun yes => absurd yes (by rw [adopted]; decide), hc, ?_, standing⟩
      simp only [HeaderChain.call, returned]
    | side adopted returned after_standing =>
      refine .inl ⟨fun yes => absurd yes (by rw [adopted]; decide), _, ?_, after_standing⟩
      simp only [HeaderChain.call, returned]
    | canon rooted returned after_standing =>
      refine .inl ⟨fun _ => rooted, _, ?_, after_standing⟩
      simp only [HeaderChain.call, returned]
    | cut adopted missing panics =>
      refine .inr ⟨fun unbroken => ?_, by simp only [HeaderChain.call, panics]⟩
      have whole := unbroken adopted
      rw [missing] at whole
      cases whole

/-- In any run from the first header, over any tree of headers, no call panics and the canonical
index follows the head all along exactly when no header becomes the head on a broken line of
ancestors. -/
theorem header_index_follows_iff (crypto : Crypto) (genesis : Genesis) (hc : HeaderChain)
    (calls : List HeaderCall) (tree : HeaderTree crypto (headersOf genesis calls))
    (starts : hc.StartsAt crypto genesis) :
    Always (headerStep crypto) (HeadersSound crypto) (some hc) calls ↔
      Guarded (headerStep crypto) (Unbroken crypto) (some hc) calls := by
  have start : hc.Standing crypto (headersOf genesis calls) genesis := starts.standing (.inl rfl)
  have of_tree : Guarded (headerStep crypto)
      (fun _ call => ∀ header coin, call = .write header coin → header ∈ headersOf genesis calls)
      (some hc) calls := by
    refine guarded_of_forall fun call member _ header coin same => ?_
    exact .inr ⟨coin, same ▸ member⟩
  -- a chain that has not panicked stands
  let Inv (s : Option HeaderChain) : Prop :=
    ∀ hc, s = some hc → hc.Standing crypto (headersOf genesis calls) genesis
  have keeps (s : Option HeaderChain) (call : HeaderCall) (t : Option HeaderChain) (inv : Inv s)
      (known : ∀ header coin, call = .write header coin → header ∈ headersOf genesis calls)
      (stepped : headerStep crypto s call = some t) : Inv t := by
    cases stepped
    intro after stepped
    obtain ⟨before, rfl, called⟩ := Option.bind_eq_some_iff.mp stepped
    rcases (inv before rfl).call tree call known with ⟨-, next, same, standing⟩ | ⟨-, panicked⟩
    · rw [called] at same
      cases same
      exact standing
    · rw [called] at panicked
      cases panicked
  refine always_iff_guarded_within keeps ?_ (fun _ same => Option.some.inj same ▸ start)
    ⟨hc, rfl, start.indexFollows tree⟩ of_tree
  rintro s call t inv ⟨before, rfl, -⟩ known stepped
  cases stepped
  rcases (inv before rfl).call tree call known with ⟨unbroken, next, same, standing⟩ | ⟨broken, none⟩
  · refine iff_of_true ⟨next, ?_, standing.indexFollows tree⟩ unbroken
    exact same
  · refine iff_of_false ?_ broken
    rintro ⟨after, same, -⟩
    rw [Option.bind_some, none] at same
    cases same

def sampleHeaderChain : HeaderChain :=
  let first := sampleFirst.block.header
  let at_ {α : Type} (a : α) (hash : Hash) (number : UInt64) : Option α :=
    if hash = first.hash sampleCrypto ∧ number = 0 then some a else none
  { headers := at_ first
    td := at_ 1
    canonical := fun number => if number = 0 then some (first.hash sampleCrypto) else none
    genesisHeader := first
    currentHeader := first
    currentHeaderHash := first.hash sampleCrypto }

theorem sampleHeaderChain_starts : sampleHeaderChain.StartsAt sampleCrypto sampleFirst := by
  constructor
  case stored => exact fun _ _ => rfl
  case weights =>
    intro hash number
    by_cases here : hash = sampleFirst.block.header.hash sampleCrypto ∧ number = 0
    · simp only [sampleHeaderChain, if_pos here]
      rfl
    · simp only [sampleHeaderChain, if_neg here]
      rfl
  case canonical => exact fun _ => rfl
  case genesis_eq => rfl
  case head => rfl
  case head_hash => rfl

def sampleChild (parent : Header) (difficulty : ℕ) : Header :=
  { parent with parentHash := parent.hash sampleCrypto, number := parent.number + 1, difficulty }

def sampleRewind (head : UInt64) : List HeaderCall :=
  let first := sampleChild sampleFirst.block.header 1
  let lighter := sampleChild first 1
  [.write first false, .write (sampleChild first 2) false, .write lighter false, .setHead head,
    .write (sampleChild lighter 1) false]

theorem sampleRewind_tree (head : UInt64) :
    HeaderTree sampleCrypto (headersOf sampleFirst (sampleRewind head)) := by
  let listed : List Header := sampleFirst.block.header :: (sampleRewind 0).filterMap fun
    | .write header _ => some header
    | .setHead _ => none
  have members {h : Header} (mem : h ∈ headersOf sampleFirst (sampleRewind head)) : h ∈ listed := by
    rcases mem with rfl | ⟨coin, written⟩
    · exact mem_cons_self
    · simp only [sampleRewind, mem_cons, HeaderCall.write.injEq, reduceCtorEq, false_or,
        not_mem_nil, or_false] at written
      refine mem_cons_of_mem _ (mem_filterMap.mpr ?_)
      rcases written with ⟨rfl, -⟩ | ⟨rfl, -⟩ | ⟨rfl, -⟩ | ⟨rfl, -⟩
      · exact ⟨_, .head _, rfl⟩
      · exact ⟨_, .tail _ (.head _), rfl⟩
      · exact ⟨_, .tail _ (.tail _ (.head _)), rfl⟩
      · exact ⟨_, .tail _ (.tail _ (.tail _ (.tail _ (.head _)))), rfl⟩
  have checked : (∀ a ∈ listed, ∀ b ∈ listed,
        (a.hash sampleCrypto = b.hash sampleCrypto → a.link sampleCrypto = b.link sampleCrypto) ∧
          (a.parentHash = b.hash sampleCrypto → a.number = b.number + 1)) ∧
      ∀ a ∈ listed, a.number + 1 < 2 ^ 64 ∧ a.hash sampleCrypto ≠ 0 := by decide +kernel
  exact ⟨fun a a_mem b b_mem => (checked.1 a (members a_mem) b (members b_mem)).1,
    fun a a_mem b b_mem => (checked.1 a (members a_mem) b (members b_mem)).2,
    fun a mem => (checked.2 a (members mem)).1, fun a mem => (checked.2 a (members mem)).2⟩

/-- A rewind that keeps the parent of the side header leaves its line whole. -/
theorem sampleRewind_follows :
    Guarded (headerStep sampleCrypto) (Unbroken sampleCrypto) (some sampleHeaderChain)
        (sampleRewind 1) ∧
      Always (headerStep sampleCrypto) (HeadersSound sampleCrypto) (some sampleHeaderChain)
        (sampleRewind 1) := by
  have guarded : Guarded (headerStep sampleCrypto) (Unbroken sampleCrypto) (some sampleHeaderChain)
      (sampleRewind 1) := by decide +kernel
  exact ⟨guarded, (header_index_follows_iff sampleCrypto sampleFirst _ _ (sampleRewind_tree 1)
    sampleHeaderChain_starts).mpr guarded⟩

/-- A rewind to the first header deletes the parent of the side header, whose child is then
written: the walk down its ancestors reads a header that is not there. -/
theorem sampleRewind_panics :
    HeaderTree sampleCrypto (headersOf sampleFirst (sampleRewind 0)) ∧
    sampleHeaderChain.StartsAt sampleCrypto sampleFirst ∧
    run (headerStep sampleCrypto) (some sampleHeaderChain) (sampleRewind 0) = some none ∧
    ¬Always (headerStep sampleCrypto) (HeadersSound sampleCrypto) (some sampleHeaderChain)
      (sampleRewind 0) := by
  have evaluated : (run (headerStep sampleCrypto) (some sampleHeaderChain) (sampleRewind 0)).any
      Option.isNone := by decide +kernel
  obtain ⟨last, ran, crashed⟩ := (Option.any_eq_true _ _).mp evaluated
  cases Option.isNone_iff_eq_none.mp crashed
  refine ⟨sampleRewind_tree 0, sampleHeaderChain_starts, ran, ?_⟩
  intro always
  obtain ⟨hc, same, -⟩ := always (sampleRewind 0) [] none (append_nil _).symm ran
  cases same

end Runs

end Anduschain
