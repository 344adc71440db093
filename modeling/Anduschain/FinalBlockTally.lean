import Anduschain.ChainTypes
import Anduschain.OrderedChoice
import Mathlib.Data.Prod.Lex

/-! The tally of a voting round (fairnode/verify) and the miner's own choice of
a winning block (consensus/deb), both as selections by rank. -/
namespace Anduschain
open ByteOrder OrderedChoice List

variable (crypto : Crypto) (voters : List Voter)

def votedHeaders : List Header :=
  voters.filterMap fun v => decodeHeader v.header

def voteResult : List (Hash × Header × ℕ) :=
  tally (Header.hash crypto) (votedHeaders voters)

/-- Whether the selection loop replaces `top` by `vs`. The two branches on the
parity of the number are the same comparison. -/
def beats (top vs : Header × ℕ) : Bool :=
  if top.2 < vs.2 then true
  else if top.2 = vs.2 then
    match compare top.1.difficulty vs.1.difficulty with
    | .gt => false
    | .eq =>
      if top.1.nonce < vs.1.nonce then true
      else if top.1.nonce = vs.1.nonce then
        if vs.1.number % 2 ^ 64 % 2 = 0 then decide (top.1.coinbase.toNat < vs.1.coinbase.toNat)
        else decide (top.1.coinbase.toNat < vs.1.coinbase.toNat)
      else false
    | .lt => true
  else false

def keepTop (top : Option (Header × ℕ)) (vs : Header × ℕ) : Option (Header × ℕ) :=
  match top with
  | none => some vs
  | some t => if beats t vs then some vs else some t

/-- `ValidationFinalBlockHash` for one iteration order of the map; `none` is the nil
dereference when no vote decodes. -/
def validationFinalBlockHash (order : List (Header × ℕ)) : Option Hash :=
  if voters = [] then some 0
  else (order.foldl keepTop none).map fun vs => vs.1.hash crypto

/-- The orders in which Go may range over the map of a list of votes. -/
def MapOrder (order : List (Header × ℕ)) : Prop :=
  order.Perm ((voteResult crypto voters).map Prod.snd)

def rank (vs : Header × ℕ) : ℕ ×ₗ ℕ ×ₗ ℕ ×ₗ ℕ :=
  toLex (vs.2, toLex (vs.1.difficulty, toLex (vs.1.nonce.toNat, vs.1.coinbase.toNat)))

theorem beats_iff (top vs : Header × ℕ) : beats top vs = true ↔ rank top < rank vs := by
  have nonceLt : top.1.nonce < vs.1.nonce ↔ top.1.nonce.toNat < vs.1.nonce.toNat :=
    UInt64.lt_iff_toNat_lt
  have nonceEq : top.1.nonce = vs.1.nonce ↔ top.1.nonce.toNat = vs.1.nonce.toNat :=
    UInt64.toNat_inj.symm
  simp only [beats, rank, Prod.Lex.toLex_lt_toLex, nonceLt, nonceEq, ite_self]
  rcases lt_trichotomy top.1.difficulty vs.1.difficulty with less | same | more
  · simp [Nat.compare_eq_lt.mpr less, less]
  · simp [same]
  · simp [Nat.compare_eq_gt.mpr more, Nat.not_lt.mpr more.le, more.ne']

theorem keepTop_eq_argAux (top : Option (Header × ℕ)) (vs : Header × ℕ) :
    keepTop top vs = List.argAux (fun b c => rank c < rank b) top vs := by
  cases top with
  | none => rfl
  | some t => simp [keepTop, List.argAux, beats_iff]

theorem foldl_keepTop (order : List (Header × ℕ)) :
    order.foldl keepTop none = order.argmax rank := by
  rw [List.argmax]
  congr 1
  funext top vs
  exact keepTop_eq_argAux top vs

def votesFor (hash : Hash) : ℕ :=
  ((votedHeaders voters).filter (Header.hash crypto · = hash)).length

section Entries
variable {crypto : Crypto} {voters : List Voter}

theorem mem_entries {h : Header} {n : ℕ} :
    (h, n) ∈ (voteResult crypto voters).map Prod.snd ↔
      ((votedHeaders voters).filter (Header.hash crypto · = h.hash crypto)).head? = some h ∧
        n = votesFor crypto voters (h.hash crypto) := by
  constructor
  · intro member
    obtain ⟨⟨k, e⟩, entry, rfl⟩ := mem_map.mp member
    obtain ⟨first, count⟩ := mem_tally.mp entry
    have key : h.hash crypto = k := by
      simpa using (mem_filter.mp (mem_of_mem_head? first)).2
    subst key
    exact ⟨first, count⟩
  · rintro ⟨first, count⟩
    exact mem_map.mpr ⟨(h.hash crypto, h, n), mem_tally.mpr ⟨first, count⟩, rfl⟩

theorem voted_of_entry {h : Header} {n : ℕ} (member : (h, n) ∈ (voteResult crypto voters).map Prod.snd) :
    h ∈ votedHeaders voters :=
  (mem_filter.mp (mem_of_mem_head? (mem_entries.mp member).1)).1

theorem entry_of_voted {h : Header} (voted : h ∈ votedHeaders voters) :
    ∃ rep ∈ votedHeaders voters, rep.hash crypto = h.hash crypto ∧
      (rep, votesFor crypto voters (h.hash crypto)) ∈ (voteResult crypto voters).map Prod.snd := by
  have inside : h ∈ (votedHeaders voters).filter (Header.hash crypto · = h.hash crypto) :=
    mem_filter.mpr ⟨voted, by simp⟩
  obtain ⟨rep, others, split⟩ := exists_cons_of_ne_nil (ne_nil_of_mem inside)
  have member : rep ∈ (votedHeaders voters).filter (Header.hash crypto · = h.hash crypto) := by
    rw [split]
    exact mem_cons_self
  have same : rep.hash crypto = h.hash crypto := by simpa using (mem_filter.mp member).2
  refine ⟨rep, (mem_filter.mp member).1, same, mem_entries.mpr ⟨?_, ?_⟩⟩
  · rw [same, split, head?_cons]
  · rw [same]

theorem rank_eq_of_hash {h₁ h₂ : Header} (free : CollisionFree crypto {h | h ∈ votedHeaders voters})
    (voted₁ : h₁ ∈ votedHeaders voters) (voted₂ : h₂ ∈ votedHeaders voters)
    (same : h₁.hash crypto = h₂.hash crypto) (n : ℕ) : rank (h₁, n) = rank (h₂, n) := by
  obtain ⟨-, difficulty, nonce, coinbase⟩ := Header.hashed_inj (free h₁ voted₁ h₂ voted₂ same)
  simp only [rank, difficulty, nonce, coinbase]

theorem votesFor_perm {voters' : List Voter} (perm : voters'.Perm voters) (hash : Hash) :
    votesFor crypto voters' hash = votesFor crypto voters hash :=
  ((perm.filterMap _).filter _).length_eq

end Entries

theorem voted_of_validationFinalBlockHash {crypto : Crypto} {voters : List Voter}
    {order : List (Header × ℕ)} {hash : Hash} (iter : MapOrder crypto voters order)
    (result : validationFinalBlockHash crypto voters order = some hash) :
    (voters = [] ∧ hash = 0) ∨ ∃ h ∈ votedHeaders voters, h.hash crypto = hash := by
  unfold validationFinalBlockHash at result
  split at result
  · rename_i empty
    cases result
    exact .inl ⟨empty, rfl⟩
  · rw [foldl_keepTop, Option.map_eq_some_iff] at result
    obtain ⟨⟨h, n⟩, chosen, rfl⟩ := result
    have entry : (h, n) ∈ order := argmax_mem chosen
    exact .inr ⟨h, voted_of_entry (iter.mem_iff.mp entry), rfl⟩

/-- A voted header that no other one beats on count, difficulty, nonce and coinbase. -/
def Leading (h : Header) : Prop :=
  h ∈ votedHeaders voters ∧ ∀ other ∈ votedHeaders voters,
    rank (other, votesFor crypto voters (other.hash crypto)) ≤
      rank (h, votesFor crypto voters (h.hash crypto))

section Leading
variable {crypto : Crypto} {voters : List Voter}

theorem leading_of_isBest (free : CollisionFree crypto {h | h ∈ votedHeaders voters})
    {voters' : List Voter} (perm : voters'.Perm voters) {h : Header} {n : ℕ}
    (best : IsBest rank ((voteResult crypto voters').map Prod.snd) (h, n)) :
    Leading crypto voters h := by
  have headers : (votedHeaders voters').Perm (votedHeaders voters) := perm.filterMap _
  have voted : h ∈ votedHeaders voters := headers.mem_iff.mp (voted_of_entry best.1)
  refine ⟨voted, ?_⟩
  intro other votedOther
  obtain ⟨rep, votedRep, same, entry⟩ := entry_of_voted (headers.mem_iff.mpr votedOther)
  have votedRep' := headers.mem_iff.mp votedRep
  have le := best.2 _ entry
  rw [(mem_entries.mp best.1).2, votesFor_perm perm, votesFor_perm perm,
    rank_eq_of_hash free votedRep' votedOther same] at le
  exact le

theorem isBest_of_leading (free : CollisionFree crypto {h | h ∈ votedHeaders voters}) {h : Header}
    (leading : Leading crypto voters h) :
    ∃ rep, rep.hash crypto = h.hash crypto ∧ IsBest rank ((voteResult crypto voters).map Prod.snd)
      (rep, votesFor crypto voters (h.hash crypto)) := by
  obtain ⟨rep, votedRep, same, entry⟩ := entry_of_voted leading.1
  refine ⟨rep, same, entry, ?_⟩
  rintro ⟨other, n⟩ member
  have le := leading.2 other (voted_of_entry member)
  rw [(mem_entries.mp member).2, rank_eq_of_hash free votedRep leading.1 same]
  exact le

theorem entries_eq_nil {v : List Voter} :
    (voteResult crypto v).map Prod.snd = [] ↔ votedHeaders v = [] := by
  constructor
  · intro empty
    by_contra some
    obtain ⟨h, others, split⟩ := exists_cons_of_ne_nil some
    obtain ⟨rep, -, -, entry⟩ := @entry_of_voted crypto v h (by rw [split]; exact mem_cons_self)
    rw [empty] at entry
    cases entry
  · intro empty
    simp [voteResult, empty, tally]

theorem validationFinalBlockHash_cases (free : CollisionFree crypto {h | h ∈ votedHeaders voters})
    (nonempty : voters ≠ []) {v : List Voter} {order : List (Header × ℕ)} (perm : v.Perm voters)
    (iter : MapOrder crypto v order) :
    (votedHeaders voters = [] ∧ validationFinalBlockHash crypto v order = none) ∨
      ∃ h, Leading crypto voters h ∧
        validationFinalBlockHash crypto v order = some (h.hash crypto) := by
  have voted : v ≠ [] := by
    rintro rfl
    exact nonempty (nil_perm.mp perm)
  have headers : (votedHeaders v).Perm (votedHeaders voters) := perm.filterMap _
  simp only [validationFinalBlockHash, if_neg voted, foldl_keepTop]
  by_cases empty : order = []
  · subst empty
    have none : votedHeaders v = [] := entries_eq_nil.mp (nil_perm.mp iter)
    rw [none] at headers
    exact .inl ⟨nil_perm.mp headers, rfl⟩
  · obtain ⟨⟨h, n⟩, chosen⟩ := exists_mem_argmax (f := rank) empty
    have best : IsBest rank ((voteResult crypto v).map Prod.snd) (h, n) :=
      (isBest_of_mem_argmax chosen).perm iter
    exact .inr ⟨h, leading_of_isBest free perm best, by rw [Option.mem_def.mp chosen, Option.map_some]⟩

end Leading

end Anduschain
