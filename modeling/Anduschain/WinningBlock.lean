import Anduschain.FinalBlockTally
import Mathlib.Data.Int.ConditionallyCompleteOrder

/-! The miner's choice between competing league blocks (`SelectWinningBlock`) and
how it relates to the fairnode's tally of the same candidates. -/
namespace Anduschain
open ByteOrder OrderedChoice List

/-- `SelectWinningBlock`; the parity rule reads the number of the received block. -/
def selectWinningBlock (pblock : Option Header) (rblock : Header) : Header :=
  match pblock with
  | none => rblock
  | some pblock =>
    match compare rblock.difficulty pblock.difficulty with
    | .gt => rblock
    | .eq =>
      if pblock.nonce < rblock.nonce then rblock
      else if rblock.nonce = pblock.nonce then
        if rblock.number % 2 ^ 64 % 2 = 0 then
          if pblock.coinbase.toNat < rblock.coinbase.toNat then rblock else pblock
        else if rblock.coinbase.toNat < pblock.coinbase.toNat then rblock else pblock
      else pblock
    | .lt => pblock

def foldWinning (cands : List Header) : Option Header :=
  cands.foldl (fun p r => some (selectWinningBlock p r)) none

def weight (h : Header) : ℕ ×ₗ ℕ := toLex (h.difficulty, h.nonce.toNat)

variable (number : ℕ)

/-- The miner's rank: the coinbase counts upwards for even numbers and downwards for odd ones. -/
def minerRank (h : Header) : (ℕ ×ₗ ℕ) ×ₗ ℤ :=
  toLex (weight h, if number % 2 ^ 64 % 2 = 0 then (h.coinbase.toNat : ℤ) else -h.coinbase.toNat)

theorem minerRank_lt (p r : Header) :
    minerRank number p < minerRank number r ↔
      p.difficulty < r.difficulty ∨ p.difficulty = r.difficulty ∧
        (p.nonce.toNat < r.nonce.toNat ∨ p.nonce.toNat = r.nonce.toNat ∧
          if number % 2 ^ 64 % 2 = 0 then p.coinbase.toNat < r.coinbase.toNat
          else r.coinbase.toNat < p.coinbase.toNat) := by
  simp only [minerRank, weight, Prod.Lex.toLex_lt_toLex, toLex_inj, Prod.mk.injEq]
  split_ifs <;> omega

theorem selectWinningBlock_eq_argAux (p : Option Header) (r : Header)
    (numbered : r.number = number) :
    some (selectWinningBlock p r) =
      List.argAux (fun b c => minerRank number c < minerRank number b) p r := by
  subst numbered
  cases p with
  | none => rfl
  | some p =>
    have nonceLt : p.nonce < r.nonce ↔ p.nonce.toNat < r.nonce.toNat := UInt64.lt_iff_toNat_lt
    have nonceEq : r.nonce = p.nonce ↔ r.nonce.toNat = p.nonce.toNat := UInt64.toNat_inj.symm
    simp only [selectWinningBlock, List.argAux, minerRank_lt, nonceLt, nonceEq]
    rcases lt_trichotomy r.difficulty p.difficulty with less | same | more
    · simp [Nat.compare_eq_lt.mpr less, Nat.not_lt.mpr less.le, less.ne']
    · rw [Nat.compare_eq_eq.mpr same]
      rcases lt_trichotomy p.nonce.toNat r.nonce.toNat with lower | equal | higher
      · simp [same, lower]
      · by_cases even : r.number % 2 ^ 64 % 2 = 0
        · simp only [same, equal, even, if_true, lt_irrefl, if_false, false_or, true_and]
          split <;> rfl
        · simp only [same, equal, even, if_true, lt_irrefl, if_false, false_or, true_and]
          split <;> rfl
      · simp [same, Nat.not_lt.mpr higher.le, higher.ne, higher.ne']
    · simp [Nat.compare_eq_gt.mpr more, more]

theorem foldWinning_eq_argmax {cands : List Header} {number : ℕ}
    (numbered : ∀ h ∈ cands, h.number = number) :
    foldWinning cands = cands.argmax (minerRank number) := by
  rw [foldWinning, List.argmax]
  exact foldl_ext _ _ _ fun p r member =>
    selectWinningBlock_eq_argAux number p r (numbered r member)

/-- Miners that were sent the same candidates, in any order and any number of times, hold the
same winner exactly when one candidate alone has the highest rank. -/
theorem foldWinning_deliveries_iff {cands : List Header} {number : ℕ}
    (numbered : ∀ h ∈ cands, h.number = number) :
    (∀ l₁ l₂ : List Header, (∀ h, h ∈ l₁ ↔ h ∈ cands) → (∀ h, h ∈ l₂ ↔ h ∈ cands) →
      foldWinning l₁ = foldWinning l₂) ↔
      ∀ a b, IsBest (minerRank number) cands a → IsBest (minerRank number) cands b → a = b := by
  have choice (l : List Header) (sent : ∀ h, h ∈ l ↔ h ∈ cands) :
      foldWinning l = l.argmax (minerRank number) :=
    foldWinning_eq_argmax fun h member => numbered h ((sent h).1 member)
  constructor
  · intro same
    refine (argmax_perm_iff (minerRank number) id cands).1 fun l₁ l₂ perm₁ perm₂ => ?_
    have sent₁ (h : Header) : h ∈ l₁ ↔ h ∈ cands := perm₁.mem_iff
    have sent₂ (h : Header) : h ∈ l₂ ↔ h ∈ cands := perm₂.mem_iff
    rw [← choice l₁ sent₁, ← choice l₂ sent₂, same l₁ l₂ sent₁ sent₂]
  · intro unique l₁ l₂ sent₁ sent₂
    rw [choice l₁ sent₁, choice l₂ sent₂]
    have best {l : List Header} {a : Header} (sent : ∀ h, h ∈ l ↔ h ∈ cands)
        (chosen : a ∈ l.argmax (minerRank number)) : IsBest (minerRank number) cands a :=
      ⟨(sent a).1 (argmax_mem chosen), fun b member => le_of_mem_argmax ((sent b).2 member) chosen⟩
    have toward {l l' : List Header} {a : Header} (sent : ∀ h, h ∈ l ↔ h ∈ cands)
        (sent' : ∀ h, h ∈ l' ↔ h ∈ cands) (chosen : a ∈ l.argmax (minerRank number)) :
        a ∈ l'.argmax (minerRank number) := by
      obtain ⟨b, chosen'⟩ := exists_mem_argmax (f := minerRank number)
        (ne_nil_of_mem ((sent' a).2 (best sent chosen).1))
      rwa [unique a b (best sent chosen) (best sent' chosen')]
    exact Option.ext fun a => ⟨toward sent₁ sent₂, toward sent₂ sent₁⟩

structure EqualVotes (crypto : Crypto) (cands : List Header) (number count : ℕ)
    (voters : List Voter) (order : List (Header × ℕ)) : Prop where
  nonempty : cands ≠ []
  numbered : ∀ h ∈ cands, h.number = number
  coinbases : (cands.map Header.coinbase).Nodup
  free : CollisionFree crypto {h | h ∈ cands}
  counted : 0 < count
  votes : (votedHeaders voters).Perm (cands.flatMap (List.replicate count))
  iter : MapOrder crypto voters order

section EqualVotes
variable {crypto : Crypto} {cands : List Header} {number count : ℕ} {voters : List Voter}
  {order : List (Header × ℕ)} (round : EqualVotes crypto cands number count voters order)
include round

theorem eq_of_coinbase {a b : Header}
    (ha : a ∈ cands) (hb : b ∈ cands) (same : a.coinbase.toNat = b.coinbase.toNat) : a = b :=
  inj_on_of_nodup_map round.coinbases ha hb (BitVec.toNat_inj.mp same)

theorem eq_of_hash {a b : Header}
    (ha : a ∈ cands) (hb : b ∈ cands) (same : a.hash crypto = b.hash crypto) : a = b := by
  obtain ⟨-, -, -, coinbase⟩ := Header.hashed_inj (round.free a ha b hb same)
  exact eq_of_coinbase round ha hb (by rw [coinbase])

theorem voted_iff (h : Header) : h ∈ votedHeaders voters ↔ h ∈ cands := by
  rw [round.votes.mem_iff]
  simp [mem_flatMap, mem_replicate, round.counted.ne']

theorem votesFor_cand {h : Header}
    (member : h ∈ cands) : votesFor crypto voters (h.hash crypto) = count := by
  have hashes : (cands.map (Header.hash crypto)).Nodup :=
    List.Nodup.map_on (fun a ha b hb same => eq_of_hash round ha hb same)
      (List.Nodup.of_map _ round.coinbases)
  rw [votesFor, (round.votes.filter _).length_eq]
  exact length_filter_replicate (Header.hash crypto) count hashes member

theorem tally_of_equalVotes :
    ∃ top, IsBest weight cands top ∧
      (∀ h ∈ cands, weight h = weight top → h.coinbase.toNat ≤ top.coinbase.toNat) ∧
      validationFinalBlockHash crypto voters order = some (top.hash crypto) := by
  have voted : votedHeaders voters ≠ [] := by
    obtain ⟨h, others, rfl⟩ := exists_cons_of_ne_nil round.nonempty
    exact ne_nil_of_mem ((voted_iff round h).mpr mem_cons_self)
  have nonempty : voters ≠ [] := by
    rintro rfl
    exact voted rfl
  have free : CollisionFree crypto {h | h ∈ votedHeaders voters} := by
    intro a ha b hb same
    exact round.free a ((voted_iff round a).mp ha) b ((voted_iff round b).mp hb) same
  rcases validationFinalBlockHash_cases free nonempty (.refl _) round.iter with
    ⟨empty, -⟩ | ⟨top, leading, result⟩
  · exact absurd empty voted
  · have member := (voted_iff round top).mp leading.1
    have le (h : Header) (inside : h ∈ cands) : rank (h, count) ≤ rank (top, count) := by
      have := leading.2 h ((voted_iff round h).mpr inside)
      rwa [votesFor_cand round inside, votesFor_cand round member] at this
    simp only [rank, Prod.Lex.toLex_le_toLex] at le
    refine ⟨top, ⟨member, ?_⟩, ?_, result⟩
    · intro h inside
      have := le h inside
      simp only [weight, Prod.Lex.toLex_le_toLex]
      omega
    · intro h inside same
      have := le h inside
      simp only [weight, toLex_inj, Prod.mk.injEq] at same
      omega

theorem foldWinning_of_equalVotes :
    ∃ win, IsBest weight cands win ∧
      (∀ h ∈ cands, weight h = weight win →
        if number % 2 ^ 64 % 2 = 0 then h.coinbase.toNat ≤ win.coinbase.toNat
        else win.coinbase.toNat ≤ h.coinbase.toNat) ∧
      foldWinning cands = some win := by
  obtain ⟨win, chosen⟩ := exists_mem_argmax (f := minerRank number) round.nonempty
  have best := isBest_of_mem_argmax chosen
  have le (h : Header) (inside : h ∈ cands) : ¬ minerRank number win < minerRank number h :=
    not_lt.mpr (best.2 h inside)
  simp only [minerRank_lt] at le
  refine ⟨win, ⟨best.1, ?_⟩, ?_, by rw [foldWinning_eq_argmax round.numbered]; exact chosen⟩
  · intro h inside
    have := le h inside
    simp only [weight, Prod.Lex.toLex_le_toLex]
    omega
  · intro h inside same
    have := le h inside
    simp only [weight, toLex_inj, Prod.mk.injEq] at same
    split_ifs at this ⊢ <;> omega

end EqualVotes

/-- Fairnode and miners agree exactly when the number is even or one candidate
alone has the highest difficulty and nonce: for odd numbers the tally still
prefers the larger coinbase. -/
theorem tally_eq_foldWinning_iff (crypto : Crypto) (cands : List Header) (number count : ℕ)
    (voters : List Voter) (order : List (Header × ℕ))
    (round : EqualVotes crypto cands number count voters order) :
    validationFinalBlockHash crypto voters order = (foldWinning cands).map (Header.hash crypto) ↔
      number % 2 ^ 64 % 2 = 0 ∨
        ∀ a b, IsBest weight cands a → IsBest weight cands b → a = b := by
  obtain ⟨top, heavy, largest, result⟩ := tally_of_equalVotes round
  obtain ⟨win, heavyWin, extreme, folded⟩ := foldWinning_of_equalVotes round
  have level {h : Header} (best : IsBest weight cands h) : weight h = weight top ∧
      weight h = weight win :=
    ⟨le_antisymm (heavy.2 h best.1) (best.2 top heavy.1),
      le_antisymm (heavyWin.2 h best.1) (best.2 win heavyWin.1)⟩
  have agree : validationFinalBlockHash crypto voters order =
      (foldWinning cands).map (Header.hash crypto) ↔ top = win := by
    rw [result, folded, Option.map_some, Option.some.injEq]
    exact ⟨eq_of_hash round heavy.1 heavyWin.1, fun same => by rw [same]⟩
  have topLevel := (level heavy).2
  rw [agree]
  constructor
  · rintro rfl
    by_cases even : number % 2 ^ 64 % 2 = 0
    · exact .inl even
    · have single {h : Header} (best : IsBest weight cands h) : h = top := by
        have above := largest h best.1 (level best).1
        have below := extreme h best.1 (level best).2
        rw [if_neg even] at below
        exact eq_of_coinbase round best.1 heavy.1 (le_antisymm above below)
      exact .inr fun a b ha hb => (single ha).trans (single hb).symm
  · rintro (even | unique)
    · have above := largest win heavyWin.1 (level heavyWin).1
      have below := extreme top heavy.1 topLevel
      rw [if_pos even] at below
      exact eq_of_coinbase round heavy.1 heavyWin.1 (le_antisymm below above)
    · exact unique top win heavy heavyWin

def samplePair : List Header :=
  [{ sampleHeader with number, coinbase := 5 }, { sampleHeader with number, coinbase := 9 }]

theorem foldWinning_deliveries_at_two :
    foldWinning (samplePair 2) = foldWinning (samplePair 2 ++ samplePair 2).reverse := by
  have numbered : ∀ h ∈ samplePair 2, h.number = 2 := by simp [samplePair]
  refine (foldWinning_deliveries_iff numbered).2 (fun a b bestA bestB => ?_) _ _ (fun _ => .rfl)
    (by simp)
  have level := le_antisymm (bestB.2 a bestA.1) (bestA.2 b bestB.1)
  have memberA := bestA.1
  have memberB := bestB.1
  simp only [samplePair, mem_cons, not_mem_nil, or_false] at memberA memberB
  rcases memberA with rfl | rfl <;> rcases memberB with rfl | rfl <;>
    first | rfl | simp [minerRank] at level

def sampleVotes : List Voter :=
  (samplePair number).map fun h => { header := h.byte, voter := h.coinbase, voteSign := [] }

def sampleOrder : List (Header × ℕ) :=
  (voteResult sampleCrypto (sampleVotes number)).map Prod.snd

theorem samplePair_round
    (decoded : votedHeaders (sampleVotes number) = samplePair number)
    (hashes : ((samplePair number).map (Header.hash sampleCrypto)).Nodup) :
    EqualVotes sampleCrypto (samplePair number) number 1 (sampleVotes number) (sampleOrder number) where
  nonempty := by simp [samplePair]
  numbered := by simp [samplePair]
  coinbases := by simp [samplePair]
  free := collisionFree_of_nodup hashes
  counted := one_pos
  votes := by simp [decoded, samplePair]
  iter := .refl _

theorem tally_eq_foldWinning_at_two :
    validationFinalBlockHash sampleCrypto (sampleVotes 2) (sampleOrder 2) =
      (foldWinning (samplePair 2)).map (Header.hash sampleCrypto) :=
  (tally_eq_foldWinning_iff _ _ _ _ _ _
    (samplePair_round 2 (by decide +kernel) (by decide +kernel))).mpr (.inl rfl)

/-- At number one the tally takes the coinbase 9 and the miners take the coinbase 5. -/
theorem tally_ne_foldWinning_at_one :
    EqualVotes sampleCrypto (samplePair 1) 1 1 (sampleVotes 1) (sampleOrder 1) ∧
      validationFinalBlockHash sampleCrypto (sampleVotes 1) (sampleOrder 1) ≠
        (foldWinning (samplePair 1)).map (Header.hash sampleCrypto) := by
  refine ⟨samplePair_round 1 (by decide +kernel) (by decide +kernel), ?_⟩
  decide +kernel

end Anduschain
