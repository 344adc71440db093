import Anduschain.PoaEngine
import Mathlib.Data.List.Sort

/-! The voting snapshots of the proof-of-authority engines (snapshot.go of consensus/clique,
consensus/layer2 and consensus/sse, which differ in the check of recent signers only): the votes
on signers that the headers carry, their tally, and `apply`. -/
namespace Anduschain
open CheckedSteps List

structure Vote where
  signer : Address
  block : UInt64
  address : Address
  authorize : Bool
  deriving DecidableEq

structure Tally where
  authorize : Bool
  votes : ℕ
  deriving DecidableEq

def addSigner (signers : List Address) (address : Address) : List Address :=
  if address ∈ signers then signers else signers.orderedInsert (· ≤ ·) address

variable {signers : List Address} {address : Address}

@[simp] theorem mem_addSigner {other : Address} :
    other ∈ addSigner signers address ↔ other = address ∨ other ∈ signers := by
  unfold addSigner
  split
  case isTrue member =>
    constructor
    · exact .inr
    · rintro (rfl | old)
      · exact member
      · exact old
  case isFalse => exact mem_orderedInsert _

theorem nodup_addSigner (distinct : signers.Nodup) (address : Address) :
    (addSigner signers address).Nodup := by
  unfold addSigner
  split
  case isTrue => exact distinct
  case isFalse new => exact (perm_orderedInsert _ _ _).nodup_iff.mpr (nodup_cons.mpr ⟨new, distinct⟩)

theorem length_addSigner (new : address ∉ signers) :
    (addSigner signers address).length = signers.length + 1 := by
  rw [addSigner, if_neg new, orderedInsert_length]

structure Poll extends Snapshot where
  votes : List Vote
  tally : Address → Option Tally
  distinct : signers.Nodup

structure VotingSnapshot extends Poll where
  number : UInt64
  hash : Hash

theorem nodup_foldl_addSigner {known : List Address} (distinct : known.Nodup) (signers : List Address) :
    (signers.foldl addSigner known).Nodup := by
  induction signers generalizing known with
  | nil => exact distinct
  | cons signer rest ih => exact ih (nodup_addSigner distinct signer)

def newSnapshot (number : UInt64) (hash : Hash) (signers : List Address) : VotingSnapshot where
  signers := signers.foldl addSigner []
  recents := []
  votes := []
  tally _ := none
  distinct := nodup_foldl_addSigner nodup_nil signers
  number
  hash

def uncast (tally : Address → Option Tally) (address : Address) (authorize : Bool) :
    Address → Option Tally :=
  match tally address with
  | none => tally
  | some old =>
    if old.authorize ≠ authorize then tally
    else Function.update tally address
      (if 1 < old.votes then some { old with votes := old.votes - 1 } else none)

namespace Poll
variable (s : Poll)

def limit : ℕ := s.signers.length / 2 + 1

def expire (epoch number : UInt64) : Poll :=
  if number % epoch = 0 then { s with votes := [], tally := fun _ => none } else s

/-- The oldest of the recent signers may sign again. -/
def forget (number : UInt64) : Poll :=
  let limit := UInt64.ofNat s.limit
  if limit ≤ number then { s with recents := s.recents.filter fun recent => recent.1 ≠ number - limit }
  else s

def remember (number : UInt64) (signer : Address) : Poll :=
  { s with recents := (number, signer) :: s.recents.filter fun recent => recent.1 ≠ number }

def withdraw (signer address : Address) : Poll :=
  match s.votes.find? fun vote => vote.signer = signer ∧ vote.address = address with
  | none => s
  | some vote =>
    { s with
      tally := uncast s.tally vote.address vote.authorize
      votes := s.votes.eraseP fun vote => vote.signer = signer ∧ vote.address = address }

def cast (number : UInt64) (signer address : Address) (authorize : Bool) : Poll :=
  if s.validVote address authorize then
    { s with
      tally := Function.update s.tally address <| some <|
        match s.tally address with
        | some old => { old with votes := old.votes + 1 }
        | none => { authorize, votes := 1 }
      votes := s.votes ++ [{ signer, block := number, address, authorize }] }
  else s

def silence (address : Address) : Poll :=
  { s with
    tally := (s.votes.filter fun vote => vote.signer = address).foldl
      (fun tally vote => uncast tally vote.address vote.authorize) s.tally
    votes := s.votes.filter fun vote => vote.signer ≠ address }

def admitSigner (address : Address) : Poll :=
  { s with
    signers := addSigner s.signers address
    distinct := nodup_addSigner s.distinct address }

def dropSigner (address : Address) : Poll :=
  { s with
    signers := s.signers.erase address
    distinct := s.distinct.erase address }

def close (address : Address) : Poll :=
  { s with
    votes := s.votes.filter fun vote => vote.address ≠ address
    tally := Function.update s.tally address none }

def settle (number : UInt64) (address : Address) : Poll :=
  match s.tally address with
  | none => s
  | some tally =>
    if s.signers.length / 2 < tally.votes then
      if tally.authorize then (s.admitSigner address).close address
      else (((s.dropSigner address).forget number).silence address).close address
    else s

end Poll

def PoaRule.spaced : PoaRule → Bool
  | .clique => true
  | .layer2 _ => false
  | .sse _ => true

def numbered : UInt64 → List Header → Bool
  | _, [] => true
  | number, header :: rest => UInt64.ofNat header.number == number && numbered (number + 1) rest

namespace Poll
variable (s : Poll)

@[simp] theorem expire_toSnapshot (epoch number : UInt64) :
    (s.expire epoch number).toSnapshot = s.toSnapshot := by
  unfold expire
  split <;> rfl

@[simp] theorem forget_signers (number : UInt64) : (s.forget number).signers = s.signers := by
  simp only [forget]
  split <;> rfl

@[simp] theorem forget_votes (number : UInt64) : (s.forget number).votes = s.votes := by
  simp only [forget]
  split <;> rfl

@[simp] theorem forget_tally (number : UInt64) : (s.forget number).tally = s.tally := by
  simp only [forget]
  split <;> rfl

@[simp] theorem withdraw_toSnapshot (signer address : Address) :
    (s.withdraw signer address).toSnapshot = s.toSnapshot := by
  unfold withdraw
  split <;> rfl

@[simp] theorem cast_toSnapshot (number : UInt64) (signer address : Address) (authorize : Bool) :
    (s.cast number signer address authorize).toSnapshot = s.toSnapshot := by
  unfold cast
  split <;> rfl

end Poll

namespace Poa
variable (crypto : Crypto) (c : Poa)

def ballot (s : Poll) (header : Header) : Except PoaError Poll := do
  let number := UInt64.ofNat header.number
  let ready := (s.expire c.epoch number).forget number
  let signer ← c.ecrecover crypto header
  rejectIf (signer ∉ ready.signers) .unauthorizedSigner
  rejectIf (c.rule.spaced ∧ signer ∈ ready.recents.map Prod.snd) .recentlySigned
  let sealed := (ready.remember number signer).withdraw signer header.coinbase
  rejectIf (header.nonce ≠ nonceAuthVote ∧ header.nonce ≠ nonceDropVote) .invalidVote
  return sealed.cast number signer header.coinbase (header.nonce = nonceAuthVote)

def applyHeader (s : Poll) (header : Header) : Except PoaError Poll := do
  let voted ← c.ballot crypto s header
  return voted.settle (UInt64.ofNat header.number) header.coinbase

def apply (s : VotingSnapshot) (headers : List Header) : Except PoaError VotingSnapshot :=
  match headers.getLast? with
  | none => .ok s
  | some last => do
      rejectIf (!numbered (s.number + 1) headers) .invalidVotingChain
      let poll ← headers.foldlM (c.applyHeader crypto) s.toPoll
      return { poll with
        number := s.number + UInt64.ofNat headers.length
        hash := last.hash crypto }

end Poa

/-- The snapshots at each height over a genesis block with the given signers. The signature
cache is another one at each call. -/
inductive Reached (crypto : Crypto) (c : Poa) (signers : List Address) : ℕ → VotingSnapshot → Prop where
  | genesis (hash : Hash) : Reached crypto c signers 0 (newSnapshot 0 hash signers)
  | apply {n : ℕ} {s t : VotingSnapshot} (sigcache : Hash → Option Address) (headers : List Header) :
      Reached crypto c signers n s → { c with sigcache }.apply crypto s headers = .ok t →
        Reached crypto c signers (n + headers.length) t

section Applying
variable {crypto : Crypto} {c : Poa} {s t : VotingSnapshot} {header : Header}

theorem Poa.ballot_ok_iff {s t : Poll} : c.ballot crypto s header = .ok t ↔
    ∃ signer, c.ecrecover crypto header = .ok signer ∧ signer ∈ s.signers ∧
      (c.rule.spaced → signer ∉ ((s.expire c.epoch (UInt64.ofNat header.number)).forget
        (UInt64.ofNat header.number)).recents.map Prod.snd) ∧
      (header.nonce = nonceAuthVote ∨ header.nonce = nonceDropVote) ∧
      (((((s.expire c.epoch (UInt64.ofNat header.number)).forget (UInt64.ofNat header.number)).remember
        (UInt64.ofNat header.number) signer).withdraw signer header.coinbase).cast
          (UInt64.ofNat header.number) signer header.coinbase (header.nonce = nonceAuthVote)) = t := by
  simp only [ballot, bind_eq_ok, exists_unit, rejectIf_eq_ok, not_not, not_and, Poll.forget_signers,
    Poll.expire_toSnapshot, pure, Except.pure, Except.ok.injEq, or_iff_not_imp_left, ne_eq]

theorem Poa.applyHeader_ok_iff {s t : Poll} : c.applyHeader crypto s header = .ok t ↔
    ∃ voted, c.ballot crypto s header = .ok voted ∧
      voted.settle (UInt64.ofNat header.number) header.coinbase = t := by
  simp only [applyHeader, bind_eq_ok, pure, Except.pure, Except.ok.injEq]

@[simp] theorem Poa.apply_nil : c.apply crypto s [] = .ok s := rfl

variable {headers : List Header} {Inv : ℕ → VotingSnapshot → Prop} {n : ℕ}

theorem Poa.apply_ok_iff : c.apply crypto s headers = .ok t ↔
    numbered (s.number + 1) headers = true ∧
      ∃ poll, headers.foldlM (c.applyHeader crypto) s.toPoll = .ok poll ∧
        { poll with
          number := s.number + UInt64.ofNat headers.length
          hash := (headers.getLast?.map (Header.hash crypto)).getD s.hash } = t := by
  unfold apply
  cases last : headers.getLast? with
  | none =>
    obtain rfl := getLast?_eq_none_iff.mp last
    simp [numbered, pure, Except.pure]
  | some last => simp [pure, Except.pure]

theorem Poa.apply_one : c.apply crypto s [header] = .ok t ↔
    UInt64.ofNat header.number = s.number + 1 ∧ ∃ poll, c.applyHeader crypto s.toPoll header = .ok poll ∧
      { poll with number := s.number + 1, hash := header.hash crypto } = t := by
  simp [apply_ok_iff, numbered]

theorem Poa.apply_cons {rest : List Header} : c.apply crypto s (header :: rest) = .ok t ↔
    ∃ m, c.apply crypto s [header] = .ok m ∧ c.apply crypto m rest = .ok t := by
  have count : s.number + UInt64.ofNat (rest.length + 1) = s.number + 1 + UInt64.ofNat rest.length := by
    rw [UInt64.ofNat_add, UInt64.ofNat_one, UInt64.add_comm (UInt64.ofNat rest.length), UInt64.add_assoc]
  have last (hash : Hash) : ((header :: rest).getLast?.map (Header.hash crypto)).getD hash =
      (rest.getLast?.map (Header.hash crypto)).getD (header.hash crypto) := by
    rw [getLast?_cons]
    cases rest.getLast? <;> rfl
  rw [apply_ok_iff]
  simp only [numbered, foldlM_cons, length_cons, bind_eq_ok, count, last, Bool.and_eq_true,
    beq_iff_eq]
  constructor
  · rintro ⟨⟨first, others⟩, poll, ⟨middle, stepped, ran⟩, rfl⟩
    exact ⟨_, apply_one.mpr ⟨first, middle, stepped, rfl⟩, apply_ok_iff.mpr ⟨others, poll, ran, rfl⟩⟩
  · rintro ⟨m, one, applied⟩
    obtain ⟨first, middle, stepped, rfl⟩ := apply_one.mp one
    obtain ⟨others, poll, ran, rfl⟩ := apply_ok_iff.mp applied
    exact ⟨⟨first, others⟩, poll, ⟨middle, stepped, ran⟩, rfl⟩

theorem Poa.apply_append {xs ys : List Header} : c.apply crypto s (xs ++ ys) = .ok t ↔
    ∃ m, c.apply crypto s xs = .ok m ∧ c.apply crypto m ys = .ok t := by
  induction xs generalizing s with
  | nil => simp
  | cons x xs ih =>
    rw [cons_append, apply_cons]
    constructor
    · rintro ⟨m, first, applied⟩
      obtain ⟨n, others, last⟩ := ih.mp applied
      exact ⟨n, apply_cons.mpr ⟨m, first, others⟩, last⟩
    · rintro ⟨n, applied, last⟩
      obtain ⟨m, first, others⟩ := apply_cons.mp applied
      exact ⟨m, first, ih.mpr ⟨n, others, last⟩⟩

theorem Poa.apply_number (applied : c.apply crypto s headers = .ok t) :
    t.number = s.number + UInt64.ofNat headers.length := by
  obtain ⟨-, poll, -, rfl⟩ := apply_ok_iff.mp applied
  rfl

theorem Poa.apply_induct (step : ∀ n s header t, Inv n s → s.number = UInt64.ofNat n →
      c.apply crypto s [header] = .ok t → Inv (n + 1) t)
    (start : Inv n s) (number : s.number = UInt64.ofNat n)
    (applied : c.apply crypto s headers = .ok t) :
    Inv (n + headers.length) t ∧ t.number = UInt64.ofNat (n + headers.length) := by
  induction headers generalizing n s with
  | nil =>
    cases applied
    exact ⟨start, number⟩
  | cons header rest ih =>
    obtain ⟨m, first, others⟩ := apply_cons.mp applied
    have next : m.number = UInt64.ofNat (n + 1) := by
      rw [apply_number first, number, UInt64.ofNat_add]
      rfl
    rw [length_cons, Nat.add_comm rest.length, ← Nat.add_assoc]
    exact ih (step n s header m start number first) next others

theorem Reached.induct {signers : List Address}
    (genesis : ∀ hash, Inv 0 (newSnapshot 0 hash signers))
    (step : ∀ sigcache n s header t, Inv n s → s.number = UInt64.ofNat n →
      { c with sigcache }.apply crypto s [header] = .ok t → Inv (n + 1) t)
    (reached : Reached crypto c signers n s) : Inv n s ∧ s.number = UInt64.ofNat n := by
  induction reached with
  | genesis hash => exact ⟨genesis hash, rfl⟩
  | apply sigcache headers _ applied ih => exact Poa.apply_induct (step sigcache) ih.1 ih.2 applied

end Applying

def sampleVoteHeader (number : ℕ) (signer coinbase : Address) (nonce : UInt64) : Header :=
  let unsealed : Header := { sampleHeader with
    number
    coinbase
    nonce
    difficulty := diffNoTurn
    extra := List.replicate (extraVanity + extraSeal) 0 }
  { unsealed with
    extra := List.replicate extraVanity 0 ++ hashBytes (sealHash sampleCrypto unsealed) ++
      List.replicate 13 0 ++ addressBytes signer }

end Anduschain
