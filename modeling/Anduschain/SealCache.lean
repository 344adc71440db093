import Anduschain.BlockIdentity
import Anduschain.Layer2Engine
import Anduschain.MemoTable

/-! The cache of recovered signers (`ecrecover` of consensus/layer2 and consensus/clique). Its
key is the block hash, which omits the vote root; the seal signs the vote root. -/
namespace Anduschain
open CheckedSteps

def recoverSeal (crypto : Crypto) (header : Header) : Except PoaError Address := do
  rejectIf (header.extra.length < extraSeal) .missingSignature
  (crypto.sigToAddr (sealHash crypto header) header.seal).mapError .ecrecover

theorem Poa.ecrecover_eq_ask (crypto : Crypto) (c : Poa) (header : Header) :
    c.ecrecover crypto header =
      MemoTable.ask (Header.hash crypto) (recoverSeal crypto) c.sigcache header := by
  unfold ecrecover MemoTable.ask
  cases c.sigcache (header.hash crypto) with
  | some signer => rfl
  | none => rfl

/-- The engine after `ecrecover`; the ARC cache holds 4096 signers, and which of them make room is
the caller's choice. -/
def Poa.recovered (c : Poa) (crypto : Crypto) (header : Header) (dropped : Hash → Bool) : Poa :=
  match c.sigcache (header.hash crypto), c.ecrecover crypto header with
  | none, .ok signer =>
    let kept := fun hash => if dropped hash then none else c.sigcache hash
    { c with sigcache := Function.update kept (header.hash crypto) (some signer) }
  | _, _ => c

def Poa.signersOf (crypto : Crypto) (c : Poa) :
    List (Header × (Hash → Bool)) → List (Except PoaError Address)
  | [] => []
  | (header, dropped) :: rest =>
    c.ecrecover crypto header :: (c.recovered crypto header dropped).signersOf crypto rest

theorem Poa.recovered_sigcache (c : Poa) (crypto : Crypto) (header : Header) (dropped : Hash → Bool) :
    (c.recovered crypto header dropped).sigcache =
      MemoTable.learn (Header.hash crypto) (recoverSeal crypto) c.sigcache header dropped := by
  unfold recovered MemoTable.learn
  rw [ecrecover_eq_ask, MemoTable.ask]
  cases cached : c.sigcache (header.hash crypto) with
  | some signer => rfl
  | none =>
    cases found : recoverSeal crypto header with
    | error e => rfl
    | ok signer => rfl

variable {crypto : Crypto} {h₁ h₂ : Header}

theorem Poa.signersOf_eq_answers {c : Poa} {calls : List (Header × (Hash → Bool))} :
    c.signersOf crypto calls =
      MemoTable.answers (Header.hash crypto) (recoverSeal crypto) c.sigcache calls := by
  induction calls generalizing c with
  | nil => rfl
  | cons call rest ih => rw [signersOf, ih, recovered_sigcache, MemoTable.answers, ecrecover_eq_ask]

/-- No collision of the headers' hashes or of what they seal, and no seal is a signature of one
signer over two digests. -/
structure IdealSeals (crypto : Crypto) (headers : Set Header) : Prop where
  free : CollisionFree crypto headers
  fits : ∀ h ∈ headers, (rlpFeed h.sigHeader).length < 2 ^ 64
  keccak : ∀ h₁ ∈ headers, ∀ h₂ ∈ headers, sealHash crypto h₁ = sealHash crypto h₂ →
    rlpFeed h₁.sigHeader = rlpFeed h₂.sigHeader
  binds : ∀ h₁ ∈ headers, ∀ h₂ ∈ headers, h₁.seal = h₂.seal → ∀ signer,
    crypto.sigToAddr (sealHash crypto h₁) h₁.seal = .ok signer →
    crypto.sigToAddr (sealHash crypto h₂) h₂.seal = .ok signer →
    sealHash crypto h₁ = sealHash crypto h₂

def Header.Sealed (crypto : Crypto) (header : Header) : Prop :=
  extraSeal ≤ header.extra.length ∧
    ∃ signer, crypto.sigToAddr (sealHash crypto header) header.seal = .ok signer

theorem recoverSeal_ok_iff {header : Header} {signer : Address} :
    recoverSeal crypto header = .ok signer ↔ extraSeal ≤ header.extra.length ∧
      crypto.sigToAddr (sealHash crypto header) header.seal = .ok signer := by
  simp only [recoverSeal, bind_eq_ok, exists_unit, rejectIf_eq_ok, mapError_eq_ok, not_lt]

theorem recoverSeal_congr (hashed : h₁.hashed = h₂.hashed)
    (voteHash : h₁.voteHash = h₂.voteHash) : recoverSeal crypto h₁ = recoverSeal crypto h₂ := by
  have same : h₁ = { h₂ with fairnodeSign := h₁.fairnodeSign } :=
    Header.eq_of_hashed hashed voteHash rfl
  rw [same]
  rfl

theorem agree_iff (c : Poa) {headers : Set Header} (ideal : IdealSeals crypto headers)
    (member₁ : h₁ ∈ headers) (member₂ : h₂ ∈ headers) :
    MemoTable.Agree (Header.hash crypto) (recoverSeal crypto) h₁ h₂ ↔
      (h₁.hash crypto = h₂.hash crypto → h₁.Sealed crypto → h₁.voteHash = h₂.voteHash) := by
  constructor
  · rintro agree same ⟨room, signer, recovers⟩
    have other := recoverSeal_ok_iff.mp (agree same signer (recoverSeal_ok_iff.mpr ⟨room, recovers⟩))
    have seals : h₁.seal = h₂.seal := by
      rw [Header.seal, Header.seal, Header.extra_of_hashed (ideal.free _ member₁ _ member₂ same)]
    have digest := ideal.binds _ member₁ _ member₂ seals signer recovers other.2
    have covered : (rlpFeed ((EngineKind.poa c).signed crypto h₁)).length < 2 ^ 64 :=
      ideal.fits _ member₁
    exact EngineKind.voteHash_of_signed covered (ideal.keccak _ member₁ _ member₂ digest)
  · intro votes same signer found
    obtain ⟨room, recovers⟩ := recoverSeal_ok_iff.mp found
    rw [← recoverSeal_congr (ideal.free _ member₁ _ member₂ same) (votes same ⟨room, signer, recovers⟩)]
    exact found

/-- Whatever the cache drops, the cached signers of a sequence of headers are those that the
seals give exactly if a sealed header and a later one of the same hash have one vote root. -/
theorem signersOf_eq_iff (crypto : Crypto) (c : Poa) (fresh : c.sigcache = fun _ => none)
    (headers : List Header) (ideal : IdealSeals crypto {h | h ∈ headers}) :
    (∀ calls : List (Header × (Hash → Bool)), calls.map Prod.fst = headers →
      c.signersOf crypto calls = headers.map (recoverSeal crypto)) ↔
      headers.Pairwise fun h₁ h₂ =>
        h₁.hash crypto = h₂.hash crypto → h₁.Sealed crypto → h₁.voteHash = h₂.voteHash := by
  simp only [Poa.signersOf_eq_answers, fresh]
  rw [MemoTable.transparent_iff]
  exact List.Pairwise.iff_of_mem fun member₁ member₂ => agree_iff c ideal member₁ member₂

def sampleSealedPair : List Header :=
  [(samplePoaBlock [] []).header, (samplePoaBlock [7] []).header]

theorem sampleSealedPair_ideal : IdealSeals sampleCrypto {h | h ∈ sampleSealedPair} where
  free := collisionFree_of_nodup (by decide +kernel)
  fits := by
    have short : ∀ h ∈ sampleSealedPair, (rlpFeed h.sigHeader).length < 2 ^ 64 := by decide +kernel
    exact short
  keccak := by
    have same : ∀ h₁ ∈ sampleSealedPair, ∀ h₂ ∈ sampleSealedPair,
        rlpFeed h₁.sigHeader = rlpFeed h₂.sigHeader := by decide +kernel
    exact fun h₁ member₁ h₂ member₂ _ => same h₁ member₁ h₂ member₂
  binds := by
    have same : ∀ h₁ ∈ sampleSealedPair, ∀ h₂ ∈ sampleSealedPair,
        sealHash sampleCrypto h₁ = sealHash sampleCrypto h₂ := by decide +kernel
    exact fun h₁ member₁ h₂ member₂ _ _ _ _ => same h₁ member₁ h₂ member₂

theorem sampleSealedPair_signers :
    (samplePoa (.layer2 fun _ _ _ => none)).signersOf sampleCrypto
        (sampleSealedPair.map fun h => (h, fun _ => true)) =
      sampleSealedPair.map (recoverSeal sampleCrypto) := by
  refine (signersOf_eq_iff sampleCrypto _ rfl sampleSealedPair sampleSealedPair_ideal).mpr ?_ _ rfl
  have apart : sampleSealedPair.Pairwise fun h₁ h₂ => h₁.hash sampleCrypto ≠ h₂.hash sampleCrypto := by
    decide +kernel
  exact apart.imp fun differ same => absurd same differ

def sampleRevoted : Header := { (samplePoaBlock [] []).header with voteHash := 1 }

theorem sampleRevoted_misattributed :
    (samplePoa (.layer2 fun _ _ _ => none)).signersOf sampleCrypto
        [((samplePoaBlock [] []).header, fun _ => false), (sampleRevoted, fun _ => false)] =
      [.ok 0xfa, .ok 0xfa] ∧
    recoverSeal sampleCrypto sampleRevoted = .error (.ecrecover "invalid signature") := by
  decide +kernel

end Anduschain
