import Anduschain.PoaEngine

/-! What a block hash fixes. `Header.Hash` omits the vote root and the fairnode's signature;
the seal of each engine covers the vote root, but only where it is checked, and no check fixes
the bytes of the fairnode's signature. -/
namespace Anduschain
open ByteOrder CheckedSteps RlpItem

structure Moment where
  now : ℕ
  sigcache : Hash → Option Address

inductive EngineKind where
  | deb (coinbase : Address)
  /-- Clique, Layer2 or Sse. -/
  | poa (c : Poa)

namespace EngineKind

def verifies (crypto : Crypto) (chain : ChainReader) (m : Moment) (parents : List Header)
    (header : Header) : EngineKind → Bool
  | .deb coinbase => verifyHeader crypto coinbase m.now chain header parents true = .ok ()
  | .poa c => { c with now := m.now, sigcache := m.sigcache }.verifyHeader crypto chain header parents =
      .ok ()

def sealChecked (crypto : Crypto) (m : Moment) (header : Header) : EngineKind → Prop
  | .deb _ => header.number % 2 ^ 64 ≠ 0
  | .poa _ => UInt64.ofNat header.number ≠ 0 ∧ m.sigcache (header.hash crypto) = none

def signed (crypto : Crypto) (header : Header) : EngineKind → GoValue
  | .deb _ => .list [goHash (header.hash crypto), goHash header.voteHash]
  | .poa _ => header.sigHeader

def sealOf (header : Header) : EngineKind → Bytes
  | .deb _ => header.fairnodeSign
  | .poa _ => header.extra.drop (header.extra.length - extraSeal)

def authorities (parents : List Header) (header : Header) : EngineKind → Set Address
  | .deb _ => {addr | (decodeOtprn header.otprn).map Otprn.fnAddr = some addr}
  | .poa c => {addr | ∃ snap, c.snapshot (UInt64.ofNat header.number - 1) header.parentHash parents =
      .ok snap ∧ addr ∈ snap.signers}

theorem sealed {crypto : Crypto} {chain : ChainReader} {m : Moment} {parents : List Header}
    {header : Header} {kind : EngineKind}
    (verified : kind.verifies crypto chain m parents header = true)
    (checked : kind.sealChecked crypto m header) :
    ∃ addr ∈ kind.authorities parents header,
      crypto.sigToAddr (rlpHash crypto (kind.signed crypto header)) (kind.sealOf header) = .ok addr := by
  cases kind with
  | deb coinbase =>
    have verified := of_decide_eq_true verified
    obtain ⟨otprn, decoded, recovered⟩ :=
      verifyFairnodeSign_ok.mp (verifyHeader_fairnodeSign verified checked)
    exact ⟨otprn.fnAddr, by simp [authorities, decoded], recovered⟩
  | poa c =>
    have verified := of_decide_eq_true verified
    obtain ⟨snap, signer, found, authorized, recovered⟩ :=
      Poa.verifyHeader_seal verified checked.1 checked.2
    exact ⟨signer, ⟨snap, found, authorized⟩, recovered⟩

end EngineKind

/-- Hashing and signing are ideal on two blocks: they fit the wire format, Keccak and the trie
root have no collision on them, and no seal is one over two digests. -/
structure Ideal {σ : Type} (env : ImportEnv σ) (kind : EngineKind) (parents : List Header)
    (b₁ b₂ : Block) : Prop where
  fits : ∀ b ∈ [b₁, b₂], b.encodeRLP.length < 2 ^ 64 ∧ (rlpFeed b.header.hashed).length < 2 ^ 64 ∧
    (rlpFeed (kind.signed env.crypto b.header)).length < 2 ^ 64
  keccak : Set.InjOn env.crypto.keccak
    {fed | ∃ b ∈ [b₁, b₂], fed = rlpFeed b.header.hashed ∨ fed = rlpFeed (kind.signed env.crypto b.header)}
  trie : Set.InjOn env.hasher
    {updates | ∃ b ∈ [b₁, b₂], updates = trieUpdates (b.transactions.map Transaction.goValue) ∨
      updates = trieUpdates (b.voters.map Voter.goValue)}
  seals : ∀ addr₁ ∈ kind.authorities parents b₁.header, ∀ addr₂ ∈ kind.authorities parents b₂.header,
    kind.sealOf b₁.header = kind.sealOf b₂.header →
    env.crypto.sigToAddr (rlpHash env.crypto (kind.signed env.crypto b₁.header))
      (kind.sealOf b₁.header) = .ok addr₁ →
    env.crypto.sigToAddr (rlpHash env.crypto (kind.signed env.crypto b₂.header))
      (kind.sealOf b₂.header) = .ok addr₂ →
    rlpHash env.crypto (kind.signed env.crypto b₁.header) =
      rlpHash env.crypto (kind.signed env.crypto b₂.header)

theorem Header.eq_of_hashed {h₁ h₂ : Header} (hashed : h₁.hashed = h₂.hashed)
    (voteHash : h₁.voteHash = h₂.voteHash) (fairnodeSign : h₁.fairnodeSign = h₂.fairnodeSign) :
    h₁ = h₂ := by
  simp only [Header.hashed, goHash, goAddress, GoValue.list.injEq, List.cons.injEq,
    GoValue.array.injEq, GoValue.bigInt.injEq, GoValue.uint.injEq, GoValue.bytes.injEq,
    Int.natCast_inj, hashBytes, addressBytes] at hashed
  obtain ⟨parentHash, coinbase, root, txHash, receiptHash, bloom, difficulty, number, gasLimit,
    gasUsed, time, extra, nonce, otprn, -⟩ := hashed
  have bits (bytes : ℕ) {x y : BitVec (8 * bytes)}
      (same : beFixed bytes x.toNat = beFixed bytes y.toNat) : x = y := by
    have width : 2 ^ (8 * bytes) = 256 ^ bytes := pow_mul 2 8 bytes
    exact BitVec.toNat_inj.mp (beFixed_inj (width ▸ x.isLt) (width ▸ y.isLt) same)
  cases h₁
  cases h₂
  simp only [Header.mk.injEq]
  exact ⟨bits 32 parentHash, bits 20 coinbase, bits 32 root, bits 32 txHash, voteHash,
    bits 32 receiptHash, bits 256 bloom, difficulty, number, gasLimit, gasUsed, time, extra,
    UInt64.toNat_inj.mp (beFixed_inj (UInt64.toNat_lt _) (UInt64.toNat_lt _) nonce), otprn,
    fairnodeSign⟩

theorem Header.extra_of_hashed {h₁ h₂ : Header} (hashed : h₁.hashed = h₂.hashed) :
    h₁.extra = h₂.extra := by
  simp only [Header.hashed, GoValue.list.injEq, List.cons.injEq, GoValue.bytes.injEq] at hashed
  obtain ⟨-, -, -, -, -, -, -, -, -, -, -, extra, -⟩ := hashed
  exact extra

def EngineKind.signedItem (crypto : Crypto) (header : Header) : EngineKind → Item
  | .deb _ => .list [.str (hashBytes (header.hash crypto)), .str (hashBytes header.voteHash)]
  | .poa _ =>
    .list [.str (hashBytes header.parentHash), .str (hashBytes header.voteHash),
      .str (addressBytes header.coinbase), .str (hashBytes header.root), .str (hashBytes header.txHash),
      .str (hashBytes header.receiptHash), .str (beFixed 256 header.bloom.toNat),
      .str (beBytes header.difficulty), .str (beBytes header.number),
      .str (beBytes header.gasLimit.toNat), .str (beBytes header.gasUsed.toNat),
      .str (beBytes header.time), .str (header.extra.take (header.extra.length - extraSeal)),
      .str (beFixed 8 header.nonce.toNat)]

theorem EngineKind.toItem_signed (crypto : Crypto) (header : Header) (kind : EngineKind) :
    toItem (kind.signed crypto header) = .ok (kind.signedItem crypto header) := by
  have nonneg (n : Nat) : ¬ (n : Int) < 0 := by omega
  cases kind with
  | deb coinbase => rfl
  | poa c =>
    simp [signed, signedItem, Header.sigHeader, toItem, toItems, Except.map, goHash, goAddress, nonneg]

theorem EngineKind.voteHash_of_signed {crypto : Crypto} {h₁ h₂ : Header} {kind : EngineKind}
    (fits : (rlpFeed (kind.signed crypto h₁)).length < 2 ^ 64)
    (same : rlpFeed (kind.signed crypto h₁) = rlpFeed (kind.signed crypto h₂)) :
    h₁.voteHash = h₂.voteHash := by
  rw [rlpFeed_of_toItem (kind.toItem_signed crypto h₁)] at fits same
  rw [rlpFeed_of_toItem (kind.toItem_signed crypto h₂)] at same
  have items := encode_inj fits same
  have bytes : hashBytes h₁.voteHash = hashBytes h₂.voteHash := by
    cases kind with
    | deb coinbase =>
      simp only [signedItem, Item.list.injEq, List.cons.injEq, Item.str.injEq] at items
      exact items.2.1
    | poa c =>
      simp only [signedItem, Item.list.injEq, List.cons.injEq, Item.str.injEq] at items
      exact items.2.1
  exact BitVec.toNat_inj.mp (beFixed_inj h₁.voteHash.isLt h₂.voteHash.isLt bytes)

section Identity
variable {σ : Type} {env : ImportEnv σ} {kind : EngineKind} {parents : List Header} {b₁ b₂ : Block}

theorem validateBody_roots {bc : BlockChain} {block : Block}
    (valid : validateBody env bc block = .ok ()) :
    txRoot env.hasher block.transactions = block.header.txHash ∧
      voteRoot env.hasher block.voters = block.header.voteHash := by
  simp only [validateBody, bind_eq_ok, exists_unit, rejectIf_eq_ok, not_not] at valid
  exact ⟨valid.2.2.2.1, valid.2.2.2.2⟩

theorem encode_header_inj (fits : b₁.encodeRLP.length < 2 ^ 64)
    (same : b₁.encodeRLP = b₂.encodeRLP) : b₁.header = b₂.header := by
  rw [Block.encodeRLP_eq] at fits same
  rw [Block.encodeRLP_eq] at same
  have items := encode_inj fits same
  simp only [Block.toItem, Item.list.injEq, List.cons.injEq] at items
  have read := congrArg Header.ofItem items.1
  simpa only [Header.ofItem_toItem, Option.some.injEq] using read

theorem encodeRLP_congr (header : b₁.header = b₂.header)
    (transactions : (b₁.transactions.map Transaction.goValue).map rlpFeed =
      (b₂.transactions.map Transaction.goValue).map rlpFeed)
    (voters : (b₁.voters.map Voter.goValue).map rlpFeed = (b₂.voters.map Voter.goValue).map rlpFeed) :
    b₁.encodeRLP = b₂.encodeRLP := by
  rw [feeds_map Transaction.toItem_goValue, feeds_map Transaction.toItem_goValue] at transactions
  rw [feeds_map Voter.toItem_goValue, feeds_map Voter.toItem_goValue] at voters
  rw [Block.encodeRLP_eq, Block.encodeRLP_eq, Block.toItem, Block.toItem]
  apply encode_list_congr
  simp only [List.map_cons, List.map_nil, header, encode_list_congr transactions,
    encode_list_congr voters]

theorem voteHash_of_seals {chain : ChainReader} {m₁ m₂ : Moment} (ideal : Ideal env kind parents b₁ b₂)
    (verified₁ : kind.verifies env.crypto chain m₁ parents b₁.header = true)
    (verified₂ : kind.verifies env.crypto chain m₂ parents b₂.header = true)
    (checked₁ : kind.sealChecked env.crypto m₁ b₁.header)
    (checked₂ : kind.sealChecked env.crypto m₂ b₂.header)
    (seals : kind.sealOf b₁.header = kind.sealOf b₂.header) :
    b₁.header.voteHash = b₂.header.voteHash := by
  obtain ⟨addr₁, authority₁, recovered₁⟩ := EngineKind.sealed verified₁ checked₁
  obtain ⟨addr₂, authority₂, recovered₂⟩ := EngineKind.sealed verified₂ checked₂
  have digest := ideal.seals addr₁ authority₁ addr₂ authority₂ seals recovered₁ recovered₂
  have fed := ideal.keccak ⟨b₁, by simp, .inr rfl⟩ ⟨b₂, by simp, .inr rfl⟩ digest
  exact EngineKind.voteHash_of_signed (ideal.fits b₁ (by simp)).2.2 fed

/-- Two blocks that pass the engine's check and `ValidateBody` under one hash are the same
bytes exactly when they carry the same fairnode signature, and their vote roots agree or are
both covered by a seal that was checked. -/
theorem hash_identifies_iff (env : ImportEnv σ) (bc : BlockChain) (kind : EngineKind)
    (m₁ m₂ : Moment) (parents : List Header) (b₁ b₂ : Block)
    (verified₁ : kind.verifies env.crypto (bc.reader env) m₁ parents b₁.header = true)
    (verified₂ : kind.verifies env.crypto (bc.reader env) m₂ parents b₂.header = true)
    (body₁ : validateBody env bc b₁ = .ok ()) (body₂ : validateBody env bc b₂ = .ok ())
    (ideal : Ideal env kind parents b₁ b₂) (same : b₁.hash env.crypto = b₂.hash env.crypto) :
    b₁.encodeRLP = b₂.encodeRLP ↔
      b₁.header.fairnodeSign = b₂.header.fairnodeSign ∧
        (b₁.header.voteHash = b₂.header.voteHash ∨
          kind.sealChecked env.crypto m₁ b₁.header ∧ kind.sealChecked env.crypto m₂ b₂.header) := by
  constructor
  · intro written
    have header := encode_header_inj (ideal.fits b₁ (by simp)).1 written
    rw [header]
    exact ⟨rfl, .inl rfl⟩
  · rintro ⟨fairnodeSign, votes⟩
    have fed := ideal.keccak ⟨b₁, by simp, .inl rfl⟩ ⟨b₂, by simp, .inl rfl⟩ same
    have hashed : b₁.header.hashed = b₂.header.hashed :=
      Header.hashed_of_feed (ideal.fits b₁ (by simp)).2.1 fed
    have voteHash : b₁.header.voteHash = b₂.header.voteHash := by
      rcases votes with agree | ⟨checked₁, checked₂⟩
      · exact agree
      · apply voteHash_of_seals ideal verified₁ verified₂ checked₁ checked₂
        cases kind with
        | deb coinbase => exact fairnodeSign
        | poa c => rw [EngineKind.sealOf, EngineKind.sealOf, Header.extra_of_hashed hashed]
    have header := Header.eq_of_hashed hashed voteHash fairnodeSign
    obtain ⟨txs₁, voters₁⟩ := validateBody_roots body₁
    obtain ⟨txs₂, voters₂⟩ := validateBody_roots body₂
    refine encodeRLP_congr header (trieUpdates_feeds ?_) (trieUpdates_feeds ?_)
    · exact ideal.trie ⟨b₁, by simp, .inl rfl⟩ ⟨b₂, by simp, .inl rfl⟩
        (txs₁.trans (header ▸ txs₂.symm))
    · exact ideal.trie ⟨b₁, by simp, .inr rfl⟩ ⟨b₂, by simp, .inr rfl⟩
        (voters₁.trans (header ▸ voters₂.symm))

end Identity

structure Twins where
  kind : EngineKind
  m₁ : Moment
  m₂ : Moment
  b₁ : Block
  b₂ : Block

def Twins.slipThrough {σ : Type} (env : ImportEnv σ) (bc : BlockChain) (t : Twins) : Bool :=
  t.kind.verifies env.crypto (bc.reader env) t.m₁ [] t.b₁.header &&
    t.kind.verifies env.crypto (bc.reader env) t.m₂ [] t.b₂.header &&
    validateBody env bc t.b₁ == .ok () && validateBody env bc t.b₂ == .ok () &&
    t.b₁.hash env.crypto == t.b₂.hash env.crypto && t.b₁.encodeRLP != t.b₂.encodeRLP

def noCache : Moment := { now := 0, sigcache := fun _ => none }

def sampleDebTwins : Twins :=
  let block := sampleNext (soleAccount 9) [] 0
  let sign := block.header.fairnodeSign
  { kind := .deb 1
    m₁ := noCache
    m₂ := noCache
    b₁ := block
    b₂ := { block with header := { block.header with
      fairnodeSign := sign.take 32 ++ 0 :: sign.drop 32 } } }

theorem sampleDebTwins_ideal : Ideal sampleSetup.env sampleDebTwins.kind [] sampleDebTwins.b₁
    sampleDebTwins.b₂ where
  fits := by decide +kernel
  keccak := by
    have apart : ∀ b ∈ [sampleDebTwins.b₁, sampleDebTwins.b₂],
        ∀ b' ∈ [sampleDebTwins.b₁, sampleDebTwins.b₂],
        ∀ fed ∈ [rlpFeed b.header.hashed,
          rlpFeed (sampleDebTwins.kind.signed sampleSetup.env.crypto b.header)],
        ∀ fed' ∈ [rlpFeed b'.header.hashed,
          rlpFeed (sampleDebTwins.kind.signed sampleSetup.env.crypto b'.header)],
          sampleSetup.env.crypto.keccak fed = sampleSetup.env.crypto.keccak fed' → fed = fed' := by
      decide +kernel
    rintro fed ⟨b, member, which⟩ fed' ⟨b', member', which'⟩ same
    exact apart b member b' member' fed (by simpa using which) fed' (by simpa using which') same
  trie := by
    have empty : ∀ b ∈ [sampleDebTwins.b₁, sampleDebTwins.b₂],
        trieUpdates (b.transactions.map Transaction.goValue) = [] ∧
          trieUpdates (b.voters.map Voter.goValue) = [] := by decide +kernel
    have none (updates : List (Bytes × Bytes)) (fed : ∃ b ∈ [sampleDebTwins.b₁, sampleDebTwins.b₂],
        updates = trieUpdates (b.transactions.map Transaction.goValue) ∨
          updates = trieUpdates (b.voters.map Voter.goValue)) : updates = [] := by
      obtain ⟨b, member, txs | voters⟩ := fed
      · exact txs.trans (empty b member).1
      · exact voters.trans (empty b member).2
    intro updates fed updates' fed' _
    exact (none updates fed).trans (none updates' fed').symm
  seals := by
    intro _ _ _ _ same
    exact absurd same (by decide +kernel)

theorem sampleDebTwins_differ : sampleDebTwins.b₁.encodeRLP ≠ sampleDebTwins.b₂.encodeRLP := by
  intro written
  have agree := ((hash_identifies_iff sampleSetup.env (sampleFullNode (soleAccount 9)).chain
    sampleDebTwins.kind noCache noCache [] sampleDebTwins.b₁ sampleDebTwins.b₂ (by decide +kernel)
    (by decide +kernel) (by decide +kernel) (by decide +kernel) sampleDebTwins_ideal
    (by decide +kernel)).mp written).1
  exact absurd agree (by decide +kernel)

def samplePoaBlock (otprn fairnodeSign : Bytes) : Block :=
  let open_ : Header := { sampleHeader with
    parentHash := (sampleGenesis (soleAccount 9)).hash sampleCrypto
    number := 1
    difficulty := diffInTurn
    txHash := txRoot sampleHasher []
    voteHash := voteRoot sampleHasher []
    extra := List.replicate (extraVanity + extraSeal) 0
    otprn
    fairnodeSign }
  let digest := sealHash sampleCrypto open_
  { header := { open_ with
      extra := List.replicate extraVanity 0 ++ hashBytes digest ++ List.replicate 13 0 ++
        addressBytes 0xfa }
    transactions := []
    voters := [] }

def sampleCliqueTwins : Twins where
  kind := .poa (samplePoa .clique)
  m₁ := noCache
  m₂ := noCache
  b₁ := samplePoaBlock [] []
  b₂ := samplePoaBlock [] [1]

def sampleLayer2Twins : Twins :=
  let block := samplePoaBlock (List.replicate 32 0 ++ [5]) [0, 0, 0, 2]
  let voters : List Voter := [{ header := [], voter := 6, voteSign := [] }]
  { kind := .poa (samplePoa (.layer2 fun _ _ pi => some pi))
    m₁ := noCache
    m₂ := { noCache with
      sigcache := fun hash => if hash = block.hash sampleCrypto then some 0xfa else none }
    b₁ := block
    b₂ := { block with
      header := { block.header with voteHash := voteRoot sampleHasher voters }
      voters } }

theorem sampleTwins_slip_through :
    [sampleDebTwins, sampleCliqueTwins, sampleLayer2Twins].all
      (Twins.slipThrough sampleSetup.env (sampleFullNode (soleAccount 9)).chain) = true := by
  decide +kernel

end Anduschain
