import Anduschain.MerkleTrie
import Anduschain.BlockImport

/-! The roots that `NewBlock` derives with one trie for the transactions, the receipts and the
voters, against those of a trie for each: when what an earlier list left in the trie is gone. -/
namespace Anduschain
open ByteOrder CheckedSteps RlpItem Trie List
open Radix (Canonical Terminated)

variable (digest : TrieNode → Hash)

/-- `Hash`, with the hash of a node that is not nil given. -/
def hashRoot : TrieNode → Hash
  | .nil => emptyRootHash
  | n => digest n

def stackTrie : TrieHasher :=
  fun updates => hashRoot digest ((updateAll .nil updates).getD .nil)

/-- `DeriveSha`, and the trie it leaves; `none` is a panic. -/
def deriveShaIn (hasher : TrieNode) (values : List GoValue) :
    Option (Hash × TrieNode) := do
  let hasher ← updateAll hasher (trieUpdates values)
  return (hashRoot digest hasher, hasher)

/-- The root `NewBlock` gives a list; an empty one does not touch the trie. -/
def listRoot (hasher : TrieNode) (values : List GoValue) : Option (Hash × TrieNode) :=
  if values.length = 0 then some (emptyRootHash, hasher) else deriveShaIn digest hasher values

/-- The trie is not reset between the lists. -/
def newBlock (crypto : Crypto) (digest : TrieNode → Hash) (header : Header)
    (txs : List Transaction) (receipts : List Receipt) (voters : List Voter) (hasher : TrieNode) :
    Option Block := do
  let (txHash, hasher) ← listRoot digest hasher (txs.map Transaction.goValue)
  let (receiptHash, hasher) ← listRoot digest hasher (receipts.map Receipt.goValue)
  let bloom := if receipts.length = 0 then header.bloom else createBloom crypto receipts
  let (voteHash, _) ← listRoot digest hasher (voters.map Voter.goValue)
  return {
    header := { header with txHash, receiptHash, bloom, voteHash }
    transactions := txs
    voters := voters }

def indexKey (i : ℕ) : List (Fin 17) := hexKey (rlpFeed (.uint (UInt64.ofNat i)))

theorem indexKey_inj {i j : ℕ} (i_low : i < 2 ^ 64) (j_low : j < 2 ^ 64)
    (same : indexKey i = indexKey j) : i = j := by
  have read (n : UInt64) :
      readHead (rlpFeed (.uint n)) = some (.str, beBytes n.toNat, []) := by
    have fits : (beBytes n.toNat).length < 2 ^ 64 := by
      have short : beLen n.toNat ≤ 8 := beLen_le n.toNat_lt
      rw [beBytes_length]
      omega
    have head := readHead_encodeStr (beBytes n.toNat) [] fits
    have feed : rlpFeed (.uint n) = encode (.str (beBytes n.toNat)) := rlpFeed_of_toItem rfl
    rw [append_nil] at head
    rw [feed]
    exact head
  have bytes := congrArg readHead (hexKey_inj same)
  rw [read, read] at bytes
  have numbers := beBytes_inj (Prod.mk.inj (Prod.mk.inj (Option.some.inj bytes)).2).1
  rwa [UInt64.toNat_ofNat', UInt64.toNat_ofNat', Nat.mod_eq_of_lt i_low, Nat.mod_eq_of_lt j_low]
    at numbers

def Written (values : List GoValue) : Prop := ∀ v ∈ values, rlpFeed v ≠ []

theorem written_map {α : Type} {value : α → GoValue} (as : List α)
    (each : ∀ a, ∃ item, Anduschain.toItem (value a) = .ok item) : Written (as.map value) := by
  intro v member
  obtain ⟨a, -, rfl⟩ := mem_map.mp member
  obtain ⟨item, ok⟩ := each a
  rw [rlpFeed_of_toItem ok]
  exact encode_ne_nil _

theorem Receipt.toItem_goValue (receipt : Receipt) :
    ∃ item, Anduschain.toItem receipt.goValue = .ok item := by
  have topic (h : Hash) : Anduschain.toItem (goHash h) = .ok (.str (hashBytes h)) := rfl
  have log (l : Log) : Anduschain.toItem l.goValue = .ok (.list [.str (addressBytes l.address),
      .list (l.topics.map fun h => .str (hashBytes h)), .str l.data]) := by
    simp only [Log.goValue, Anduschain.toItem, toItems, toItems_map topic, Except.map, goAddress]
  simp only [Receipt.goValue, Anduschain.toItem, toItems, toItems_map log, Except.map]
  exact ⟨_, rfl⟩

theorem trieUpdates_written {values : List GoValue} (written : Written values) :
    ∀ u ∈ trieUpdates values, u.2 ≠ [] := by
  intro u member
  obtain ⟨i, low, rfl⟩ := mem_mapIdx.mp member
  exact written _ (getElem_mem _)

structure Indexed (r : Nibbles) (n : ℕ) : Prop where
  shaped : r = .nil ∨ Canonical 16 r
  there : ∀ i < n, (r.get (indexKey i)).isSome
  only : ∀ key, Terminated 16 key → (∀ i < n, key ≠ indexKey i) → r.get key = none

theorem indexed_nil : Indexed .nil 0 :=
  ⟨.inl rfl, fun _ low => absurd low (Nat.not_lt_zero _), fun _ _ _ => rfl⟩

theorem fill_concat (r : Nibbles) (values : List GoValue) (v : GoValue) :
    fill r (trieUpdates (values ++ [v])) =
      (fill r (trieUpdates values)).insert (indexKey values.length) (rlpFeed v) := by
  rw [trieUpdates, mapIdx_concat, fill, foldl_append]
  rfl

theorem get_fill {r : Nibbles} (shaped : r = .nil ∨ Canonical 16 r) (values : List GoValue)
    (low : values.length < 2 ^ 64) {key : List (Fin 17)} (ended : Terminated 16 key) :
    (∀ i, key = indexKey i → ∀ v, values[i]? = some v →
      (fill r (trieUpdates values)).get key = some (rlpFeed v)) ∧
    ((∀ i < values.length, key ≠ indexKey i) →
      (fill r (trieUpdates values)).get key = r.get key) := by
  induction values using List.reverseRecOn with
  | nil => exact ⟨fun i _ v found => absurd found (by simp), fun _ => rfl⟩
  | append_singleton values last ih =>
    rw [length_append, length_singleton] at low
    obtain ⟨there, other⟩ := ih (by omega)
    have entered := (Radix.insert_spec (fill_shaped shaped (trieUpdates values))
      (hexKey_terminated (rlpFeed (.uint (UInt64.ofNat values.length)))) (rlpFeed last)).2 key ended
    rw [fill_concat]
    refine ⟨?_, ?_⟩
    · rintro i rfl v found
      by_cases here : i = values.length
      · subst here
        rw [getElem?_concat_length] at found
        cases found
        exact entered.trans (if_pos rfl)
      · have small : i < values.length := by
          have := (List.getElem?_eq_some_iff.mp found).1
          rw [length_append, length_singleton] at this
          omega
        rw [getElem?_append_left small] at found
        refine (entered.trans (if_neg ?_)).trans (there i rfl v found)
        intro same
        exact here (indexKey_inj (by omega) (by omega) same)
    · intro elsewhere
      have apart : key ≠ indexKey values.length := elsewhere _ (by simp)
      refine (entered.trans (if_neg apart)).trans (other fun i small => elsewhere i ?_)
      rw [length_append]
      omega

theorem Indexed.fill {r : Nibbles} {n : ℕ} (indexed : Indexed r n) (values : List GoValue)
    (low : values.length < 2 ^ 64) :
    Indexed (fill r (trieUpdates values)) (max n values.length) := by
  have ended (i : ℕ) : Terminated 16 (indexKey i) := hexKey_terminated _
  constructor
  case shaped => exact fill_shaped indexed.shaped _
  case there =>
    intro i small
    obtain ⟨there, other⟩ := get_fill indexed.shaped values low (ended i)
    by_cases listed : i < values.length
    · rw [there i rfl values[i] (getElem?_eq_getElem listed)]
      rfl
    · by_cases shared : ∃ j < values.length, indexKey i = indexKey j
      · obtain ⟨j, j_low, same⟩ := shared
        rw [there j same values[j] (getElem?_eq_getElem j_low)]
        rfl
      · rw [other fun j j_low same => shared ⟨j, j_low, same⟩]
        exact indexed.there i (by omega)
  case only =>
    intro key key_ended elsewhere
    rw [(get_fill indexed.shaped values low key_ended).2 fun i small => elsewhere i (by omega)]
    exact indexed.only key key_ended fun i small => elsewhere i (by omega)

theorem Indexed.fill_eq_iff {r : Nibbles} {n : ℕ} (indexed : Indexed r n) (n_low : n < 2 ^ 64)
    (values : List GoValue) (low : values.length < 2 ^ 64) (some : values ≠ []) :
    Trie.fill r (trieUpdates values) = Trie.fill .nil (trieUpdates values) ↔ n ≤ values.length := by
  constructor
  · intro same
    by_contra longer
    -- the index after the last one of the list is still there
    have there := (indexed.fill values low).there values.length (by omega)
    have none := (indexed_nil.fill values low).only (indexKey values.length) (hexKey_terminated _)
      fun i small equal => by
        have := indexKey_inj (by omega) (by omega) equal
        omega
    rw [same, none] at there
    cases there
  · intro covered
    have filled {r : Nibbles} {n : ℕ} (indexed : Indexed r n) :
        Canonical 16 (Trie.fill r (trieUpdates values)) := by
      refine (indexed.fill values low).shaped.resolve_left fun none => ?_
      have there := (indexed.fill values low).there 0 (lt_max_of_lt_right (length_pos_iff.mpr some))
      rw [none] at there
      cases there
    apply (filled indexed).ext (filled indexed_nil)
    intro key ended
    obtain ⟨there, other⟩ := get_fill indexed.shaped values low ended
    obtain ⟨there', other'⟩ := get_fill indexed_nil.shaped values low ended
    by_cases listed : ∃ i < values.length, key = indexKey i
    · obtain ⟨i, small, here⟩ := listed
      rw [there i here values[i] (getElem?_eq_getElem small),
        there' i here values[i] (getElem?_eq_getElem small)]
    · have elsewhere : ∀ i < values.length, key ≠ indexKey i := fun i small here =>
        listed ⟨i, small, here⟩
      rw [other elsewhere, other' elsewhere]
      exact indexed.only key ended fun i small => elsewhere i (by omega)

section NewBlock
variable (crypto : Crypto) (digest : TrieNode → Hash) (header : Header) (txs : List Transaction)
  (receipts : List Receipt) (voters : List Voter)

theorem txs_written : Written (txs.map Transaction.goValue) :=
  written_map txs fun tx => ⟨_, tx.toItem_goValue⟩

theorem receipts_written : Written (receipts.map Receipt.goValue) :=
  written_map receipts Receipt.toItem_goValue

theorem voters_written : Written (voters.map Voter.goValue) :=
  written_map voters fun v => ⟨_, v.toItem_goValue⟩

variable {values : List GoValue} {earlier : List (Bytes × Bytes)}

theorem listRoot_eq {r : Nibbles} (shaped : r = .nil ∨ Canonical 16 r) (written : Written values) :
    listRoot digest (embed r) values =
      some (if values.length = 0 then emptyRootHash
          else hashRoot digest (embed (fill r (trieUpdates values))),
        embed (fill r (trieUpdates values))) := by
  rw [listRoot]
  by_cases none : values.length = 0
  · rw [if_pos none, if_pos none, length_eq_zero_iff.mp none]
    rfl
  · rw [if_neg none, if_neg none, deriveShaIn, updateAll_embed shaped _ (trieUpdates_written written)]
    rfl

theorem stackTrie_eq (written : Written values) :
    deriveSha (stackTrie digest) values = hashRoot digest (embed (fill .nil (trieUpdates values))) := by
  have filled := updateAll_embed (r := .nil) (.inl rfl) _ (trieUpdates_written written)
  rw [embed] at filled
  rw [deriveSha, stackTrie, filled]
  rfl

def afterTxs : Nibbles := fill .nil (trieUpdates (txs.map Transaction.goValue))

def afterReceipts : Nibbles := fill (afterTxs txs) (trieUpdates (receipts.map Receipt.goValue))

def afterVoters : Nibbles := fill (afterReceipts txs receipts) (trieUpdates (voters.map Voter.goValue))

theorem newBlock_eq :
    newBlock crypto digest header txs receipts voters .nil = some {
      header := { header with
        txHash := if txs.length = 0 then emptyRootHash else hashRoot digest (embed (afterTxs txs))
        receiptHash := if receipts.length = 0 then emptyRootHash
          else hashRoot digest (embed (afterReceipts txs receipts))
        bloom := if receipts.length = 0 then header.bloom else createBloom crypto receipts
        voteHash := if voters.length = 0 then emptyRootHash
          else hashRoot digest (embed (afterVoters txs receipts voters)) }
      transactions := txs
      voters := voters } := by
  have txs_shaped : afterTxs txs = .nil ∨ Canonical 16 (afterTxs txs) :=
    fill_shaped (.inl rfl) _
  have receipts_shaped := fill_shaped txs_shaped (trieUpdates (receipts.map Receipt.goValue))
  have first := listRoot_eq digest (.inl rfl) (txs_written txs)
  have second := listRoot_eq digest txs_shaped (receipts_written receipts)
  have third := listRoot_eq digest receipts_shaped (voters_written voters)
  rw [length_map] at first second third
  rw [newBlock, show TrieNode.nil = embed .nil from rfl, first]
  simp only [Option.bind_eq_bind, Option.bind_some]
  rw [show fill .nil (trieUpdates (txs.map Transaction.goValue)) = afterTxs txs from rfl, second]
  simp only [Option.bind_some]
  rw [third]
  rfl

def RootsApart (earlier later : List (Bytes × Bytes)) : Prop :=
  ∀ shared fresh, updateAll .nil (earlier ++ later) = some shared →
    updateAll .nil later = some fresh →
    hashRoot digest shared = hashRoot digest fresh → shared = fresh

variable {digest}

theorem fill_append (r : Nibbles) (earlier later : List (Bytes × Bytes)) :
    fill r (earlier ++ later) = fill (fill r earlier) later := foldl_append

theorem validateBody_root_errors {σ : Type} {env : ImportEnv σ} {bc : BlockChain} {block : Block}
    {e : BodyError} (rejected : validateBody env bc block = .error e) :
    (∀ hash want, e = .txRoot hash want →
      txRoot env.hasher block.transactions ≠ block.header.txHash) ∧
    ∀ hash want, e = .voteRoot hash want →
      voteRoot env.hasher block.voters ≠ block.header.voteHash := by
  simp only [validateBody, bind_eq_error, rejectIf_eq_error] at rejected
  rcases rejected with ⟨-, rfl⟩ | ⟨_, -, ⟨-, rfl⟩ | ⟨_, -, ⟨-, rfl⟩ | ⟨_, -, ⟨bad, rfl⟩ | ⟨_, -, bad, rfl⟩⟩⟩⟩
  · simp
  · simp
  · simp
  · simpa using bad
  · simpa using bad

theorem append_written {later : List (Bytes × Bytes)} (first : ∀ u ∈ earlier, u.2 ≠ [])
    (second : ∀ u ∈ later, u.2 ≠ []) : ∀ u ∈ earlier ++ later, u.2 ≠ [] := by
  intro u member
  rcases mem_append.mp member with member | member
  · exact first u member
  · exact second u member

theorem rootsApart_of_le {n : ℕ} (indexed : Indexed (fill .nil earlier) n) (n_low : n < 2 ^ 64)
    (earlier_written : ∀ u ∈ earlier, u.2 ≠ []) (written : Written values)
    (low : values.length < 2 ^ 64) (some : values ≠ []) (covered : n ≤ values.length) :
    RootsApart digest earlier (trieUpdates values) := by
  intro shared fresh filled alone _
  have first : updateAll .nil (earlier ++ trieUpdates values) = _ := updateAll_embed (.inl rfl) _
    (append_written earlier_written (trieUpdates_written written))
  have second : updateAll .nil (trieUpdates values) = _ :=
    updateAll_embed (.inl rfl) _ (trieUpdates_written written)
  rw [fill_append, (indexed.fill_eq_iff n_low values low some).mpr covered, ← second, filled,
    alone] at first
  exact Option.some.inj first

theorem listRoot_iff {n : ℕ} (indexed : Indexed (fill .nil earlier) n) (n_low : n < 2 ^ 64)
    (earlier_written : ∀ u ∈ earlier, u.2 ≠ []) (written : Written values)
    (low : values.length < 2 ^ 64) (apart : RootsApart digest earlier (trieUpdates values)) :
    (if values.length = 0 then emptyRootHash
      else hashRoot digest (embed (fill (fill .nil earlier) (trieUpdates values)))) =
        deriveSha (stackTrie digest) values ↔ values = [] ∨ n ≤ values.length := by
  rw [stackTrie_eq digest written]
  by_cases none : values = []
  · subst none
    simp only [length_nil, if_true, true_or, iff_true]
    rfl
  · have some : values.length ≠ 0 := fun zero => none (length_eq_zero_iff.mp zero)
    have whole : fill (fill .nil earlier) (trieUpdates values) =
        fill .nil (earlier ++ trieUpdates values) := (fill_append ..).symm
    have all_written := append_written earlier_written (trieUpdates_written written)
    have shared : updateAll .nil (earlier ++ trieUpdates values) = _ :=
      updateAll_embed (.inl rfl) _ all_written
    have fresh : updateAll .nil (trieUpdates values) = _ :=
      updateAll_embed (.inl rfl) _ (trieUpdates_written written)
    rw [if_neg some, ← indexed.fill_eq_iff n_low values low none]
    simp only [none, false_or]
    constructor
    · intro same
      rw [whole] at same ⊢
      exact embed_inj (apart _ _ shared fresh same)
    · intro same
      rw [same]

/-- The roots of a new block are those of tries that hold just its lists exactly when no list
that is not empty is shorter than one before it; the block then passes the checks of the roots. -/
theorem newBlock_roots_iff (crypto : Crypto) (digest : TrieNode → Hash) (header : Header)
    (txs : List Transaction) (receipts : List Receipt) (voters : List Voter)
    (txs_low : txs.length < 2 ^ 64) (receipts_low : receipts.length < 2 ^ 64)
    (voters_low : voters.length < 2 ^ 64)
    (receipts_apart : RootsApart digest (trieUpdates (txs.map Transaction.goValue))
      (trieUpdates (receipts.map Receipt.goValue)))
    (voters_apart : RootsApart digest (trieUpdates (txs.map Transaction.goValue) ++
      trieUpdates (receipts.map Receipt.goValue)) (trieUpdates (voters.map Voter.goValue))) :
    ∃ block, newBlock crypto digest header txs receipts voters .nil = some block ∧
      ((block.header.txHash = txRoot (stackTrie digest) txs ∧
          block.header.receiptHash = receiptRoot (stackTrie digest) receipts ∧
          block.header.voteHash = voteRoot (stackTrie digest) voters) ↔
        (receipts = [] ∨ txs.length ≤ receipts.length) ∧
          (voters = [] ∨ txs.length ≤ voters.length ∧ receipts.length ≤ voters.length)) ∧
      ((voters = [] ∨ txs.length ≤ voters.length ∧ receipts.length ≤ voters.length) →
        ∀ (σ : Type) (env : ImportEnv σ) (bc : BlockChain), env.hasher = stackTrie digest →
          ∀ hash want, validateBody env bc block ≠ .error (.txRoot hash want) ∧
            validateBody env bc block ≠ .error (.voteRoot hash want)) := by
  have txs_indexed := indexed_nil.fill (txs.map Transaction.goValue) (by rwa [length_map])
  have receipts_indexed := txs_indexed.fill (receipts.map Receipt.goValue) (by rwa [length_map])
  rw [← fill_append] at receipts_indexed
  have tx_root : (if txs.length = 0 then emptyRootHash else hashRoot digest (embed (afterTxs txs))) =
      txRoot (stackTrie digest) txs := by
    rw [txRoot, stackTrie_eq digest (txs_written txs)]
    by_cases none : txs = []
    · subst none
      rfl
    · rw [if_neg fun zero => none (length_eq_zero_iff.mp zero)]
      rfl
  have receipt_root := listRoot_iff txs_indexed (by rw [length_map]; omega)
    (trieUpdates_written (txs_written txs)) (receipts_written receipts) (by rwa [length_map])
    receipts_apart
  have earlier_written := append_written (trieUpdates_written (txs_written txs))
    (trieUpdates_written (receipts_written receipts))
  have vote_root := listRoot_iff receipts_indexed (by rw [length_map, length_map]; omega)
    earlier_written (voters_written voters) (by rwa [length_map]) voters_apart
  rw [fill_append] at vote_root
  simp only [length_map, map_eq_nil_iff, zero_le, max_eq_right] at receipt_root
  simp only [length_map, map_eq_nil_iff, zero_le, max_eq_right, max_le_iff] at vote_root
  refine ⟨_, newBlock_eq crypto digest header txs receipts voters, ?_, ?_⟩
  · exact ⟨fun ⟨_, second, third⟩ => ⟨receipt_root.mp second, vote_root.mp third⟩,
      fun ⟨second, third⟩ => ⟨tx_root, receipt_root.mpr second, vote_root.mpr third⟩⟩
  · intro covered σ env bc fresh hash want
    constructor
    · intro rejected
      refine (validateBody_root_errors rejected).1 hash want rfl ?_
      rw [fresh]
      exact tx_root.symm
    · intro rejected
      refine (validateBody_root_errors rejected).2 hash want rfl ?_
      rw [fresh]
      exact (vote_root.mpr covered).symm

def sampleNodeDigest : TrieNode → Hash
  | .nil => 0
  | .short key val => sampleCrypto.keccak (key ++ hashBytes (sampleNodeDigest val))
  | .full children =>
    sampleCrypto.keccak ((List.finRange 17).flatMap fun i => hashBytes (sampleNodeDigest (children i)))
  | .hash hash => sampleCrypto.keccak hash
  | .value value => sampleCrypto.keccak value

def sampleTransfer : Transaction where
  txType := generalTx
  accountNonce := 0
  price := 1
  gasLimit := 21000
  recipient := some 1
  amount := 1
  payload := []
  v := 27
  r := 1
  s := 1

def sampleReceipt : Receipt where
  postState := none
  failed := false
  cumulativeGasUsed := 21000
  bloom := 0
  logs := []

def sampleRootVoter : Voter := { header := [], voter := 1, voteSign := [] }

/-- With one of each, every list takes the place of the one before. -/
theorem sampleRoots_fresh :
    ∃ block, newBlock sampleCrypto sampleNodeDigest sampleHeader [sampleTransfer] [sampleReceipt]
        [sampleRootVoter] .nil = some block ∧
      block.header.txHash = txRoot (stackTrie sampleNodeDigest) [sampleTransfer] ∧
      block.header.receiptHash = receiptRoot (stackTrie sampleNodeDigest) [sampleReceipt] ∧
      block.header.voteHash = voteRoot (stackTrie sampleNodeDigest) [sampleRootVoter] := by
  have txs_indexed := indexed_nil.fill ([sampleTransfer].map Transaction.goValue) (by decide)
  have receipts_indexed := txs_indexed.fill ([sampleReceipt].map Receipt.goValue) (by decide)
  rw [← fill_append] at receipts_indexed
  obtain ⟨block, built, roots, -⟩ := newBlock_roots_iff sampleCrypto sampleNodeDigest sampleHeader
    [sampleTransfer] [sampleReceipt] [sampleRootVoter] (by decide) (by decide) (by decide)
    (rootsApart_of_le txs_indexed (by decide) (trieUpdates_written (txs_written _))
      (receipts_written _) (by decide) (by simp) (by decide))
    (rootsApart_of_le receipts_indexed (by decide)
      (append_written (trieUpdates_written (txs_written _)) (trieUpdates_written (receipts_written _)))
      (voters_written _) (by decide) (by simp) (by decide))
  exact ⟨block, built, roots.mpr (by decide)⟩

/-- With one voter and two transactions, the second transaction stays in the trie, and the block
is refused for the root of its voters. -/
theorem sampleRoots_stale :
    ∃ block, newBlock sampleCrypto sampleNodeDigest sampleHeader [sampleTransfer, sampleTransfer]
        [sampleReceipt, sampleReceipt] [sampleRootVoter] .nil = some block ∧
      block.header.voteHash ≠ voteRoot (stackTrie sampleNodeDigest) block.voters := by
  have evaluated : (newBlock sampleCrypto sampleNodeDigest sampleHeader [sampleTransfer, sampleTransfer]
      [sampleReceipt, sampleReceipt] [sampleRootVoter] .nil).any fun block =>
        block.header.voteHash != voteRoot (stackTrie sampleNodeDigest) block.voters := by decide +kernel
  obtain ⟨block, built, differ⟩ := (Option.any_eq_true _ _).mp evaluated
  exact ⟨block, built, bne_iff_ne.mp differ⟩

end NewBlock

end Anduschain
