import Mathlib.Data.Fintype.Card
import Anduschain.TrieNode

/-! Merkle proofs (trie/proof.go): the walk down a node, and `VerifyProof` over a set of nodes
kept under their own hashes. -/
namespace Anduschain.Trie
open ByteOrder GoCall RlpRaw List

/-- The walk down a node: the rest of the key and what it leads to; `none` is a panic. -/
def get : TrieNode → Bytes → Option (Bytes × TrieNode)
  | .short nodeKey val, key =>
    if key.length < nodeKey.length ∨ nodeKey ≠ key.take nodeKey.length then some ([], .nil)
    else get val (key.drop nodeKey.length)
  | .full children, key =>
    match key with
    | [] => none
    | c :: rest => if inside : c.toNat < 17 then get (children ⟨c.toNat, inside⟩) rest else none
  | .hash h, key => some (key, .hash h)
  | .nil, key => some (key, .nil)
  | .value v, _ => some ([], .value v)

inductive ProofError where
  | missing (i : ℕ) (hash : Bytes)
  | badNode (i : ℕ) (e : NodeError)
  | smt (text : String)

abbrev DatabaseReader := Bytes → Option Bytes

def verifyLoop (proofDb : DatabaseReader) : (turns i : ℕ) → (key wantHash : Bytes) →
    GoCall ProofError (Option Bytes × ℕ)
  | 0, _, _, _ => .runs
  | turns + 1, i, key, wantHash =>
    match proofDb wantHash with
    | none => .fails (.missing i wantHash)
    | some buf => do
        let n ← (decodeNode (buf.length + 1) buf).mapFail (.badNode i)
        let (keyrest, cld) ← orPanic (get n key)
        match cld with
        | .hash h => verifyLoop proofDb turns (i + 1) keyrest h
        | .value v => return (some v, i + 1)
        -- `get` ends at no other node
        | _ => return (none, i)

/-- The key under which a proof of the other kind of trie marks itself. -/
def magicHash : Bytes := "THIS IS THE MAGIC INDEX FOR ZKTRIE".toUTF8.toList

/-- `smt` is `VerifyProofSMT`. -/
def verifyProof (smt : Hash → Bytes → DatabaseReader → GoCall ProofError (Option Bytes))
    (turns : ℕ) (rootHash : Hash) (key : Bytes) (proofDb : DatabaseReader) :
    GoCall ProofError (Option Bytes × ℕ) :=
  if (proofDb magicHash).isSome then do
    let value ← smt rootHash key proofDb
    return (value, 0)
  else verifyLoop proofDb turns 0 (keybytesToHex key) (hashBytes rootHash)

variable (crypto : Crypto) (nodes : List Bytes)

def nodeSet : DatabaseReader := fun key =>
  nodes.find? fun node => hashBytes (crypto.keccak node) = key

/-! What the decoder returns can be walked with every key. -/

def HexKey (key : Bytes) : Prop := ∃ front : Bytes, (∀ x ∈ front, x < terminator) ∧
  key = front ++ [terminator]

/-- Nodes that lead to a value with the terminator only, and to hashes read from the buffer. -/
inductive Sound (buf : Bytes) : TrieNode → Prop
  | nil : Sound buf .nil
  | hash {h : Bytes} : h <:+: buf → Sound buf (.hash h)
  | leaf {key v : Bytes} : HexKey key → Sound buf (.short key (.value v))
  | extension {key : Bytes} {val : TrieNode} : (∀ x ∈ key, x < terminator) → Sound buf val →
      Sound buf (.short key val)
  | full {children : Fin 17 → TrieNode} : (∀ i : Fin 17, i.val < 16 → Sound buf (children i)) →
      (children 16 = .nil ∨ ∃ v, children 16 = .value v) → Sound buf (.full children)

theorem Sound.mono {small buf : Bytes} {n : TrieNode} (part : small <:+: buf) (sound : Sound small n) :
    Sound buf n := by
  induction sound with
  | nil => exact .nil
  | hash here => exact .hash (here.trans part)
  | leaf key => exact .leaf key
  | extension key _ ih => exact .extension key ih
  | full _ value ih => exact .full ih value

theorem keybytesToHex_hexKey (str : Bytes) : HexKey (keybytesToHex str) :=
  ⟨_, nibbles_lt str, rfl⟩

theorem HexKey.drop {key nodeKey : Bytes} (hex : HexKey key) (plain : ∀ x ∈ nodeKey, x < terminator)
    (long : nodeKey.length ≤ key.length) (begins : nodeKey = key.take nodeKey.length) :
    HexKey (key.drop nodeKey.length) := by
  obtain ⟨front, nibbles, rfl⟩ := hex
  have inside : nodeKey.length ≤ front.length := by
    by_contra past
    have all : nodeKey.length = (front ++ [terminator]).length := by
      rw [length_append, length_singleton] at long ⊢
      omega
    rw [all, take_length] at begins
    have ended := plain terminator (by rw [begins]; simp)
    exact absurd ended (by decide)
  refine ⟨front.drop nodeKey.length, fun x member => nibbles x (mem_of_mem_drop member), ?_⟩
  rw [drop_append_of_le_length inside]

theorem get_sound {buf : Bytes} {n : TrieNode} (sound : Sound buf n) {key : Bytes} (hex : HexKey key) :
    ∃ rest cld, get n key = some (rest, cld) ∧ (cld = .nil ∨ (∃ v, cld = .value v) ∨
      ∃ h, cld = .hash h ∧ h <:+: buf ∧ HexKey rest) := by
  induction sound generalizing key with
  | nil => exact ⟨key, .nil, rfl, .inl rfl⟩
  | @hash h here => exact ⟨key, .hash h, rfl, .inr (.inr ⟨h, rfl, here, hex⟩)⟩
  | @leaf nodeKey v _ =>
    rw [get]
    split_ifs with apart
    · exact ⟨[], .nil, rfl, .inl rfl⟩
    · exact ⟨[], .value v, rfl, .inr (.inl ⟨v, rfl⟩)⟩
  | @extension nodeKey val plain _ ih =>
    rw [get]
    split_ifs with apart
    · exact ⟨[], .nil, rfl, .inl rfl⟩
    · obtain ⟨long, begins⟩ := not_or.mp apart
      exact ih (hex.drop plain (Nat.not_lt.mp long) (not_not.mp begins))
  | @full children _ value ih =>
    obtain ⟨front, nibbles, rfl⟩ := hex
    cases front with
    | nil =>
      have ended : get (.full children) [terminator] = get (children 16) [] := rfl
      rw [nil_append, ended]
      rcases value with none_left | ⟨v, valued⟩
      · rw [none_left]
        exact ⟨[], .nil, rfl, .inl rfl⟩
      · rw [valued]
        exact ⟨[], .value v, rfl, .inr (.inl ⟨v, rfl⟩)⟩
    | cons c front =>
      have low : c.toNat < 16 := UInt8.lt_iff_toNat_lt.mp (nibbles c mem_cons_self)
      have step : get (.full children) (c :: front ++ [terminator]) =
          get (children ⟨c.toNat, by omega⟩) (front ++ [terminator]) := by
        rw [cons_append, get, dif_pos (by omega)]
      rw [step]
      exact ih ⟨c.toNat, by omega⟩ low
        ⟨front, fun x member => nibbles x (mem_cons_of_mem c member), rfl⟩

section Soundness
variable {decode : Bytes → GoCall NodeError TrieNode} {buf rest : Bytes}

section

variable (sound : ∀ buf n, decode buf = .returns n → Sound buf n)
include sound

theorem decodeRef_sound {n : TrieNode}
    (done : decodeRef decode buf = .returns (n, rest)) : Sound buf n ∧ rest <:+: buf := by
  obtain ⟨⟨kind, val, rest'⟩, found, checked⟩ := bind_eq_returns.mp done
  rw [mapFail_eq_returns] at found
  obtain ⟨val_in, rest_in⟩ := split_within found
  simp only at checked
  split_ifs at checked
  · obtain ⟨m, decoded, same⟩ := bind_eq_returns.mp checked
    cases same
    exact ⟨sound buf n decoded, rest_in⟩
  · cases checked
    exact ⟨.nil, rest_in⟩
  · cases checked
    exact ⟨.hash val_in, rest_in⟩

theorem decodeShort_sound {elems : Bytes}
    {n : TrieNode} (done : decodeShort decode elems = .returns n) : Sound elems n := by
  obtain ⟨⟨kbuf, tail⟩, head, keyed⟩ := bind_eq_returns.mp done
  rw [mapFail_eq_returns] at head
  obtain ⟨key, cut, checked⟩ := bind_eq_returns.mp keyed
  rw [orPanic_eq_returns] at cut
  obtain ⟨k, -, whole⟩ := splitString_eq_returns.mp head
  rcases key_cases kbuf with ⟨-, none_cut⟩ | ⟨-, key', cut', plain, nibbles⟩ | ⟨-, front, cut', nibbles⟩
  · rw [none_cut] at cut
    cases cut
  · rw [cut'] at cut
    cases cut
    simp only [plain, Bool.false_eq_true, if_false] at checked
    obtain ⟨⟨m, rest⟩, decoded, same⟩ := bind_eq_returns.mp checked
    cases same
    rw [mapFail_eq_returns] at decoded
    exact .extension nibbles ((decodeRef_sound sound decoded).1.mono (split_within whole).2)
  · rw [cut'] at cut
    cases cut
    simp only [hasTerm_term, if_true] at checked
    obtain ⟨⟨val, rest⟩, value, same⟩ := bind_eq_returns.mp checked
    cases same
    exact .leaf ⟨front, nibbles, rfl⟩

theorem decodeChildren_sound :
    ∀ {left i : ℕ} {elems rest : Bytes} {children : List TrieNode},
      decodeChildren decode left i elems = .returns (children, rest) →
      ∀ n ∈ children, Sound elems n := by
  intro left i elems rest children done
  induction left generalizing i elems children with
  | zero =>
    cases done
    simp
  | succ left ih =>
    obtain ⟨⟨first, mid⟩, decoded, more⟩ := bind_eq_returns.mp done
    obtain ⟨⟨later, last⟩, loop, same⟩ := bind_eq_returns.mp more
    cases same
    rw [mapFail_eq_returns] at decoded
    obtain ⟨first_sound, mid_in⟩ := decodeRef_sound sound decoded
    refine forall_mem_cons.mpr ⟨first_sound, ?_⟩
    exact fun n member => (ih loop n member).mono mid_in

theorem decodeFull_sound {elems : Bytes}
    {n : TrieNode} (done : decodeFull decode elems = .returns n) : Sound elems n := by
  obtain ⟨⟨children, tail⟩, decoded, more⟩ := bind_eq_returns.mp done
  obtain ⟨⟨val, rest⟩, value, same⟩ := bind_eq_returns.mp more
  cases same
  refine .full ?_ ?_
  · intro i low
    rw [if_pos low]
    by_cases inside : i.val < children.length
    · rw [getD_eq_getElem?_getD, getElem?_eq_getElem inside, Option.getD_some]
      exact decodeChildren_sound sound decoded _ (getElem_mem inside)
    · rw [getD_eq_getElem?_getD, getElem?_eq_none (by omega), Option.getD_none]
      exact .nil
  · rw [if_neg (by decide)]
    by_cases valued : 0 < val.length
    · exact .inr ⟨val, if_pos valued⟩
    · exact .inl (if_neg valued)

end

theorem decodeNode_sound : ∀ (depth : ℕ) (buf : Bytes) (n : TrieNode),
    decodeNode depth buf = .returns n → Sound buf n
  | 0, _, _, done => by cases done
  | depth + 1, buf, n, done => by
      rcases decodeNode_step depth buf with ⟨e, refused, -⟩ | ⟨elems, list, -, step⟩ |
        ⟨elems, list, -, step⟩
      · rw [refused] at done
        cases done
      · obtain ⟨⟨rest, found⟩, -⟩ := list
        rw [step, mapFail_eq_returns] at done
        exact (decodeShort_sound (decodeNode_sound depth) done).mono
          (split_within (splitList_eq_returns.mp found)).1
      · obtain ⟨⟨rest, found⟩, -⟩ := list
        rw [step, mapFail_eq_returns] at done
        exact (decodeFull_sound (decodeNode_sound depth) done).mono
          (split_within (splitList_eq_returns.mp found)).1

end Soundness

/-! The loop over the nodes of a proof. -/

def Refers (a b : Bytes) : Prop :=
  a ∈ nodes ∧ b ∈ nodes ∧ hashBytes (crypto.keccak b) <:+: a

/-- No stored node holds its own hash, directly or through others. -/
def Acyclic : Prop :=
  ∀ node, ¬Relation.TransGen (Refers crypto nodes) node node

section Verifying
variable {crypto : Crypto} {nodes : List Bytes}

theorem Acyclic.wellFounded (acyclic : Acyclic crypto nodes) :
    WellFounded fun b a : { node // node ∈ nodes } =>
      Relation.TransGen (Refers crypto nodes) a.1 b.1 := by
  have : Finite { node // node ∈ nodes } := finite_toSet nodes
  have : IsTrans { node // node ∈ nodes } fun b a => Relation.TransGen (Refers crypto nodes) a.1 b.1 :=
    ⟨fun _ _ _ first second => second.trans first⟩
  have : Std.Irrefl fun b a : { node // node ∈ nodes } =>
      Relation.TransGen (Refers crypto nodes) a.1 b.1 := ⟨fun node => acyclic node.1⟩
  exact Finite.wellFounded_of_trans_of_irrefl _

theorem nodeSet_eq_some {key node : Bytes} (found : nodeSet crypto nodes key = some node) :
    node ∈ nodes ∧ hashBytes (crypto.keccak node) = key :=
  ⟨mem_of_find?_eq_some found, by simpa using find?_some found⟩

theorem nodeSet_magicHash : nodeSet crypto nodes magicHash = none := by
  cases found : nodeSet crypto nodes magicHash with
  | none => rfl
  | some node =>
    have lengths := congrArg List.length (nodeSet_eq_some found).2
    have hash_length : (hashBytes (crypto.keccak node)).length = 32 := beFixed_length ..
    rw [hash_length] at lengths
    exact absurd lengths (by decide +kernel)

theorem verifyLoop_turn {key want buf : Bytes} (found : nodeSet crypto nodes want = some buf)
    (keyed : ¬Keyless buf) (hex : HexKey key) (i : ℕ) :
    (∀ turns, (verifyLoop (nodeSet crypto nodes) (turns + 1) i key want).Returned) ∨
    ∃ h rest, h <:+: buf ∧ HexKey rest ∧ ∀ turns,
      verifyLoop (nodeSet crypto nodes) (turns + 1) i key want =
        verifyLoop (nodeSet crypto nodes) turns (i + 1) rest h := by
  have exact := decodeNode_exact (buf.length + 1)
  have short : buf.length < buf.length + 1 := by omega
  cases decoded : decodeNode (buf.length + 1) buf with
  | panics => exact absurd ((exact.panics_iff buf short).mp decoded) keyed
  | runs => exact absurd decoded (exact.not_runs buf short)
  | fails e =>
    refine .inl fun turns => ?_
    simp only [verifyLoop, found, decoded]
    trivial
  | returns n =>
    obtain ⟨rest, cld, walked, ends⟩ := get_sound (decodeNode_sound _ buf n decoded) hex
    rcases ends with rfl | ⟨v, rfl⟩ | ⟨h, rfl, inside, rest_hex⟩
    · refine .inl fun turns => ?_
      simp only [verifyLoop, found, decoded, mapFail, bind_returns, walked, orPanic]
      trivial
    · refine .inl fun turns => ?_
      simp only [verifyLoop, found, decoded, mapFail, bind_returns, walked, orPanic]
      trivial
    · refine .inr ⟨h, rest, inside, rest_hex, fun turns => ?_⟩
      simp only [verifyLoop, found, decoded, mapFail, bind_returns, walked, orPanic]

theorem verifyLoop_missing {key want : Bytes} (missing : nodeSet crypto nodes want = none) (i : ℕ) :
    (verifyLoop (nodeSet crypto nodes) 1 i key want).Returned := by
  simp only [verifyLoop, missing]
  trivial

theorem verifyLoop_returned (acyclic : Acyclic crypto nodes)
    (keyed : ∀ hash node, nodeSet crypto nodes hash = some node → ¬Keyless node)
    {key : Bytes} (hex : HexKey key) (i : ℕ) (want : Bytes) :
    ∃ turns, (verifyLoop (nodeSet crypto nodes) turns i key want).Returned := by
  cases found : nodeSet crypto nodes want with
  | none => exact ⟨1, verifyLoop_missing found i⟩
  | some buf =>
    obtain ⟨stored, -⟩ := nodeSet_eq_some found
    generalize named : (⟨buf, stored⟩ : { node // node ∈ nodes }) = node
    induction node using acyclic.wellFounded.induction generalizing buf key i want with
    | h node ih =>
      subst named
      rcases verifyLoop_turn found (keyed want buf found) hex i with ended |
        ⟨h, rest, inside, rest_hex, goes_on⟩
      · exact ⟨1, ended 0⟩
      · cases next : nodeSet crypto nodes h with
        | none => exact ⟨2, goes_on 1 ▸ verifyLoop_missing next (i + 1)⟩
        | some below =>
          obtain ⟨below_stored, hashed⟩ := nodeSet_eq_some next
          have refers : Refers crypto nodes buf below := ⟨stored, below_stored, hashed ▸ inside⟩
          obtain ⟨turns, ended⟩ := ih ⟨below, below_stored⟩ (.single refers) rest_hex (i + 1) h
            below next below_stored rfl
          exact ⟨turns + 1, goes_on turns ▸ ended⟩

end Verifying

/-- A buffer is decoded, to a node or an error, exactly when it is not keyless. Over a set of
nodes kept under their own hashes, `VerifyProof` comes back for every root and key exactly when
none of the nodes is keyless. -/
theorem verifyProof_returns_iff (crypto : Crypto) (nodes : List Bytes)
    (smt : Hash → Bytes → DatabaseReader → GoCall ProofError (Option Bytes))
    (acyclic : Acyclic crypto nodes) :
    (∀ depth buf, buf.length < depth → ((decodeNode depth buf).Returned ↔ ¬Keyless buf)) ∧
    ((∀ root key, ∃ turns, (verifyProof smt turns root key (nodeSet crypto nodes)).Returned) ↔
      ∀ hash node, nodeSet crypto nodes hash = some node → ¬Keyless node) := by
  have decodes (depth : ℕ) (buf : Bytes) (short : buf.length < depth) :
      (decodeNode depth buf).Returned ↔ ¬Keyless buf := by
    have exact := decodeNode_exact depth
    rw [returned_iff, ne_eq, exact.panics_iff buf short]
    exact and_iff_left (exact.not_runs buf short)
  have merkle (turns : ℕ) (root : Hash) (key : Bytes) :
      verifyProof smt turns root key (nodeSet crypto nodes) =
        verifyLoop (nodeSet crypto nodes) turns 0 (keybytesToHex key) (hashBytes root) := by
    simp [verifyProof, nodeSet_magicHash]
  refine ⟨decodes, ?_, ?_⟩
  · intro returns hash node found keyless
    -- the proof is asked for the node itself
    obtain ⟨-, rfl⟩ := nodeSet_eq_some found
    obtain ⟨turns, returned⟩ := returns (crypto.keccak node) []
    rw [merkle] at returned
    cases turns with
    | zero => exact returned
    | succ turns =>
      have panicked : decodeNode (node.length + 1) node = .panics :=
        ((decodeNode_exact _).panics_iff node (by omega)).mpr keyless
      simp only [verifyLoop, found, panicked] at returned
      exact returned
  · intro keyed root key
    simp only [merkle]
    exact verifyLoop_returned acyclic keyed (keybytesToHex_hexKey key) 0 (hashBytes root)

theorem acyclic_of_short {crypto : Crypto} {nodes : List Bytes}
    (short : ∀ node ∈ nodes, node.length < 32) : Acyclic crypto nodes := by
  intro node cycle
  obtain ⟨next, ⟨stored, -, inside⟩, -⟩ := Relation.TransGen.head'_iff.mp cycle
  have room := inside.length_le
  have hash_length : (hashBytes (crypto.keccak next)).length = 32 := beFixed_length ..
  have small := short node stored
  omega

def noSmt : Hash → Bytes → DatabaseReader → GoCall ProofError (Option Bytes) :=
  fun _ _ _ => .fails (.smt "no zktrie")

def sampleLeaf : Bytes := [0xc2, 0x20, 0x41]

theorem sampleLeaf_verifies : Acyclic sampleCrypto [sampleLeaf] ∧
    ∀ root key, ∃ turns,
      (verifyProof noSmt turns root key (nodeSet sampleCrypto [sampleLeaf])).Returned := by
  have acyclic : Acyclic sampleCrypto [sampleLeaf] := acyclic_of_short (by decide)
  obtain ⟨decodes, verifies⟩ := verifyProof_returns_iff sampleCrypto [sampleLeaf] noSmt acyclic
  refine ⟨acyclic, verifies.mpr ?_⟩
  intro hash node found
  rw [mem_singleton.mp (nodeSet_eq_some found).1]
  exact (decodes 4 sampleLeaf (by decide)).mp (by decide)

def sampleKeyless : Bytes := [0xc2, 0x80, 0x80]

def sampleNested : Bytes := [0xc4, 0x00, 0xc2, 0x80, 0x80]

theorem sampleKeyless_panics : Acyclic sampleCrypto [sampleKeyless, sampleNested] ∧
    decodeNode 4 sampleKeyless = .panics ∧ decodeNode 6 sampleNested = .panics ∧
    verifyProof noSmt 1 (sampleCrypto.keccak sampleKeyless) []
      (nodeSet sampleCrypto [sampleKeyless, sampleNested]) = .panics := by
  have panicked : decodeNode 4 sampleKeyless = .panics := rfl
  have found : nodeSet sampleCrypto [sampleKeyless, sampleNested]
      (hashBytes (sampleCrypto.keccak sampleKeyless)) = some sampleKeyless := by decide +kernel
  refine ⟨acyclic_of_short (by decide), panicked, rfl, ?_⟩
  rw [verifyProof, nodeSet_magicHash, Option.isSome_none, if_neg Bool.false_ne_true, verifyLoop]
  simp only [found]
  rw [show sampleKeyless.length + 1 = 4 from rfl, panicked]
  rfl

end Anduschain.Trie
