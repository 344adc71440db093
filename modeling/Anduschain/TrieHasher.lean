import Anduschain.TrieProof
import Anduschain.TrieOperations

/-! The hasher of tries (trie/hasher.go): how nodes are collapsed into what is stored, and that
the decoder gives back of a stored node what went into it, with the references to its children. -/
namespace Anduschain.Trie
open ByteOrder GoCall RlpItem RlpRaw List
open Radix (Canonical Terminated)

def decodeNibbles : Bytes → Bytes
  | high :: low :: rest => (high <<< 4 ||| low) :: decodeNibbles rest
  | _ => []

def compactNibbles (flag : UInt8) : Bytes → Bytes
  | [] => [flag]
  | first :: rest =>
    if rest.length % 2 = 0 then (flag ||| 0x10 ||| first) :: decodeNibbles rest
    else flag :: decodeNibbles (first :: rest)

def hexToCompact (hex : Bytes) : Bytes :=
  if hasTerm hex then compactNibbles 0x20 hex.dropLast else compactNibbles 0 hex

/-- What is encoded for a node; an unset child is the empty string. -/
def nodeItem : TrieNode → Item
  | .nil => .str []
  | .short key val => .list [.str key, nodeItem val]
  | .full cs => .list ((List.finRange 17).map fun i => nodeItem (cs i))
  | .hash h => .str h
  | .value v => .str v

def nodeBytes (n : TrieNode) : Bytes := encode (nodeItem n)

def TrieNode.isValue : TrieNode → Bool
  | .value _ => true
  | _ => false

section Hasher
variable (crypto : Crypto)

def makeHashNode (data : Bytes) : TrieNode := .hash (hashBytes (crypto.keccak data))

/-- Without a database nothing is written. -/
def store (force : Bool) (n : TrieNode) : TrieNode :=
  match n with
  | .nil => .nil
  | .hash h => .hash h
  | n =>
    if (nodeBytes n).length < 32 ∧ force = false then n else makeHashNode crypto (nodeBytes n)

/-- `hash` without force. A nil child stays as it is. -/
def hash : TrieNode → TrieNode
  | .short key val =>
    store crypto false (.short (hexToCompact key) (if val.isValue then val else hash val))
  | .full cs => store crypto false (.full fun i => if i.val < 16 then hash (cs i) else cs i)
  | n => store crypto false n

def hashChildren : TrieNode → TrieNode
  | .short key val => .short (hexToCompact key) (if val.isValue then val else hash crypto val)
  | .full cs => .full fun i => if i.val < 16 then hash crypto (cs i) else cs i
  | n => n

theorem hash_eq (n : TrieNode) : hash crypto n = store crypto false (hashChildren crypto n) := by
  cases n <;> rfl

def rootHash (root : TrieNode) : Hash :=
  match store crypto true (hashChildren crypto root) with
  | .hash h => bytesToHash h
  | _ => 0

def body (r : Nibbles) : Bytes := nodeBytes (hashChildren crypto (embed r))

def hashOf (r : Nibbles) : Bytes := hashBytes (crypto.keccak (body crypto r))

def Large : Nibbles → Prop
  | .short k v => 32 ≤ (body crypto (.short k v)).length
  | .full cs => 32 ≤ (body crypto (.full cs)).length
  | _ => False

instance : DecidablePred (Large crypto) := fun r => by
  cases r <;> unfold Large <;> infer_instance

def seen : Nibbles → TrieNode
  | .nil => .nil
  | .value b => .value b
  | .short k v => .short (nibbles k) (if Large crypto v then .hash (hashOf crypto v) else seen v)
  | .full cs =>
    .full fun i => if Large crypto (cs i) then .hash (hashOf crypto (cs i)) else seen (cs i)

def seenRef (v : Nibbles) : TrieNode :=
  if Large crypto v then .hash (hashOf crypto v) else seen crypto v

end Hasher

/-! Keys in compact form. -/

theorem byte_of_nibbles {high low : UInt8} (first : high < terminator) (second : low < terminator) :
    (high <<< 4 ||| low) / 16 = high ∧ (high <<< 4 ||| low) % 16 = low := by
  have each : ∀ a b : Fin 16, (UInt8.ofNat a.val <<< 4 ||| UInt8.ofNat b.val) / 16 = UInt8.ofNat a.val ∧
      (UInt8.ofNat a.val <<< 4 ||| UInt8.ofNat b.val) % 16 = UInt8.ofNat b.val := by decide +kernel
  have both := each ⟨high.toNat, UInt8.lt_iff_toNat_lt.mp first⟩
    ⟨low.toNat, UInt8.lt_iff_toNat_lt.mp second⟩
  simpa using both

theorem flatMap_decodeNibbles {hex : Bytes} (low : ∀ x ∈ hex, x < terminator)
    (even : hex.length % 2 = 0) : (decodeNibbles hex).flatMap (fun b => [b / 16, b % 16]) = hex := by
  fun_induction decodeNibbles hex with
  | case1 high low' rest ih =>
    obtain ⟨div, mod⟩ := byte_of_nibbles (low high (by simp)) (low low' (by simp))
    rw [flatMap_cons, div, mod, ih (fun x member => low x (by simp [member]))]
    · rfl
    · simp only [length_cons] at even
      omega
  | case2 hex other =>
    cases hex with
    | nil => rfl
    | cons x hex =>
      cases hex with
      | nil => simp at even
      | cons y hex => exact absurd rfl (other x y hex)

theorem odd_flag {flag first : UInt8} (flags : flag = 0 ∨ flag = 0x20) (low : first < terminator) :
    (flag ||| 0x10 ||| first) % 16 = first ∧ ((flag ||| 0x10 ||| first) / 16 &&& 1).toNat = 1 ∧
    (flag ||| 0x10 ||| first < 0x20 ↔ flag = 0) := by
  have each : ∀ flag ∈ [(0 : UInt8), 0x20], ∀ a : Fin 16,
      (flag ||| 0x10 ||| UInt8.ofNat a.val) % 16 = UInt8.ofNat a.val ∧
      ((flag ||| 0x10 ||| UInt8.ofNat a.val) / 16 &&& 1).toNat = 1 ∧
      (flag ||| 0x10 ||| UInt8.ofNat a.val < 0x20 ↔ flag = 0) := by decide +kernel
  simpa using each flag (by simpa using flags) ⟨first.toNat, UInt8.lt_iff_toNat_lt.mp low⟩

theorem even_flag {flag : UInt8} (flags : flag = 0 ∨ flag = 0x20) :
    (flag / 16 &&& 1).toNat = 0 ∧ (flag < 0x20 ↔ flag = 0) := by
  rcases flags with rfl | rfl <;> decide

theorem compactToHex_compactNibbles {flag : UInt8} (flags : flag = 0 ∨ flag = 0x20) {path : Bytes}
    (low : ∀ x ∈ path, x < terminator) : compactToHex (compactNibbles flag path) =
      some (if flag = 0 then path else path ++ [terminator]) := by
  obtain ⟨even, plain⟩ := even_flag flags
  cases path with
  | nil =>
    rw [compactNibbles, compactToHex_cons, keyNibbles, even]
    simp only [plain]
    rfl
  | cons first rest =>
    rw [compactNibbles]
    by_cases odd : rest.length % 2 = 0
    · obtain ⟨mod, one, small⟩ := odd_flag flags (low first (by simp))
      have nibbles := flatMap_decodeNibbles (fun x member => low x (by simp [member])) odd
      rw [if_pos odd, compactToHex_cons, keyNibbles, one, flatMap_cons, nibbles, mod]
      simp only [small]
      rfl
    · have nibbles := flatMap_decodeNibbles low (by rw [length_cons]; omega)
      rw [if_neg odd, compactToHex_cons, keyNibbles, even, flatMap_cons, nibbles]
      simp only [plain]
      rfl

theorem compactToHex_hexToCompact {path ending : Bytes} (low : ∀ x ∈ path, x < terminator)
    (ends : ending = [] ∨ ending = [terminator]) :
    compactToHex (hexToCompact (path ++ ending)) = some (path ++ ending) := by
  unfold hexToCompact
  rcases ends with rfl | rfl
  · simp only [append_nil, hasTerm_front low, Bool.false_eq_true, if_false]
    exact compactToHex_compactNibbles (.inl rfl) low
  · simp only [hasTerm_term, if_true, dropLast_concat]
    exact compactToHex_compactNibbles (.inr rfl) low

/-- `none` is the panic at an odd length. -/
def hexToKeybytes (hex : Bytes) : Option Bytes :=
  let hex := if hasTerm hex then hex.dropLast else hex
  if hex.length % 2 = 0 then some (decodeNibbles hex) else none

/-- A sequence of nibbles, with or without a terminator at its end. -/
def NibbleKey (hex : Bytes) : Prop := (∀ x ∈ hex, x < terminator) ∨ HexKey hex

theorem NibbleKey.reads_back {hex : Bytes} (key : NibbleKey hex) :
    compactToHex (hexToCompact hex) = some hex := by
  rcases key with low | ⟨path, low, rfl⟩
  · rw [← append_nil hex]
    exact compactToHex_hexToCompact low (.inl rfl)
  · exact compactToHex_hexToCompact low (.inr rfl)

theorem decodeNibbles_flatMap (str : Bytes) :
    decodeNibbles (str.flatMap fun b => [b / 16, b % 16]) = str := by
  have whole : ∀ b : Fin 256, (UInt8.ofNat b / 16) <<< 4 ||| UInt8.ofNat b % 16 = UInt8.ofNat b := by
    decide +kernel
  induction str with
  | nil => rfl
  | cons b rest ih =>
    have joined := whole ⟨b.toNat, b.toNat_lt⟩
    rw [UInt8.ofNat_toNat] at joined
    rw [flatMap_cons, cons_append, cons_append, nil_append, decodeNibbles, ih, joined]

/-- Keys come back from the compact form, in which no two are alike, and bytes from their key. -/
theorem key_codings : (∀ hex, NibbleKey hex → compactToHex (hexToCompact hex) = some hex) ∧
    Set.InjOn hexToCompact {hex | NibbleKey hex} ∧
    ∀ str, hexToKeybytes (keybytesToHex str) = some str := by
  refine ⟨fun hex key => key.reads_back, fun x key y other same => ?_, fun str => ?_⟩
  · have back := key.reads_back
    rw [same, NibbleKey.reads_back other] at back
    exact (Option.some.inj back).symm
  · have even : (str.flatMap fun b => [b / 16, b % 16]).length % 2 = 0 := by
      simp [length_flatMap]
    simp only [hexToKeybytes, keybytesToHex, hasTerm_term, if_true, dropLast_concat, if_pos even,
      decodeNibbles_flatMap]

theorem nibbles_low {k : List (Fin 17)} (absent : 16 ∉ k) : ∀ x ∈ nibbles k, x < terminator := by
  intro x member
  obtain ⟨i, here, rfl⟩ := mem_map.mp member
  have inner : i ≠ 16 := fun same => absent (same ▸ here)
  rw [UInt8.lt_iff_toNat_lt, RlpItem.tag_toNat (by omega)]
  show i.val < 16
  omega

theorem compactToHex_key {k : List (Fin 17)} (shape : Terminated 16 k ∨ 16 ∉ k) :
    compactToHex (hexToCompact (nibbles k)) = some (nibbles k) := by
  rcases shape with ⟨path, absent, rfl⟩ | absent
  · rw [nibbles_append]
    exact compactToHex_hexToCompact (nibbles_low absent) (.inr rfl)
  · rw [← append_nil (nibbles k)]
    exact compactToHex_hexToCompact (nibbles_low absent) (.inl rfl)

/-! What is stored for a node. -/

section Stored
variable {crypto : Crypto} {r v : Nibbles} {k : List (Fin 17)} {cs : Fin 17 → Nibbles} {b : Bytes}

theorem hash_embed (inner : ∀ b, r ≠ .value b) :
    hash crypto (embed r) =
      if Large crypto r then .hash (hashOf crypto r) else hashChildren crypto (embed r) := by
  rw [hash_eq]
  cases r with
  | nil => rfl
  | value b => exact absurd rfl (inner b)
  | short k v =>
    have size : Large crypto (.short k v) ↔ ¬(body crypto (.short k v)).length < 32 := by
      rw [Large, Nat.not_lt]
    simp only [size, ite_not]
    simp only [embed, hashChildren, store, body, hashOf, and_true]
    rfl
  | full cs =>
    have size : Large crypto (.full cs) ↔ ¬(body crypto (.full cs)).length < 32 := by
      rw [Large, Nat.not_lt]
    simp only [size, ite_not]
    simp only [embed, hashChildren, store, body, hashOf, and_true]
    rfl

inductive Below : Nibbles → Nibbles → Prop
  | here {r : Nibbles} : Below r r
  | short {s v : Nibbles} {k : List (Fin 17)} : Below s v → Below s (.short k v)
  | full {s : Nibbles} {cs : Fin 17 → Nibbles} {i : Fin 17} : Below s (cs i) → Below s (.full cs)

/-- A trie in the form its entries have, without empty values, of a size that slices can have. -/
structure Proper (crypto : Crypto) (r : Nibbles) : Prop where
  canonical : Canonical 16 r
  filled : ∀ b, Below (.value b) r → b ≠ []
  fits : ∀ s, Below s r → (body crypto s).length < 2 ^ 64

theorem Proper.of_below {s : Nibbles} (proper : Proper crypto r) (below : ∀ q, Below q s → Below q r)
    (canonical : Canonical 16 s) : Proper crypto s :=
  ⟨canonical, fun b inner => proper.filled b (below _ inner),
    fun q inner => proper.fits q (below q inner)⟩

theorem hashOf_length (r : Nibbles) : (hashOf crypto r).length = 32 := beFixed_length ..

def Restores (crypto : Crypto) (decode : Bytes → GoCall NodeError TrieNode) (limit : ℕ) (r : Nibbles) :
    Prop := ∀ tail, (body crypto r ++ tail).length < limit →
      decode (body crypto r ++ tail) = .returns (seen crypto r)

variable {decode : Bytes → GoCall NodeError TrieNode} {limit : ℕ} {tail : Bytes}

theorem body_list (canonical : Canonical 16 r) : ∃ xs, body crypto r = wrapList (encodeAll xs) := by
  cases canonical with
  | leaf ended => exact ⟨_, rfl⟩
  | extension some absent lower => exact ⟨_, rfl⟩
  | full lower last two => exact ⟨_, rfl⟩

theorem large_iff (canonical : Canonical 16 r) : Large crypto r ↔ 32 ≤ (body crypto r).length := by
  cases canonical <;> rfl

theorem decodeRef_hash (shaped : v = .nil ∨ Canonical 16 v ∧ Restores crypto decode limit v)
    (fits : (body crypto v).length < 2 ^ 64)
    (short : (encode (nodeItem (hash crypto (embed v))) ++ tail).length < limit) :
    decodeRef decode (encode (nodeItem (hash crypto (embed v))) ++ tail) =
      .returns (seenRef crypto v, tail) := by
  rcases shaped with rfl | ⟨canonical, restores⟩
  · have empty : ([] : Bytes).length < 2 ^ 64 := by decide
    obtain ⟨k, -, found, string⟩ := split_encodeStr empty tail
    obtain rfl := string (by decide)
    simp [decodeRef, embed, hash, store, nodeItem, encode, found, mapFail, seenRef, Large, seen]
  · rw [hash_embed canonical.ne_value] at short ⊢
    by_cases large : Large crypto v
    · have size : (hashOf crypto v).length = 32 := hashOf_length v
      have small : (hashOf crypto v).length < 2 ^ 64 := by omega
      obtain ⟨k, -, found, string⟩ := split_encodeStr small tail
      obtain rfl := string (by omega)
      rw [if_pos large, nodeItem, encode, decodeRef, found]
      simp [mapFail, seenRef, large, size, -length_eq_zero_iff]
    · rw [if_neg large] at short ⊢
      obtain ⟨xs, listed⟩ : ∃ xs, body crypto v = wrapList (encodeAll xs) := body_list canonical
      have small : ¬32 ≤ (body crypto v).length := mt (large_iff canonical).mpr large
      have inner := length_lt_wrapList (encodeAll xs)
      rw [← listed] at inner
      have found : split (body crypto v ++ tail) = .returns (.list, encodeAll xs, tail) := by
        rw [listed]
        exact split_wrapList (by omega) tail
      have room : ¬hashLen < (body crypto v ++ tail).length - tail.length := by
        rw [length_append, Nat.add_sub_cancel, hashLen]
        omega
      change decodeRef decode (body crypto v ++ tail) = _
      rw [decodeRef, found]
      simp only [mapFail, bind_returns, if_true, if_neg room, restores tail short, pure_eq, seenRef,
        if_neg large]

theorem decodeChildren_hash {vs : List Nibbles} {i : ℕ}
    (each : ∀ v ∈ vs, (v = .nil ∨ Canonical 16 v ∧ Restores crypto decode limit v) ∧
      (body crypto v).length < 2 ^ 64)
    (short : (encodeAll (vs.map fun v => nodeItem (hash crypto (embed v))) ++ tail).length < limit) :
    decodeChildren decode vs.length i
        (encodeAll (vs.map fun v => nodeItem (hash crypto (embed v))) ++ tail) =
      .returns (vs.map (seenRef crypto), tail) := by
  induction vs generalizing i with
  | nil => rfl
  | cons v vs ih =>
    obtain ⟨⟨shaped, fits⟩, rest⟩ := forall_mem_cons.mp each
    simp only [map_cons, encodeAll, append_assoc] at short ⊢
    have later := ih (i := i + 1) rest (by rw [length_append] at short; omega)
    rw [length_cons, decodeChildren, decodeRef_hash shaped fits short]
    simp only [mapFail, bind_returns, later, pure_eq]

theorem decodeNode_list {depth : ℕ} {xs : List Item} {n : TrieNode}
    (fits : (wrapList (encodeAll xs)).length < 2 ^ 64)
    (two : xs.length = 2 → decodeShort (decodeNode depth) (encodeAll xs) = .returns n)
    (seventeen : xs.length = 17 → decodeFull (decodeNode depth) (encodeAll xs) = .returns n)
    (size : xs.length = 2 ∨ xs.length = 17) (tail : Bytes) :
    decodeNode (depth + 1) (wrapList (encodeAll xs) ++ tail) = .returns n := by
  have inner := length_lt_wrapList (encodeAll xs)
  have some_byte : (wrapList (encodeAll xs) ++ tail).length ≠ 0 := by
    rw [length_append]
    omega
  have found := splitList_eq_returns.mpr (split_wrapList (inner.trans fits) tail)
  rw [decodeNode, if_neg some_byte, found]
  simp only [mapFail, bind_returns, countValues_encodeAll (inner.trans fits), dropFail]
  rcases size with size | size
  · rw [if_pos size, two size]
  · rw [if_neg (by omega), if_pos size, seventeen size]

theorem encodeAll_append (xs ys : List Item) : encodeAll (xs ++ ys) = encodeAll xs ++ encodeAll ys := by
  simp only [encodeAll_eq_flatMap, flatMap_append]

theorem restores_leaf {depth : ℕ} (ended : Terminated 16 k)
    (fits : (body crypto (.short k (.value b))).length < 2 ^ 64) :
    Restores crypto (decodeNode (depth + 1)) (depth + 1) (.short k (.value b)) := by
  intro tail _
  have form : body crypto (.short k (.value b)) =
      wrapList (encodeAll [.str (hexToCompact (nibbles k)), .str b]) := rfl
  rw [form] at fits ⊢
  refine decodeNode_list fits (fun _ => ?_) nofun (.inl rfl) tail
  have inner := length_lt_wrapList (encodeAll [.str (hexToCompact (nibbles k)), .str b])
  simp only [encodeAll, encode, append_nil, length_append] at inner fits ⊢
  have key_size := length_le_encodeStr (hexToCompact (nibbles k))
  have value_size := length_le_encodeStr b
  have mark : hasTerm (nibbles k) = true := by
    obtain ⟨path, -, rfl⟩ := ended
    rw [nibbles_append]
    exact hasTerm_term _
  have small : b.length < 2 ^ 64 := by omega
  have value := splitString_encodeStr small []
  rw [append_nil] at value
  rw [decodeShort, splitString_encodeStr (by omega)]
  simp only [mapFail, bind_returns, compactToHex_key (.inl ended), orPanic, mark, if_true, value,
    pure_eq]
  rfl

theorem restores_extension {depth : ℕ} (absent : 16 ∉ k) (canonical : Canonical 16 v)
    (lower : Restores crypto (decodeNode depth) depth v) (fits_below : (body crypto v).length < 2 ^ 64)
    (fits : (body crypto (.short k v)).length < 2 ^ 64) :
    Restores crypto (decodeNode (depth + 1)) (depth + 1) (.short k v) := by
  have plain : (embed v).isValue = false := by
    cases canonical <;> rfl
  have form : body crypto (.short k v) = wrapList (encodeAll
      [.str (hexToCompact (nibbles k)), nodeItem (hash crypto (embed v))]) := by
    simp only [body, nodeBytes, embed, hashChildren, nodeItem, encode, plain, Bool.false_eq_true,
      if_false]
  intro tail short
  rw [form] at fits short ⊢
  have inner := length_lt_wrapList (encodeAll
    [.str (hexToCompact (nibbles k)), nodeItem (hash crypto (embed v))])
  refine decodeNode_list fits (fun _ => ?_) (by rintro ⟨⟩) (.inl rfl) tail
  simp only [encodeAll, encode, length_append, append_nil] at inner fits short ⊢
  have key_size := length_le_encodeStr (hexToCompact (nibbles k))
  have short_ref : (encode (nodeItem (hash crypto (embed v))) ++ []).length < depth := by
    rw [append_nil]
    omega
  have ref := decodeRef_hash (.inr ⟨canonical, lower⟩) fits_below short_ref
  rw [append_nil] at ref
  rw [decodeShort, splitString_encodeStr (by omega)]
  simp only [mapFail, bind_returns, compactToHex_key (.inr absent), orPanic,
    hasTerm_front (nibbles_low absent), Bool.false_eq_true, if_false, ref, pure_eq]
  rfl

def sixteen (cs : Fin 17 → Nibbles) : List Nibbles := (List.finRange 16).map fun i => cs i.castSucc

theorem body_full (crypto : Crypto) (cs : Fin 17 → Nibbles) : body crypto (.full cs) =
    wrapList (encodeAll ((sixteen cs).map (fun v => nodeItem (hash crypto (embed v))) ++
      [nodeItem (embed (cs 16))])) := by
  have low (i : Fin 16) : (i.castSucc : Fin 17).val < 16 := i.isLt
  have children : ((List.finRange 17).map fun i : Fin 17 =>
      nodeItem (if i.val < 16 then hash crypto (embed (cs i)) else embed (cs i))) =
      (sixteen cs).map (fun v => nodeItem (hash crypto (embed v))) ++ [nodeItem (embed (cs 16))] := by
    rw [finRange_succ_last, map_append, map_map, sixteen, map_map]
    refine congrArg₂ _ (map_congr_left fun i _ => ?_) rfl
    simp only [Function.comp_apply, if_pos (low i)]
  rw [← children]
  rfl

theorem fullNode_seenRef {last : Bytes}
    (ends : cs 16 = .nil ∧ last = [] ∨ cs 16 = .value last ∧ last ≠ []) :
    fullNode ((sixteen cs).map (seenRef crypto)) last = seen crypto (.full cs) := by
  rw [fullNode, seen]
  congr 1
  funext i
  change _ = seenRef crypto (cs i)
  by_cases low : i.val < 16
  · have listed : (sixteen cs)[i.val]? = some (cs i) := by
      rw [sixteen, getElem?_map, getElem?_eq_getElem (by simpa using low)]
      simp
    rw [if_pos low, getD_eq_getElem?_getD, getElem?_map, listed]
    rfl
  · obtain rfl : i = 16 := Fin.ext (by have := i.isLt; omega)
    rw [if_neg low]
    rcases ends with ⟨none, rfl⟩ | ⟨valued, some⟩
    · rw [none]
      rfl
    · rw [valued, if_pos (length_pos_iff.mpr some)]
      rfl

theorem restores_full {depth : ℕ} (lower : ∀ i, i ≠ 16 → cs i ≠ .nil →
      Canonical 16 (cs i) ∧ Restores crypto (decodeNode depth) depth (cs i))
    (last : cs 16 = .nil ∨ ∃ b, cs 16 = .value b ∧ b ≠ [])
    (fits_below : ∀ i, (body crypto (cs i)).length < 2 ^ 64)
    (fits : (body crypto (.full cs)).length < 2 ^ 64) :
    Restores crypto (decodeNode (depth + 1)) (depth + 1) (.full cs) := by
  intro tail short
  rw [body_full] at fits short ⊢
  have inner := length_lt_wrapList (encodeAll
    ((sixteen cs).map (fun v => nodeItem (hash crypto (embed v))) ++ [nodeItem (embed (cs 16))]))
  have count : (sixteen cs).length = 16 := by simp [sixteen]
  refine decodeNode_list fits (fun two => ?_) (fun _ => ?_) (.inr ?_) tail
  · rw [length_append, length_map, count] at two
    nomatch two
  · obtain ⟨b, ending, ends⟩ : ∃ b, nodeItem (embed (cs 16)) = .str b ∧
        (cs 16 = .nil ∧ b = [] ∨ cs 16 = .value b ∧ b ≠ []) := by
      rcases last with none | ⟨b, valued, some⟩
      · exact ⟨[], by rw [none]; rfl, .inl ⟨none, rfl⟩⟩
      · exact ⟨b, by rw [valued]; rfl, .inr ⟨valued, some⟩⟩
    rw [ending, encodeAll_append] at inner fits short ⊢
    simp only [encodeAll, encode, append_nil, length_append] at inner fits short ⊢
    have each : ∀ v ∈ sixteen cs, (v = .nil ∨ Canonical 16 v ∧
        Restores crypto (decodeNode depth) depth v) ∧ (body crypto v).length < 2 ^ 64 := by
      intro v member
      obtain ⟨i, -, rfl⟩ := mem_map.mp member
      refine ⟨?_, fits_below _⟩
      by_cases none : cs i.castSucc = .nil
      · exact .inl none
      · exact .inr (lower _ (Fin.castSucc_lt_last i).ne none)
    have short_refs : (encodeAll ((sixteen cs).map fun v => nodeItem (hash crypto (embed v))) ++
        encodeStr b).length < depth := by
      rw [length_append]
      omega
    have children := decodeChildren_hash (i := 0) each short_refs
    have value_size := length_le_encodeStr b
    have small : b.length < 2 ^ 64 := by omega
    have value := splitString_encodeStr small []
    rw [append_nil] at value
    rw [count] at children
    rw [decodeFull, children]
    simp only [bind_returns, value, mapFail, pure_eq, fullNode_seenRef ends]
  · rw [length_append, length_map, count]
    rfl

theorem decodeNode_body (proper : Proper crypto r) (depth : ℕ) :
    Restores crypto (decodeNode depth) depth r := by
  induction depth generalizing r with
  | zero => exact fun _ short => absurd short (Nat.not_lt_zero _)
  | succ depth ih =>
    have fits := proper.fits r .here
    cases proper.canonical with
    | leaf ended => exact restores_leaf ended fits
    | extension some absent lower =>
      have below := proper.of_below (fun _ inner => .short inner) lower
      exact restores_extension absent lower (ih below) (below.fits _ .here) fits
    | full lower last two =>
      refine restores_full (fun i inner some => ?_) ?_ (fun i => proper.fits _ (.full .here)) fits
      · have canonical := lower i inner some
        exact ⟨canonical, ih (proper.of_below (fun _ inner => .full inner) canonical)⟩
      · refine last.imp_right fun ⟨b, valued⟩ => ⟨b, valued, proper.filled b ?_⟩
        exact Below.full (i := 16) (valued ▸ Below.here)

end Stored
end Anduschain.Trie
