import Anduschain.RlpRaw

/-! Nodes of a Merkle trie (trie/encoding.go, trie/node.go): keys in nibbles and the decoder of
stored nodes, with the format it accepts and the buffers it panics at. -/
namespace Anduschain.Trie
open ByteOrder GoCall RlpRaw List
open RlpStream (StreamError)

instance seventeen_neZero : NeZero (17 : ℕ) := ⟨by decide⟩

/-- A nil interface is a node too; what is cached with a node is left out. -/
inductive TrieNode where
  | nil
  | short (key : Bytes) (val : TrieNode)
  | full (children : Fin 17 → TrieNode)
  | hash (hash : Bytes)
  | value (value : Bytes)

inductive NodeError where
  | unexpectedEof
  | notList (e : StreamError)
  | elements (count : ℕ)
  | rlp (e : StreamError)
  | valueNode (e : StreamError)
  | oversized (size : ℕ)
  | stringSize (size : ℕ)
  | wrapped (what : NodeError) (stack : List String)

/-- The path to the bad child is collected from the inside out. -/
def wrapError (ctx : String) : NodeError → NodeError
  | .wrapped what stack => .wrapped what (stack ++ [ctx])
  | e => .wrapped e [ctx]

def terminator : UInt8 := 16

def keybytesToHex (str : Bytes) : Bytes := str.flatMap (fun b => [b / 16, b % 16]) ++ [terminator]

def hasTerm (s : Bytes) : Bool := s.getLast? == some terminator

/-- Slices of the nibbles; `none` is a panic. -/
def compactToHex (compact : Bytes) : Option Bytes := do
  let base := keybytesToHex compact
  let flag ← base[0]?
  let base ← if flag < 2 then goSlice base 0 (base.length - 1 : ℤ) else some base
  let flag ← base[0]?
  goSlice base (2 - (flag &&& 1).toNat : ℤ) base.length

def hashLen : ℕ := 32

variable (decode : Bytes → GoCall NodeError TrieNode)

def decodeRef (buf : Bytes) :
    GoCall NodeError (TrieNode × Bytes) := do
  let (kind, val, rest) ← (split buf).mapFail .rlp
  if kind = .list then
    if hashLen < buf.length - rest.length then .fails (.oversized (buf.length - rest.length))
    else do
      let n ← decode buf
      return (n, rest)
  else if kind = .string ∧ val.length = 0 then return (.nil, rest)
  else if kind = .string ∧ val.length = 32 then return (.hash val, rest)
  else .fails (.stringSize val.length)

def decodeShort (elems : Bytes) :
    GoCall NodeError TrieNode := do
  let (kbuf, rest) ← (splitString elems).mapFail .rlp
  let key ← orPanic (compactToHex kbuf)
  if hasTerm key then do
    let (val, _) ← (splitString rest).mapFail .valueNode
    return .short key (.value val)
  else do
    let (r, _) ← (decodeRef decode rest).mapFail (wrapError "val")
    return .short key r

def decodeChildren (decode : Bytes → GoCall NodeError TrieNode) :
    (left i : ℕ) → Bytes → GoCall NodeError (List TrieNode × Bytes)
  | 0, _, elems => return ([], elems)
  | left + 1, i, elems => do
      let (cld, rest) ← (decodeRef decode elems).mapFail (wrapError ("[" ++ toString i ++ "]"))
      let (children, rest) ← decodeChildren decode left (i + 1) rest
      return (cld :: children, rest)

def fullNode (children : List TrieNode) (val : Bytes) : TrieNode :=
  .full fun i =>
    if i.val < 16 then children.getD i.val .nil
    else if 0 < val.length then .value val
    else .nil

def decodeFull (elems : Bytes) :
    GoCall NodeError TrieNode := do
  let (children, rest) ← decodeChildren decode 16 0 elems
  let (val, _) ← (splitString rest).mapFail .rlp
  return fullNode children val

/-- `decodeNode`, with a bound on how deep embedded nodes may nest. An error of `CountValues` is
dropped, and its count is zero. -/
def decodeNode : ℕ → Bytes → GoCall NodeError TrieNode
  | 0, _ => .runs
  | depth + 1, buf =>
    if buf.length = 0 then .fails .unexpectedEof
    else do
      let (elems, _) ← (splitList buf).mapFail .notList
      let c ← (countValues elems).dropFail 0
      if c = 2 then (decodeShort (decodeNode depth) elems).mapFail (wrapError "short")
      else if c = 17 then (decodeFull (decodeNode depth) elems).mapFail (wrapError "full")
      else .fails (.elements c)

/-! The format of stored nodes, in terms of how values are split. -/

def ListOf (buf elems : Bytes) (count : ℕ) : Prop :=
  (∃ rest, splitList buf = .returns (elems, rest)) ∧ countValues elems = .returns count

/-- Not empty, without the flag of a value node. -/
def ExtensionKey (kbuf : Bytes) : Prop := kbuf.head?.any (· < 0x20)

def LeafKey (kbuf : Bytes) : Prop := kbuf.head?.any (0x20 ≤ ·)

def Embeds (buf : Bytes) : Prop :=
  ∃ val rest, split buf = .returns (.list, val, rest) ∧ buf.length - rest.length ≤ hashLen

mutual

inductive NodeForm : Bytes → Prop
  | leaf {buf elems kbuf tail val rest : Bytes} : ListOf buf elems 2 →
      splitString elems = .returns (kbuf, tail) → LeafKey kbuf →
      splitString tail = .returns (val, rest) → NodeForm buf
  | extension {buf elems kbuf tail rest : Bytes} : ListOf buf elems 2 →
      splitString elems = .returns (kbuf, tail) → ExtensionKey kbuf → RefForm tail rest →
      NodeForm buf
  | branch {buf elems tail val rest : Bytes} : ListOf buf elems 17 → RefsForm 16 elems tail →
      splitString tail = .returns (val, rest) → NodeForm buf

/-- Buffers that begin with a reference to a node, and what follows it. -/
inductive RefForm : Bytes → Bytes → Prop
  | empty {buf rest : Bytes} : split buf = .returns (.string, [], rest) → RefForm buf rest
  | hash {buf val rest : Bytes} : split buf = .returns (.string, val, rest) → val.length = 32 →
      RefForm buf rest
  | embedded {buf val rest : Bytes} : split buf = .returns (.list, val, rest) →
      buf.length - rest.length ≤ hashLen → NodeForm buf → RefForm buf rest

inductive RefsForm : ℕ → Bytes → Bytes → Prop
  | done {buf : Bytes} : RefsForm 0 buf buf
  | next {n : ℕ} {buf mid rest : Bytes} : RefForm buf mid → RefsForm n mid rest →
      RefsForm (n + 1) buf rest

end

/-- Buffers in which the first thing wrong is a node of two values with an empty key. -/
inductive Keyless : Bytes → Prop
  | here {buf elems tail : Bytes} : ListOf buf elems 2 → splitString elems = .returns ([], tail) →
      Keyless buf
  | inside {buf elems kbuf tail : Bytes} : ListOf buf elems 2 →
      splitString elems = .returns (kbuf, tail) → ExtensionKey kbuf → Embeds tail → Keyless tail →
      Keyless buf
  | child {n : ℕ} {buf elems mid : Bytes} : ListOf buf elems 17 → n < 16 → RefsForm n elems mid →
      Embeds mid → Keyless mid → Keyless buf

/-! Keys. -/

theorem nibbles_lt (str : Bytes) : ∀ x ∈ str.flatMap (fun b => [b / 16, b % 16]), x < terminator := by
  intro x member
  obtain ⟨b, -, here⟩ := mem_flatMap.mp member
  have small := b.toNat_lt
  rcases mem_cons.mp here with rfl | low
  · rw [UInt8.lt_iff_toNat_lt, UInt8.toNat_div]
    show b.toNat / 16 < 16
    omega
  · rw [mem_singleton.mp low, UInt8.lt_iff_toNat_lt, UInt8.toNat_mod]
    show b.toNat % 16 < 16
    omega

theorem compactToHex_nil : compactToHex [] = none := by decide

theorem goSlice_from {b : Bytes} {low : ℕ} (inside : low ≤ b.length) :
    goSlice b low b.length = some (b.drop low) := by
  rw [goSlice, if_pos (by omega), Int.toNat_natCast, Int.toNat_natCast, take_length]

theorem goSlice_dropLast {b : Bytes} {x : UInt8} :
    goSlice (b ++ [x]) 0 ((b ++ [x]).length - 1 : ℤ) = some b := by
  have size : ((b ++ [x]).length - 1 : ℤ) = (b.length : ℤ) := by simp
  rw [size, goSlice, if_pos (by simp), Int.toNat_natCast, take_left]
  rfl

/-- The nibbles of the key without those of the flag. -/
def keyNibbles (k : UInt8) (ks : Bytes) : Bytes :=
  ((k :: ks).flatMap fun b => [b / 16, b % 16]).drop (2 - ((k / 16) &&& 1).toNat)

theorem keyNibbles_lt (k : UInt8) (ks : Bytes) : ∀ x ∈ keyNibbles k ks, x < terminator :=
  fun x member => nibbles_lt (k :: ks) x (mem_of_mem_drop member)

theorem compactToHex_cons (k : UInt8) (ks : Bytes) : compactToHex (k :: ks) =
    some (if k < 0x20 then keyNibbles k ks else keyNibbles k ks ++ [terminator]) := by
  unfold keyNibbles
  generalize spelled : (k :: ks).flatMap (fun b => [b / 16, b % 16]) = hex
  have two : 2 ≤ hex.length := by
    rw [← spelled]
    simp
  have flagged : hex[0]? = some (k / 16) := by
    rw [← spelled]
    rfl
  have flagged_term : (hex ++ [terminator])[0]? = some (k / 16) := by
    rw [getElem?_append_left (by omega), flagged]
  have odd : ((k / 16) &&& 1).toNat ≤ 1 := by
    rw [UInt8.toNat_and]
    exact Nat.and_le_right
  have chop : (2 - ((k / 16) &&& 1).toNat : ℤ) = ((2 - ((k / 16) &&& 1).toNat : ℕ) : ℤ) := by omega
  have plain : k / 16 < 2 ↔ k < 0x20 := by
    rw [UInt8.lt_iff_toNat_lt, UInt8.lt_iff_toNat_lt, UInt8.toNat_div]
    show k.toNat / 16 < 2 ↔ k.toNat < 32
    omega
  simp only [compactToHex, keybytesToHex, spelled, flagged_term, Option.bind_eq_bind, Option.bind_some]
  by_cases extension : k < 0x20
  · rw [if_pos (plain.mpr extension), if_pos extension, goSlice_dropLast, Option.bind_some, flagged,
      Option.bind_some, chop, goSlice_from (by omega)]
  · rw [if_neg (fun small => extension (plain.mp small)), if_neg extension, chop,
      goSlice_from (by rw [length_append]; omega), drop_append_of_le_length (by omega)]

theorem hasTerm_front {front : Bytes} (nibbles : ∀ x ∈ front, x < terminator) :
    hasTerm front = false := by
  rw [hasTerm]
  cases last : front.getLast? with
  | none => rfl
  | some x =>
    have low := nibbles x (mem_of_getLast? last)
    exact beq_false_of_ne fun same => absurd low (by cases same; decide)

theorem hasTerm_term (front : Bytes) : hasTerm (front ++ [terminator]) = true := by
  simp [hasTerm]

theorem key_cases (kbuf : Bytes) :
    (kbuf = [] ∧ compactToHex kbuf = none) ∨
    (ExtensionKey kbuf ∧ ∃ key, compactToHex kbuf = some key ∧ hasTerm key = false ∧
      ∀ x ∈ key, x < terminator) ∨
    (LeafKey kbuf ∧ ∃ front, compactToHex kbuf = some (front ++ [terminator]) ∧
      ∀ x ∈ front, x < terminator) := by
  cases kbuf with
  | nil => exact .inl ⟨rfl, compactToHex_nil⟩
  | cons k ks =>
    have cut := compactToHex_cons k ks
    have nibbles := keyNibbles_lt k ks
    by_cases extension : k < 0x20
    · rw [if_pos extension] at cut
      exact .inr (.inl ⟨by simpa [ExtensionKey] using extension, _, cut, hasTerm_front nibbles,
        nibbles⟩)
    · rw [if_neg extension] at cut
      exact .inr (.inr ⟨by simpa [LeafKey] using extension, _, cut, nibbles⟩)

theorem not_leaf_of_extension {kbuf : Bytes} (extension : ExtensionKey kbuf) : ¬LeafKey kbuf := by
  cases kbuf with
  | nil => simp [ExtensionKey] at extension
  | cons k ks =>
    simp only [ExtensionKey, LeafKey, head?_cons, Option.any_some, decide_eq_true_eq,
      UInt8.not_le] at extension ⊢
    exact extension

theorem not_extension_nil : ¬ExtensionKey [] := by simp [ExtensionKey]

theorem not_leaf_nil : ¬LeafKey [] := by simp [LeafKey]

/-! What the decoder does with every buffer. -/

/-- On shorter buffers the decoder comes back, except that it panics at keyless nodes, and accepts
the well-formed ones. -/
structure Exact (decode : Bytes → GoCall NodeError TrieNode) (limit : ℕ) : Prop where
  panics_iff : ∀ buf, buf.length < limit → (decode buf = .panics ↔ Keyless buf)
  returns_iff : ∀ buf, buf.length < limit → ((∃ n, decode buf = .returns n) ↔ NodeForm buf)
  not_runs : ∀ buf, buf.length < limit → decode buf ≠ .runs

section Decoding
variable {decode : Bytes → GoCall NodeError TrieNode} {limit : ℕ} {buf rest : Bytes} {k : Kind}
  {val elems : Bytes} {c : ℕ}

theorem embeds_iff (found : split buf = .returns (k, val, rest)) :
    Embeds buf ↔ k = .list ∧ buf.length - rest.length ≤ hashLen := by
  constructor
  · rintro ⟨val', rest', listed, small⟩
    rw [found] at listed
    cases listed
    exact ⟨rfl, small⟩
  · rintro ⟨rfl, small⟩
    exact ⟨val, rest, found, small⟩

theorem refForm_iff {next : Bytes} (found : split buf = .returns (k, val, rest)) :
    RefForm buf next ↔ next = rest ∧ (k = .string ∧ val.length = 0 ∨ k = .string ∧ val.length = 32 ∨
      k = .list ∧ buf.length - rest.length ≤ hashLen ∧ NodeForm buf) := by
  constructor
  · intro form
    cases form with
    | empty here =>
      rw [found] at here
      cases here
      exact ⟨rfl, .inl ⟨rfl, rfl⟩⟩
    | hash here long =>
      rw [found] at here
      cases here
      exact ⟨rfl, .inr (.inl ⟨rfl, long⟩)⟩
    | embedded here small node =>
      rw [found] at here
      cases here
      exact ⟨rfl, .inr (.inr ⟨rfl, small, node⟩)⟩
  · rintro ⟨rfl, ⟨rfl, none_left⟩ | ⟨rfl, long⟩ | ⟨rfl, small, node⟩⟩
    · rw [length_eq_zero_iff.mp none_left] at found
      exact .empty found
    · exact .hash found long
    · exact .embedded found small node

theorem decodeRef_exact (exact : Exact decode limit) (short : buf.length < limit) :
    (decodeRef decode buf = .panics ↔ Embeds buf ∧ Keyless buf) ∧
    (∀ next, (∃ n, decodeRef decode buf = .returns (n, next)) ↔ RefForm buf next) ∧
    decodeRef decode buf ≠ .runs := by
  rcases split_cases buf with ⟨e, failed⟩ | ⟨k, tag, val, rest, found, -⟩
  · have fails : decodeRef decode buf = .fails (.rlp e) := by
      simp only [decodeRef, failed]
      rfl
    rw [fails]
    refine ⟨by simp [Embeds, failed], ?_, by simp⟩
    intro next
    constructor
    · simp
    · intro form
      cases form with
      | empty found | hash found _ | embedded found _ _ =>
        rw [failed] at found
        cases found
  · simp only [embeds_iff found, refForm_iff found, decodeRef, found, mapFail, bind_returns]
    cases k with
    | byte => simp
    | string =>
      by_cases none_left : val.length = 0
      · simp [none_left, eq_comm]
      · by_cases long : val.length = 32
        · simp [long, eq_comm]
        · simp [none_left, long]
    | list =>
      by_cases small : buf.length - rest.length ≤ hashLen
      · have node := exact.returns_iff buf short
        simp only [if_true, Nat.not_lt.mpr small, if_false, bind_eq_panics, bind_eq_returns,
          exact.panics_iff buf short, small, true_and, pure_eq, reduceCtorEq, and_false,
          exists_false, or_false, false_and, false_or, ← node]
        refine ⟨?_, ?_⟩
        · intro next
          constructor
          · rintro ⟨n, m, decoded, same⟩
            cases same
            exact ⟨rfl, n, decoded⟩
          · rintro ⟨rfl, n, decoded⟩
            exact ⟨n, n, decoded, rfl⟩
        · simp [bind_eq_runs, exact.not_runs buf short]
      · simp [small, Nat.not_le.mp small]

theorem RefForm.length_le (form : RefForm buf rest) : rest.length ≤ buf.length := by
  cases form with
  | empty found | hash found _ | embedded found _ _ =>
    have lengths := (split_length found).1
    omega

theorem decodeChildren_exact (exact : Exact decode limit) : ∀ {left i : ℕ} {buf : Bytes},
    buf.length < limit →
    (decodeChildren decode left i buf = .panics ↔
      ∃ n < left, ∃ mid, RefsForm n buf mid ∧ Embeds mid ∧ Keyless mid) ∧
    (∀ rest, (∃ children, decodeChildren decode left i buf = .returns (children, rest)) ↔
      RefsForm left buf rest) ∧ decodeChildren decode left i buf ≠ .runs := by
  intro left i buf short
  induction left generalizing i buf with
  | zero =>
    refine ⟨by simp [decodeChildren], ?_, by simp [decodeChildren]⟩
    intro rest
    constructor
    · rintro ⟨children, done⟩
      cases done
      exact .done
    · intro form
      cases form
      exact ⟨[], rfl⟩
  | succ left ih =>
    obtain ⟨ref_panics, ref_returns, ref_runs⟩ := decodeRef_exact exact short
    have step : decodeChildren decode (left + 1) i buf =
        ((decodeRef decode buf).mapFail (wrapError ("[" ++ toString i ++ "]")) >>= fun first =>
          decodeChildren decode left (i + 1) first.2 >>= fun later =>
            .returns (first.1 :: later.1, later.2)) := rfl
    have later {n : TrieNode} {mid : Bytes} (first : decodeRef decode buf = .returns (n, mid)) :=
      ih (i := i + 1) (((ref_returns mid).mp ⟨n, first⟩).length_le.trans_lt short)
    rw [step]
    refine ⟨?_, ?_, ?_⟩
    · rw [bind_eq_panics, mapFail_eq_panics, ref_panics]
      constructor
      · rintro (⟨embeds, keyless⟩ | ⟨⟨n, mid⟩, first, panicked⟩)
        · exact ⟨0, by omega, buf, .done, embeds, keyless⟩
        · rw [mapFail_eq_returns] at first
          simp only [bind_eq_panics, reduceCtorEq, and_false, exists_false, or_false] at panicked
          obtain ⟨m, inside, last, refs, bad⟩ := (later first).1.mp panicked
          exact ⟨m + 1, by omega, last, .next ((ref_returns mid).mp ⟨n, first⟩) refs, bad⟩
      · rintro ⟨m, inside, last, refs, bad⟩
        cases refs with
        | done => exact .inl bad
        | @next m _ mid _ ref refs =>
          obtain ⟨n, first⟩ := (ref_returns mid).mpr ref
          refine .inr ⟨(n, mid), mapFail_eq_returns.mpr first, ?_⟩
          exact bind_eq_panics.mpr (.inl ((later first).1.mpr ⟨m, by omega, last, refs, bad⟩))
    · intro rest
      simp only [bind_eq_returns, mapFail_eq_returns]
      constructor
      · rintro ⟨children, ⟨n, mid⟩, first, ⟨cs, last⟩, done, same⟩
        cases same
        exact .next ((ref_returns mid).mp ⟨n, first⟩) (((later first).2.1 last).mp ⟨cs, done⟩)
      · intro form
        cases form with
        | @next _ _ mid _ ref refs =>
          obtain ⟨n, first⟩ := (ref_returns mid).mpr ref
          obtain ⟨cs, done⟩ := ((later first).2.1 rest).mpr refs
          exact ⟨n :: cs, (n, mid), first, (cs, rest), done, rfl⟩
    · simp only [ne_eq, bind_eq_runs, mapFail_eq_runs, mapFail_eq_returns, reduceCtorEq, and_false,
        exists_false, or_false, not_or, not_exists, not_and]
      exact ⟨ref_runs, fun first found => (later found).2.2⟩

theorem decodeShort_exact (exact : Exact decode limit) (short : elems.length < limit) :
    (decodeShort decode elems = .panics ↔
      ∃ kbuf tail, splitString elems = .returns (kbuf, tail) ∧
        (kbuf = [] ∨ ExtensionKey kbuf ∧ Embeds tail ∧ Keyless tail)) ∧
    ((∃ n, decodeShort decode elems = .returns n) ↔
      ∃ kbuf tail, splitString elems = .returns (kbuf, tail) ∧
        (LeafKey kbuf ∧ (∃ val rest, splitString tail = .returns (val, rest)) ∨
          ExtensionKey kbuf ∧ ∃ rest, RefForm tail rest)) ∧ decodeShort decode elems ≠ .runs := by
  cases head : splitString elems with
  | fails e => simp [decodeShort, head, mapFail, bind]
  | panics => exact absurd (splitString_returned elems) (by simp [head, Returned])
  | runs => exact absurd (splitString_returned elems) (by simp [head, Returned])
  | returns found =>
    obtain ⟨kbuf, tail⟩ := found
    have unfolded : decodeShort decode elems = (orPanic (compactToHex kbuf) >>= fun key =>
        if hasTerm key then (splitString tail).mapFail .valueNode >>= fun value =>
          .returns (.short key (.value value.1))
        else (decodeRef decode tail).mapFail (wrapError "val") >>= fun ref =>
          .returns (.short key ref.1)) := by
      simp only [decodeShort, head]
      rfl
    have only {P : Bytes → Bytes → Prop} : (∃ kbuf' tail', (GoCall.returns (kbuf, tail) :
        GoCall StreamError _) = .returns (kbuf', tail') ∧ P kbuf' tail') ↔ P kbuf tail := by
      constructor
      · rintro ⟨kbuf', tail', same, holds⟩
        cases same
        exact holds
      · exact fun holds => ⟨kbuf, tail, rfl, holds⟩
    rw [unfolded, only, only]
    rcases key_cases kbuf with ⟨rfl, cut⟩ | ⟨extension, key, cut, plain, -⟩ | ⟨leaf, front, cut, -⟩
    · simp [cut, orPanic, bind, not_leaf_nil, not_extension_nil]
    · have tail_short : tail.length < limit := by
        obtain ⟨k, -, whole⟩ := splitString_eq_returns.mp head
        have lengths := (split_length whole).1
        omega
      obtain ⟨ref_panics, ref_returns, ref_runs⟩ := decodeRef_exact exact tail_short
      have some_key : kbuf ≠ [] := by
        rintro rfl
        exact not_extension_nil extension
      simp only [cut, orPanic, bind_returns, plain, Bool.false_eq_true, if_false, extension,
        not_leaf_of_extension extension, some_key, true_and, false_and, false_or, ne_eq,
        bind_eq_panics, bind_eq_runs, bind_eq_returns, mapFail_eq_panics, mapFail_eq_runs,
        mapFail_eq_returns, ref_panics, ref_runs, reduceCtorEq, and_false, exists_false, or_false,
        not_false_eq_true, and_true, ← ref_returns]
      constructor
      · rintro ⟨n, ⟨m, rest⟩, decoded, -⟩
        exact ⟨rest, m, decoded⟩
      · rintro ⟨rest, m, decoded⟩
        exact ⟨_, (m, rest), decoded, rfl⟩
    · obtain ⟨no_panic, no_run⟩ := returned_iff.mp (splitString_returned tail)
      have some_key : kbuf ≠ [] := by
        rintro rfl
        exact not_leaf_nil leaf
      have not_extension : ¬ExtensionKey kbuf := fun extension =>
        not_leaf_of_extension extension leaf
      simp only [cut, orPanic, bind_returns, hasTerm_term, if_true, leaf, not_extension, some_key,
        true_and, false_and, or_false, ne_eq, bind_eq_panics, bind_eq_runs, bind_eq_returns,
        mapFail_eq_panics, mapFail_eq_runs, mapFail_eq_returns, no_panic, no_run, reduceCtorEq,
        and_false, exists_false, not_false_eq_true, and_true]
      constructor
      · rintro ⟨n, ⟨val, rest⟩, value, -⟩
        exact ⟨val, rest, value⟩
      · rintro ⟨val, rest, value⟩
        exact ⟨_, (val, rest), value, rfl⟩

theorem decodeFull_exact (exact : Exact decode limit) (short : elems.length < limit) :
    (decodeFull decode elems = .panics ↔
      ∃ n < 16, ∃ mid, RefsForm n elems mid ∧ Embeds mid ∧ Keyless mid) ∧
    ((∃ n, decodeFull decode elems = .returns n) ↔
      ∃ tail, RefsForm 16 elems tail ∧ ∃ val rest, splitString tail = .returns (val, rest)) ∧
    decodeFull decode elems ≠ .runs := by
  obtain ⟨refs_panic, refs_return, refs_run⟩ : (decodeChildren decode 16 0 elems = .panics ↔ _) ∧ _ :=
    decodeChildren_exact exact short
  have unfolded : decodeFull decode elems = (decodeChildren decode 16 0 elems >>= fun children =>
      (splitString children.2).mapFail .rlp >>= fun value =>
        .returns (fullNode children.1 value.1)) := rfl
  have value_returned (tail : Bytes) := returned_iff.mp (splitString_returned tail)
  rw [unfolded]
  simp only [bind_eq_panics, bind_eq_returns, bind_eq_runs, mapFail_eq_panics, mapFail_eq_returns,
    mapFail_eq_runs, refs_panic, refs_run, (value_returned _).1, (value_returned _).2, ne_eq,
    reduceCtorEq, and_false, exists_false, or_false, not_false_eq_true, and_true, true_and,
    ← refs_return]
  constructor
  · rintro ⟨n, ⟨children, tail⟩, decoded, ⟨val, rest⟩, value, -⟩
    exact ⟨tail, ⟨children, decoded⟩, val, rest, value⟩
  · rintro ⟨tail, ⟨children, decoded⟩, val, rest, value⟩
    exact ⟨_, (children, tail), decoded, (val, rest), value, rfl⟩

theorem ListOf.unique {elems' : Bytes} {c' : ℕ} (first : ListOf buf elems c)
    (second : ListOf buf elems' c') : elems = elems' ∧ c = c' := by
  obtain ⟨⟨rest, split⟩, count⟩ := first
  obtain ⟨⟨rest', split'⟩, count'⟩ := second
  rw [split] at split'
  cases split'
  rw [count] at count'
  cases count'
  exact ⟨rfl, rfl⟩

theorem keyless_iff (list : ListOf buf elems c) : Keyless buf ↔
    (c = 2 ∧ ∃ kbuf tail, splitString elems = .returns (kbuf, tail) ∧
      (kbuf = [] ∨ ExtensionKey kbuf ∧ Embeds tail ∧ Keyless tail)) ∨
    (c = 17 ∧ ∃ n < 16, ∃ mid, RefsForm n elems mid ∧ Embeds mid ∧ Keyless mid) := by
  constructor
  · intro keyless
    cases keyless with
    | here list' empty =>
      obtain ⟨rfl, rfl⟩ := list.unique list'
      exact .inl ⟨rfl, _, _, empty, .inl rfl⟩
    | inside list' head extension embeds lower =>
      obtain ⟨rfl, rfl⟩ := list.unique list'
      exact .inl ⟨rfl, _, _, head, .inr ⟨extension, embeds, lower⟩⟩
    | child list' inside refs embeds lower =>
      obtain ⟨rfl, rfl⟩ := list.unique list'
      exact .inr ⟨rfl, _, inside, _, refs, embeds, lower⟩
  · rintro (⟨rfl, kbuf, tail, head, rfl | ⟨extension, embeds, lower⟩⟩ |
      ⟨rfl, n, inside, mid, refs, embeds, lower⟩)
    · exact .here list head
    · exact .inside list head extension embeds lower
    · exact .child list inside refs embeds lower

theorem nodeForm_iff (list : ListOf buf elems c) : NodeForm buf ↔
    (c = 2 ∧ ∃ kbuf tail, splitString elems = .returns (kbuf, tail) ∧
      (LeafKey kbuf ∧ (∃ val rest, splitString tail = .returns (val, rest)) ∨
        ExtensionKey kbuf ∧ ∃ rest, RefForm tail rest)) ∨
    (c = 17 ∧ ∃ tail, RefsForm 16 elems tail ∧ ∃ val rest, splitString tail = .returns (val, rest)) := by
  constructor
  · intro form
    cases form with
    | leaf list' head leaf value =>
      obtain ⟨rfl, rfl⟩ := list.unique list'
      exact .inl ⟨rfl, _, _, head, .inl ⟨leaf, _, _, value⟩⟩
    | extension list' head extension ref =>
      obtain ⟨rfl, rfl⟩ := list.unique list'
      exact .inl ⟨rfl, _, _, head, .inr ⟨extension, _, ref⟩⟩
    | branch list' refs value =>
      obtain ⟨rfl, rfl⟩ := list.unique list'
      exact .inr ⟨rfl, _, refs, _, _, value⟩
  · rintro (⟨rfl, kbuf, tail, head, ⟨leaf, val, rest, value⟩ | ⟨extension, rest, ref⟩⟩ |
      ⟨rfl, tail, refs, val, rest, value⟩)
    · exact .leaf list head leaf value
    · exact .extension list head extension ref
    · exact .branch list refs value

theorem decodeNode_step (depth : ℕ) (buf : Bytes) :
    (∃ e, decodeNode (depth + 1) buf = .fails e ∧
      ∀ elems c, ListOf buf elems c → c ≠ 2 ∧ c ≠ 17) ∨
    (∃ elems, ListOf buf elems 2 ∧ elems.length < buf.length ∧ decodeNode (depth + 1) buf =
      (decodeShort (decodeNode depth) elems).mapFail (wrapError "short")) ∨
    (∃ elems, ListOf buf elems 17 ∧ elems.length < buf.length ∧ decodeNode (depth + 1) buf =
      (decodeFull (decodeNode depth) elems).mapFail (wrapError "full")) := by
  by_cases empty : buf.length = 0
  · refine .inl ⟨.unexpectedEof, by simp [decodeNode, empty], ?_⟩
    rintro elems c ⟨⟨rest, found⟩, -⟩
    have lengths := (split_length (splitList_eq_returns.mp found)).2 rfl
    omega
  · cases found : splitList buf with
    | panics => exact absurd (splitList_returned buf) (by simp [found, Returned])
    | runs => exact absurd (splitList_returned buf) (by simp [found, Returned])
    | fails e =>
      refine .inl ⟨.notList e, by simp [decodeNode, empty, found, mapFail, bind], ?_⟩
      rintro elems c ⟨⟨rest, split⟩, -⟩
      rw [found] at split
      cases split
    | returns list =>
      obtain ⟨elems, rest⟩ := list
      have shorter : elems.length < buf.length := by
        have lengths := (split_length (splitList_eq_returns.mp found)).2 rfl
        omega
      have elems_of {elems' : Bytes} {c : ℕ} (list : ListOf buf elems' c) :
          countValues elems = .returns c := by
        obtain ⟨⟨rest', split⟩, count⟩ := list
        rw [found] at split
        cases split
        exact count
      cases count : countValues elems with
      | panics => exact absurd (countValues_returned elems) (by simp [count, Returned])
      | runs => exact absurd (countValues_returned elems) (by simp [count, Returned])
      | fails e =>
        refine .inl ⟨.elements 0, ?_, ?_⟩
        · simp [decodeNode, empty, found, count, mapFail, dropFail]
        · intro elems' c list
          have counted := elems_of list
          rw [count] at counted
          cases counted
      | returns c =>
        have list : ListOf buf elems c := ⟨⟨rest, found⟩, count⟩
        by_cases two : c = 2
        · subst two
          refine .inr (.inl ⟨elems, list, shorter, ?_⟩)
          simp [decodeNode, empty, found, count, mapFail, dropFail]
        · by_cases seventeen : c = 17
          · subst seventeen
            refine .inr (.inr ⟨elems, list, shorter, ?_⟩)
            simp [decodeNode, empty, found, count, mapFail, dropFail]
          · refine .inl ⟨.elements c, ?_, ?_⟩
            · simp [decodeNode, empty, found, count, mapFail, dropFail, two, seventeen]
            · intro elems' c' list'
              obtain ⟨-, rfl⟩ := list.unique list'
              exact ⟨two, seventeen⟩

theorem decodeNode_exact : ∀ depth, Exact (decodeNode depth) depth
  | 0 => ⟨fun _ short => absurd short (by omega), fun _ short => absurd short (by omega),
      fun _ short => absurd short (by omega)⟩
  | depth + 1 => by
      have whole (buf : Bytes) (short : buf.length < depth + 1) :
          (decodeNode (depth + 1) buf = .panics ↔ Keyless buf) ∧
          ((∃ n, decodeNode (depth + 1) buf = .returns n) ↔ NodeForm buf) ∧
          decodeNode (depth + 1) buf ≠ .runs := by
        rcases decodeNode_step depth buf with ⟨e, refused, other⟩ | ⟨elems, list, shorter, step⟩ |
          ⟨elems, list, shorter, step⟩
        · rw [refused]
          refine ⟨iff_of_false (by simp) ?_, iff_of_false (by simp) ?_, by simp⟩
          · intro keyless
            cases keyless with
            | here list _ | inside list _ _ _ _ | child list _ _ _ _ =>
              have counts := other _ _ list
              omega
          · intro form
            cases form with
            | leaf list _ _ _ | extension list _ _ _ | branch list _ _ =>
              have counts := other _ _ list
              omega
        · rw [step, keyless_iff list, nodeForm_iff list]
          simp only [mapFail_eq_panics, mapFail_eq_returns, ne_eq, mapFail_eq_runs, true_and,
            Nat.reduceEqDiff, false_and, or_false]
          exact decodeShort_exact (decodeNode_exact depth) (by omega)
        · rw [step, keyless_iff list, nodeForm_iff list]
          simp only [mapFail_eq_panics, mapFail_eq_returns, ne_eq, mapFail_eq_runs, true_and,
            Nat.reduceEqDiff, false_and, false_or]
          exact decodeFull_exact (decodeNode_exact depth) (by omega)
      exact ⟨fun buf short => (whole buf short).1, fun buf short => (whole buf short).2.1,
        fun buf short => (whole buf short).2.2⟩

end Decoding

end Anduschain.Trie
