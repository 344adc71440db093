import Anduschain.TrieHasher
import Mathlib.Data.Set.Finite.Lattice

/-! Merkle proofs of a trie (trie/proof.go): the nodes that `Prove` writes lead `VerifyProof` to
the entry, and no other set of nodes under their hashes leads it anywhere else. Nodes of the trie
may be in its database only. -/
namespace Anduschain.Trie
open ByteOrder GoCall RlpItem List
open Radix (Canonical Terminated)

inductive ProveError where
  | missingNode (hash : Bytes)

/-- A stored node that does not decode is a panic. -/
def resolveHash (db : DatabaseReader) (h : Bytes) : GoCall ProveError TrieNode :=
  match db h with
  | none => .fails (.missingNode h)
  | some enc =>
    match decodeNode (enc.length + 1) enc with
    | .returns n => .returns n
    | _ => .panics

def proveLoop (db : DatabaseReader) : ℕ → TrieNode → Bytes → GoCall ProveError (List TrieNode)
  | 0, _, _ => .runs
  | _ + 1, _, [] => .returns []
  | turns + 1, tn, c :: rest =>
    match tn with
    | .nil => .returns []
    | .short k v => do
      let nodes ←
        if (c :: rest).length < k.length ∨ k ≠ (c :: rest).take k.length then
          proveLoop db turns .nil (c :: rest)
        else proveLoop db turns v ((c :: rest).drop k.length)
      return .short k v :: nodes
    | .full cs => do
      let i ← orPanic (child c)
      let nodes ← proveLoop db turns (cs i) rest
      return .full cs :: nodes
    | .hash h => do
      let n ← resolveHash db h
      proveLoop db turns n (c :: rest)
    | .value _ => .panics

section Prove
variable (crypto : Crypto)

def proofElement (first : Bool) (n : TrieNode) : Option (Bytes × Bytes) :=
  let n := hashChildren crypto n
  match store crypto false n with
  | .hash h => some (h, nodeBytes n)
  | _ => if first then some (hashBytes (crypto.keccak (nodeBytes n)), nodeBytes n) else none

def putNodes : (first : Bool) → (fromLevel : ℕ) → List TrieNode → List (Bytes × Bytes)
  | _, _, [] => []
  | first, fromLevel, n :: nodes =>
    match proofElement crypto first n with
    | none => putNodes false fromLevel nodes
    | some put =>
      if 0 < fromLevel then putNodes false (fromLevel - 1) nodes
      else put :: putNodes false fromLevel nodes

def prove (db : DatabaseReader) (turns : ℕ) (root : TrieNode) (key : Bytes) (fromLevel : ℕ) :
    GoCall ProveError (List (Bytes × Bytes)) := do
  let nodes ← proveLoop db turns root (keybytesToHex key)
  return putNodes crypto true fromLevel nodes

end Prove

/-- A database that was empty; the last value put under a key stays. -/
def putReader (puts : List (Bytes × Bytes)) : DatabaseReader := fun key =>
  (puts.reverse.find? fun put => put.1 = key).map Prod.snd

/-! The nodes in memory and what they stand for. -/

section Loading
variable (crypto : Crypto) (db : DatabaseReader)

def Kept (r : Nibbles) : Prop :=
  ∀ s, Below s r → Large crypto s → db (hashOf crypto s) = some (body crypto s)

/-- A node in memory for a trie, of which parts may be in the database only. -/
inductive Loaded : TrieNode → Nibbles → Prop
  | nil : Loaded .nil .nil
  | value (b : Bytes) : Loaded (.value b) (.value b)
  | short {n : TrieNode} {v : Nibbles} (k : List (Fin 17)) : Loaded n v →
      Loaded (.short (nibbles k) n) (.short k v)
  | full {ns : Fin 17 → TrieNode} {cs : Fin 17 → Nibbles} : (∀ i, Loaded (ns i) (cs i)) →
      Loaded (.full ns) (.full cs)
  | stored {r : Nibbles} : Large crypto r → Kept crypto db r → Loaded (.hash (hashOf crypto r)) r

/-- A trie that is not empty with its entries. The root may be unloaded even if it is small. -/
structure TrieOf (root : TrieNode) (r : Nibbles) (entries : Bytes → Option Bytes) : Prop where
  proper : Proper crypto r
  holds : Holds r entries
  loaded : Loaded crypto db root r ∨
    root = .hash (hashOf crypto r) ∧ db (hashOf crypto r) = some (body crypto r) ∧ Kept crypto db r

variable {crypto db} {n : TrieNode} {r : Nibbles}

theorem loaded_embed (r : Nibbles) : Loaded crypto db (embed r) r := by
  induction r with
  | nil => exact .nil
  | value b => exact .value b
  | short k v ih => exact .short k ih
  | full cs ih => exact .full ih

theorem Kept.below {s : Nibbles} (kept : Kept crypto db r) (below : ∀ q, Below q s → Below q r) :
    Kept crypto db s := fun q inner => kept q (below q inner)

theorem loaded_seenRef (kept : Kept crypto db r) :
    Loaded crypto db (seen crypto r) r ∧ Loaded crypto db (seenRef crypto r) r := by
  have ref (lower : Loaded crypto db (seen crypto r) r) : Loaded crypto db (seenRef crypto r) r := by
    rw [seenRef]
    split_ifs with large
    · exact .stored large kept
    · exact lower
  suffices lower : Loaded crypto db (seen crypto r) r from ⟨lower, ref lower⟩
  clear ref
  induction r with
  | nil => exact .nil
  | value b => exact .value b
  | short k v ih =>
    have below := kept.below (s := v) fun _ inner => .short inner
    refine .short k ?_
    split_ifs with large
    · exact .stored large below
    · exact ih below
  | full cs ih =>
    refine .full fun i => ?_
    have below := kept.below (s := cs i) fun _ inner => .full inner
    split_ifs with large
    · exact .stored large below
    · exact ih i below

theorem Large.ne_value {b : Bytes} (large : Large crypto r) : r ≠ .value b := by
  rintro rfl
  exact large

theorem Loaded.eq_nil (loaded : Loaded crypto db n .nil) : n = .nil := by
  cases loaded with
  | nil => rfl
  | stored large => exact large.elim

theorem Loaded.eq_value {b : Bytes} (loaded : Loaded crypto db n (.value b)) : n = .value b := by
  cases loaded with
  | value b => rfl
  | stored large => exact large.elim

theorem Loaded.not_value (loaded : Loaded crypto db n r) (canonical : Canonical 16 r) :
    n.isValue = false := by
  cases loaded with
  | value b => exact absurd rfl (canonical.ne_value b)
  | _ => rfl

theorem Loaded.hash_eq_of (loaded : Loaded crypto db n r) (shaped : r = .nil ∨ Canonical 16 r)
    (same : Canonical 16 r → (∀ h, n ≠ .hash h) →
      hashChildren crypto n = hashChildren crypto (embed r)) :
    hash crypto n = hash crypto (embed r) := by
  rcases shaped with rfl | canonical
  · rw [loaded.eq_nil, embed]
  · cases loaded with
    | stored large kept =>
      rw [hash_embed fun b => large.ne_value, if_pos large]
      rfl
    | _ => rw [hash_eq, hash_eq, same canonical (by rintro _ ⟨⟩)]

theorem Loaded.collapsed (loaded : Loaded crypto db n r) (canonical : Canonical 16 r)
    (here : ∀ h, n ≠ .hash h) : hashChildren crypto n = hashChildren crypto (embed r) := by
  induction loaded with
  | nil => rfl
  | value b => rfl
  | stored large kept => exact absurd rfl (here _)
  | @short n v k lower ih =>
    rcases canonical.short_cases with ⟨-, b, rfl⟩ | ⟨-, -, below, -⟩
    · rw [lower.eq_value]
      rfl
    · have same := lower.hash_eq_of (.inr below) ih
      have plain : (embed v).isValue = false := by
        cases below <;> rfl
      simp only [embed, hashChildren, lower.not_value below, plain, Bool.false_eq_true, if_false, same]
  | @full ns cs lower ih =>
    cases canonical with
    | full inner last two =>
      simp only [embed, hashChildren]
      congr 1
      funext i
      by_cases low : i.val < 16
      · have shaped : cs i = .nil ∨ Canonical 16 (cs i) := by
          by_cases none : cs i = .nil
          · exact .inl none
          · exact .inr (inner i (by rintro rfl; exact absurd low (by decide)) none)
        rw [if_pos low, if_pos low, (lower i).hash_eq_of shaped (ih i)]
      · obtain rfl : i = 16 := Fin.ext (by have := i.isLt; omega)
        have marked := lower 16
        rw [if_neg low, if_neg low]
        rcases last with none | ⟨b, valued⟩
        · rw [none] at marked ⊢
          rw [marked.eq_nil, embed]
        · rw [valued] at marked ⊢
          rw [marked.eq_value, embed]

end Loading

/-! Walking down. -/

inductive Reach : Nibbles → List (Fin 17) → Nibbles → List (Fin 17) → Prop
  | here {r : Nibbles} {key : List (Fin 17)} : Reach r key r key
  | short {v s : Nibbles} {k rest t : List (Fin 17)} : Reach v rest s t →
      Reach (.short k v) (k ++ rest) s t
  | full {cs : Fin 17 → Nibbles} {s : Nibbles} {i : Fin 17} {rest t : List (Fin 17)} :
      Reach (cs i) rest s t → Reach (.full cs) (i :: rest) s t

section Walk
variable {crypto : Crypto} {db : DatabaseReader} {r s q : Nibbles} {key t u k rest : List (Fin 17)}

theorem Reach.trans (first : Reach r key s t) (second : Reach s t q u) : Reach r key q u := by
  induction first with
  | here => exact second
  | short _ ih => exact .short (ih second)
  | full _ ih => exact .full (ih second)

theorem Reach.inside (reach : Reach r key s t) : ∀ q, Below q s → Below q r := by
  induction reach with
  | here => exact fun _ inner => inner
  | short _ ih => exact fun q inner => .short (ih q inner)
  | full _ ih => exact fun q inner => .full (ih q inner)

structure Hop (crypto : Crypto) (r : Nibbles) (key : List (Fin 17)) (s : Nibbles)
    (t : List (Fin 17)) : Prop where
  reach : Reach r key s t
  large : Large crypto s
  canonical : Canonical 16 s
  ended : Terminated 16 t
  shorter : t.length < key.length
  same : s.get t = r.get key

/-- Where a walk ends: without the key, at its value, or at a node that is not part of this one. -/
def Ends (crypto : Crypto) (r : Nibbles) (key : List (Fin 17)) (rest : Bytes) (out : TrieNode) : Prop :=
  out = .nil ∧ r.get key = none ∨ (∃ b, out = .value b ∧ r.get key = some b) ∨
    ∃ s t, out = .hash (hashOf crypto s) ∧ rest = nibbles t ∧ Hop crypto r key s t

theorem parts_iff (k key : List (Fin 17)) :
    ((nibbles key).length < (nibbles k).length ∨
      nibbles k ≠ (nibbles key).take (nibbles k).length) ↔ ¬k <+: key := by
  rw [← nibbles_prefix_iff, List.isPrefixOf_iff_prefix, prefix_iff_eq_take]
  constructor
  · rintro (long | differ) same
    · have lengths := congrArg List.length same
      rw [length_take] at lengths
      omega
    · exact differ same
  · exact .inr

theorem nibbles_drop (k rest : List (Fin 17)) :
    (nibbles (k ++ rest)).drop (nibbles k).length = nibbles rest := by
  rw [nibbles_append, drop_left]

variable {n m : TrieNode} {v : Nibbles} {nodes : List TrieNode}

theorem get_short_off_path (apart : ¬k <+: key) :
    get (.short (nibbles k) n) (nibbles key) = some ([], .nil) := by
  rw [get, if_pos ((parts_iff k key).mpr apart)]

theorem get_short_on_path (n : TrieNode) :
    get (.short (nibbles k) n) (nibbles (k ++ rest)) = get n (nibbles rest) := by
  rw [get, if_neg (mt (parts_iff k (k ++ rest)).mp (not_not.mpr (prefix_append _ _))), nibbles_drop]

theorem get_full_step (ns : Fin 17 → TrieNode) (i : Fin 17) :
    get (.full ns) (nibbles (i :: rest)) = get (ns i) (nibbles rest) := by
  have byte : (UInt8.ofNat i.val).toNat = i.val := RlpItem.tag_toNat (by omega)
  rw [nibbles, map_cons, get, dif_pos (by omega)]
  simp only [byte]
  rfl

theorem ends_seenRef (shaped : v = .nil ∨ Canonical 16 v)
    (ended : Terminated 16 rest) (step : Reach r key v rest) (shorter : rest.length < key.length)
    (same : v.get rest = r.get key) (lower : Canonical 16 v → ∃ rest' out,
      get (seen crypto v) (nibbles rest) = some (rest', out) ∧
      Ends crypto v rest rest' out) :
    ∃ rest' out, get (seenRef crypto v) (nibbles rest) = some (rest', out) ∧
      Ends crypto r key rest' out := by
  rcases shaped with rfl | canonical
  · exact ⟨_, _, rfl, .inl ⟨rfl, same.symm⟩⟩
  · rw [seenRef]
    split_ifs with large
    · exact ⟨_, _, rfl, .inr (.inr ⟨v, rest, rfl, rfl, step, large, canonical, ended, shorter, same⟩)⟩
    · obtain ⟨rest', out, walked, ends⟩ := lower canonical
      refine ⟨rest', out, walked, ?_⟩
      rw [Ends, ← same]
      refine ends.imp_right (Or.imp_right ?_)
      rintro ⟨s, t, out, rest, hop⟩
      exact ⟨s, t, out, rest, step.trans hop.reach, hop.large, hop.canonical, hop.ended,
        hop.shorter.trans shorter, hop.same.trans same⟩

theorem get_seen (canonical : Canonical 16 r) (ended : Terminated 16 key) :
    ∃ rest out, get (seen crypto r) (nibbles key) = some (rest, out) ∧ Ends crypto r key rest out := by
  induction r generalizing key with
  | nil => exact absurd rfl canonical.ne_nil
  | value b => exact absurd rfl (canonical.ne_value b)
  | short k v ih =>
    change ∃ rest out, get (.short (nibbles k) (seenRef crypto v)) (nibbles key) = some (rest, out) ∧ _
    by_cases starts : k <+: key
    · obtain ⟨rest, rfl⟩ := starts
      rw [get_short_on_path]
      rcases canonical.short_cases with ⟨whole, b, rfl⟩ | ⟨some, absent, below, -⟩
      · obtain rfl : rest = [] := by
          simpa using (whole.eq_of_prefix ended (prefix_append _ _)).symm
        exact ⟨_, _, rfl, .inr (.inl ⟨b, rfl, by rw [Radix.get_short_append]; rfl⟩)⟩
      · refine ends_seenRef (.inr below) ((Radix.terminated_append absent).mp ended) (.short .here) ?_
          Radix.get_short_append.symm fun below => ih below ((Radix.terminated_append absent).mp ended)
        have positive := length_pos_iff.mpr some
        rw [length_append]
        omega
    · exact ⟨_, _, get_short_off_path starts, .inl ⟨rfl, Radix.get_short_off starts⟩⟩
  | full cs ih =>
    cases key with
    | nil => exact absurd rfl ended.ne_nil
    | cons i rest =>
      change ∃ rest out, get (.full fun i => seenRef crypto (cs i)) _ = some (rest, out) ∧ _
      rw [get_full_step]
      cases canonical with
      | full lower last two =>
        rcases Radix.terminated_cons.mp ended with ⟨rfl, rfl⟩ | ⟨inner, ended⟩
        · rcases last with none | ⟨b, valued⟩
          · rw [none]
            exact ⟨_, _, rfl, .inl ⟨rfl, by rw [Radix.get, none]; rfl⟩⟩
          · rw [valued]
            exact ⟨_, _, rfl, .inr (.inl ⟨b, rfl, by rw [Radix.get, valued]; rfl⟩)⟩
        · refine ends_seenRef ?_ ended (.full .here) (by simp) rfl fun below => ih i below ended
          by_cases none : cs i = .nil
          · exact .inl none
          · exact .inr (lower i inner none)

theorem verifyLoop_hop (proper : Proper crypto r) (ended : Terminated 16 key)
    (found : db (hashOf crypto r) = some (body crypto r)) (i : ℕ) :
    (∃ j, ∀ turns, verifyLoop db (turns + 1) i (nibbles key) (hashOf crypto r) =
      .returns (r.get key, j)) ∨
    ∃ s t, Hop crypto r key s t ∧ ∀ turns,
      verifyLoop db (turns + 1) i (nibbles key) (hashOf crypto r) =
        verifyLoop db turns (i + 1) (nibbles t) (hashOf crypto s) := by
  obtain ⟨rest, out, walked, ends⟩ : ∃ rest out, _ ∧ Ends crypto r key rest out :=
    get_seen proper.canonical ended
  have decoded := decodeNode_body proper ((body crypto r).length + 1) [] (by simp)
  rw [append_nil] at decoded
  rcases ends with ⟨rfl, absent⟩ | ⟨b, rfl, present⟩ | ⟨s, t, rfl, rfl, hop⟩
  · refine .inl ⟨i, fun turns => ?_⟩
    simp only [verifyLoop, found, decoded, mapFail, bind_returns, walked, orPanic, absent, pure_eq]
  · refine .inl ⟨i + 1, fun turns => ?_⟩
    simp only [verifyLoop, found, decoded, mapFail, bind_returns, walked, orPanic, present, pure_eq]
  · refine .inr ⟨s, t, hop, fun turns => ?_⟩
    simp only [verifyLoop, found, decoded, mapFail, bind_returns, walked, orPanic]

theorem Hop.proper (hop : Hop crypto r key s t) (proper : Proper crypto r) :
    Proper crypto s := proper.of_below hop.reach.inside hop.canonical

theorem verifyLoop_complete (proper : Proper crypto r) (ended : Terminated 16 key)
    (found : ∀ s t, Reach r key s t → Canonical 16 s → s = r ∨ Large crypto s →
      db (hashOf crypto s) = some (body crypto s)) (i : ℕ) :
    ∃ turns j, verifyLoop db turns i (nibbles key) (hashOf crypto r) = .returns (r.get key, j) := by
  generalize size : key.length = n
  induction n using Nat.strong_induction_on generalizing r key i with
  | h n ih =>
    subst size
    rcases verifyLoop_hop proper ended (found r key .here proper.canonical (.inl rfl)) i with
      ⟨j, done⟩ | ⟨s, t, hop, next⟩
    · exact ⟨1, j, done 0⟩
    · obtain ⟨turns, j, done⟩ :=
        ih _ hop.shorter (hop.proper proper) hop.ended (fun q u reach inner large =>
        found q u (hop.reach.trans reach) inner (.inr (large.elim (fun same => same ▸ hop.large) id)))
        (i + 1) rfl
      exact ⟨turns + 1, j, by rw [next, done, hop.same]⟩

theorem verifyLoop_sound {nodes : List Bytes} (proper : Proper crypto r)
    (ended : Terminated 16 key) (apart : ∀ b ∈ nodes, ∀ s, Below s r → Canonical 16 s →
      crypto.keccak b = crypto.keccak (body crypto s) → b = body crypto s)
    {turns i j : ℕ} {value : Option Bytes}
    (done : verifyLoop (nodeSet crypto nodes) turns i (nibbles key) (hashOf crypto r) =
      .returns (value, j)) : value = r.get key := by
  induction turns generalizing r key i with
  | zero => cases done
  | succ turns ih =>
    cases found : nodeSet crypto nodes (hashOf crypto r) with
    | none =>
      simp only [verifyLoop, found] at done
      cases done
    | some buf =>
      obtain ⟨member, hashed⟩ := nodeSet_eq_some found
      obtain rfl := apart buf member r .here proper.canonical (hashBytes_inj hashed)
      rcases verifyLoop_hop proper ended found i with ⟨k, ends⟩ | ⟨s, t, hop, next⟩
      · rw [ends] at done
        exact (Prod.mk.inj (returns.inj done)).1.symm
      · rw [next] at done
        rw [← hop.same]
        exact ih (hop.proper proper) hop.ended
          (fun b member q inner => apart b member q (hop.reach.inside q inner)) done

/-! What `Prove` collects. -/

structure Collected (crypto : Crypto) (nodes : List TrieNode) (r : Nibbles) (key : List (Fin 17)) :
    Prop where
  all : ∀ s t, Reach r key s t → Canonical 16 s →
    ∃ m ∈ nodes, hashChildren crypto m = hashChildren crypto (embed s)
  only : ∀ m ∈ nodes, ∃ s, Below s r ∧ Canonical 16 s ∧
    hashChildren crypto m = hashChildren crypto (embed s)
  first : Canonical 16 r → ∃ m ∈ nodes.head?,
    hashChildren crypto m = hashChildren crypto (embed r)

def Collects (crypto : Crypto) (db : DatabaseReader) (n : TrieNode) (r : Nibbles)
    (key : List (Fin 17)) : Prop :=
  ∃ turns nodes, proveLoop db turns n (nibbles key) = .returns nodes ∧ Collected crypto nodes r key

theorem collected_nil (none : ¬Canonical 16 r) (alone : ∀ s t, Reach r key s t → s = r) :
    Collected crypto [] r key :=
  ⟨fun s t reach canonical => absurd (alone s t reach ▸ canonical) none, nofun,
    fun canonical => absurd canonical none⟩

theorem Collected.cons
    (canonical : Canonical 16 r) (same : hashChildren crypto m = hashChildren crypto (embed r))
    (steps : ∀ s t, Reach r key s t → s = r ∨ Reach v rest s t)
    (below : ∀ q, Below q v → Below q r) (later : Collected crypto nodes v rest) :
    Collected crypto (m :: nodes) r key := by
  refine ⟨fun s t reach inner => ?_, ?_, fun _ => ⟨m, rfl, same⟩⟩
  · rcases steps s t reach with rfl | reach
    · exact ⟨m, mem_cons_self, same⟩
    · obtain ⟨m', member, same'⟩ := later.all s t reach inner
      exact ⟨m', mem_cons_of_mem _ member, same'⟩
  · refine forall_mem_cons.mpr ⟨⟨r, .here, canonical, same⟩, fun m' member => ?_⟩
    obtain ⟨s, inner, rest⟩ := later.only m' member
    exact ⟨s, below s inner, rest⟩

theorem proveLoop_nil (key : Bytes) : proveLoop db 1 .nil key = .returns [] := by
  cases key <;> rfl

theorem nibbles_cons_of_ne_nil (more : key ≠ []) : ∃ c spelled, nibbles key = c :: spelled :=
  exists_cons_of_ne_nil (by simpa [nibbles] using more)

theorem proveLoop_stored (proper : Proper crypto r) (more : key ≠ [])
    (found : db (hashOf crypto r) = some (body crypto r)) (turns : ℕ) :
    proveLoop db (turns + 1) (.hash (hashOf crypto r)) (nibbles key) =
      proveLoop db turns (seen crypto r) (nibbles key) := by
  have decoded := decodeNode_body proper ((body crypto r).length + 1) [] (by simp)
  rw [append_nil] at decoded
  obtain ⟨c, spelled, split⟩ := nibbles_cons_of_ne_nil more
  simp only [split, proveLoop, resolveHash, found, decoded, bind_returns]

theorem proveLoop_short_on (more : k ++ rest ≠ []) (n : TrieNode) (turns : ℕ) :
    proveLoop db (turns + 1) (.short (nibbles k) n) (nibbles (k ++ rest)) =
      (proveLoop db turns n (nibbles rest) >>= fun nodes =>
        .returns (.short (nibbles k) n :: nodes)) := by
  have starts := mt (parts_iff k (k ++ rest)).mp (not_not.mpr (prefix_append _ _))
  rw [← nibbles_drop k rest]
  obtain ⟨c, spelled, split⟩ := nibbles_cons_of_ne_nil more
  rw [split] at starts ⊢
  simp only [proveLoop, if_neg starts]
  rfl

theorem proveLoop_short_off (more : key ≠ []) (apart : ¬k <+: key) (n : TrieNode) :
    proveLoop db 2 (.short (nibbles k) n) (nibbles key) = .returns [.short (nibbles k) n] := by
  have differs := (parts_iff k key).mpr apart
  obtain ⟨c, spelled, split⟩ := nibbles_cons_of_ne_nil more
  rw [split] at differs ⊢
  simp only [proveLoop, if_pos differs]
  rfl

theorem collects_short (canonical : Canonical 16 (.short k v))
    (ended : Terminated 16 key) (loaded : Loaded crypto db n v)
    (lower : ∀ rest, Fits v rest → Collects crypto db n v rest) :
    Collects crypto db (.short (nibbles k) n) (.short k v) key := by
  have same := (Loaded.short k loaded).collapsed canonical nofun
  by_cases starts : k <+: key
  · obtain ⟨rest, rfl⟩ := starts
    obtain ⟨turns, nodes, ran, collected⟩ := lower rest (Fits.lower canonical ended)
    refine ⟨turns + 1, .short (nibbles k) n :: nodes, ?_, ?_⟩
    · rw [proveLoop_short_on ended.ne_nil, ran, bind_returns]
    · refine Collected.cons canonical same (fun s t reach => ?_) (fun _ inner => .short inner) collected
      generalize whole : k ++ rest = key at reach
      cases reach with
      | here => exact .inl rfl
      | short reach => exact .inr (append_cancel_left whole ▸ reach)
  · refine ⟨2, _, proveLoop_short_off ended.ne_nil starts n, ?_, ?_, fun _ => ⟨_, rfl, same⟩⟩
    · intro s t reach inner
      cases reach with
      | here => exact ⟨_, mem_singleton_self _, same⟩
      | short reach => exact absurd (prefix_append _ _) starts
    · intro m member
      rw [mem_singleton.mp member]
      exact ⟨_, .here, canonical, same⟩

theorem collects_full {ns : Fin 17 → TrieNode} {cs : Fin 17 → Nibbles} {i : Fin 17}
    (canonical : Canonical 16 (.full cs)) (ended : Terminated 16 (i :: rest))
    (loaded : ∀ i, Loaded crypto db (ns i) (cs i))
    (lower : Fits (cs i) rest → Collects crypto db (ns i) (cs i) rest) :
    Collects crypto db (.full ns) (.full cs) (i :: rest) := by
  have same := (Loaded.full loaded).collapsed canonical nofun
  obtain ⟨turns, nodes, ran, collected⟩ := lower (Fits.below canonical ended)
  refine ⟨turns + 1, .full ns :: nodes, ?_, ?_⟩
  · simp only [nibbles, map_cons, proveLoop, child_ofNat, orPanic, bind_returns]
    rw [show rest.map (fun i : Fin 17 => UInt8.ofNat i.val) = nibbles rest from rfl, ran]
    rfl
  · refine Collected.cons canonical same (fun s t reach => ?_) (fun _ inner => .full inner) collected
    cases reach with
    | here => exact .inl rfl
    | full reach => exact .inr reach

theorem collects_stored (proper : Proper crypto r) (more : key ≠ [])
    (found : db (hashOf crypto r) = some (body crypto r))
    (collects : Collects crypto db (seen crypto r) r key) :
    Collects crypto db (.hash (hashOf crypto r)) r key := by
  obtain ⟨turns, nodes, ran, collected⟩ := collects
  exact ⟨turns + 1, nodes, by rw [proveLoop_stored proper more found, ran], collected⟩

theorem proveLoop_collects (loaded : Loaded crypto db n r) (fits : Fits r key)
    (proper : Canonical 16 r → Proper crypto r) : Collects crypto db n r key := by
  induction r generalizing n key with
  | nil =>
    refine ⟨1, [], by rw [loaded.eq_nil]; exact proveLoop_nil _, collected_nil ?_ ?_⟩
    · exact fun canonical => canonical.ne_nil rfl
    · rintro s t ⟨⟩
      rfl
  | value b =>
    obtain rfl := fits.eq_nil
    refine ⟨1, [], by rw [loaded.eq_value]; rfl, collected_nil ?_ ?_⟩
    · exact fun canonical => canonical.ne_value b rfl
    · rintro s t ⟨⟩
      rfl
  | short k v ih =>
    obtain ⟨ended, canonical⟩ := fits.inner nofun nofun
    have lower {m : TrieNode} (loaded : Loaded crypto db m v) (rest : List (Fin 17))
        (fits : Fits v rest) :=
      ih loaded fits fun below => (proper canonical).of_below (fun _ inner => .short inner) below
    cases loaded with
    | short _ loaded => exact collects_short canonical ended loaded (lower loaded)
    | stored large kept =>
      refine collects_stored (proper canonical) ended.ne_nil (kept _ .here large) ?_
      have loaded := (loaded_seenRef (kept.below (s := v) fun _ inner => .short inner)).2
      exact collects_short canonical ended loaded (lower loaded)
  | full cs ih =>
    obtain ⟨ended, canonical⟩ := fits.inner nofun nofun
    cases key with
    | nil => exact absurd rfl ended.ne_nil
    | cons i rest =>
      have lower {m : TrieNode} (loaded : Loaded crypto db m (cs i)) (fits : Fits (cs i) rest) :=
        ih i loaded fits fun below => (proper canonical).of_below (fun _ inner => .full inner) below
      cases loaded with
      | full loaded => exact collects_full canonical ended loaded (lower (loaded i))
      | stored large kept =>
        refine collects_stored (proper canonical) ended.ne_nil (kept _ .here large) ?_
        have loaded (i : Fin 17) :=
          (loaded_seenRef (kept.below (s := cs i) fun _ inner => .full inner)).2
        exact collects_full canonical ended loaded (lower (loaded i))

theorem proofElement_eq (canonical : Canonical 16 s)
    (same : hashChildren crypto m = hashChildren crypto (embed s)) (first : Bool) :
    proofElement crypto first m =
      if Large crypto s ∨ first then some (hashOf crypto s, body crypto s) else none := by
  have stored : store crypto false (hashChildren crypto (embed s)) =
      if Large crypto s then .hash (hashOf crypto s) else hashChildren crypto (embed s) := by
    rw [← hash_eq, hash_embed canonical.ne_value]
  rw [proofElement, same, stored]
  by_cases large : Large crypto s
  · simp only [large, if_true, true_or]
    rfl
  · simp only [large, if_false, false_or]
    cases canonical <;> rfl

theorem putNodes_cons (first : Bool) (m : TrieNode) (nodes : List TrieNode) :
    putNodes crypto first 0 (m :: nodes) =
      (proofElement crypto first m).toList ++ putNodes crypto false 0 nodes := by
  rw [putNodes]
  cases proofElement crypto first m <;> rfl

variable {first : Bool} {put : Bytes × Bytes}

theorem mem_putNodes (member : put ∈ putNodes crypto first 0 nodes) :
    ∃ m ∈ nodes, ∃ first, proofElement crypto first m = some put := by
  induction nodes generalizing first with
  | nil => nomatch member
  | cons m nodes ih =>
    rw [putNodes_cons, mem_append, Option.mem_toList] at member
    rcases member with element | later
    · exact ⟨m, mem_cons_self, first, element⟩
    · obtain ⟨m', listed, found⟩ := ih later
      exact ⟨m', mem_cons_of_mem _ listed, found⟩

theorem putNodes_mem
    (listed : m ∈ nodes) (element : ∀ first, proofElement crypto first m = some put) :
    put ∈ putNodes crypto first 0 nodes := by
  induction nodes generalizing first with
  | nil => nomatch listed
  | cons m' nodes ih =>
    rw [putNodes_cons, mem_append, Option.mem_toList]
    rcases mem_cons.mp listed with rfl | later
    · exact .inl (element first)
    · exact .inr (ih later)

def treeNodes (crypto : Crypto) (r : Nibbles) : Set Bytes :=
  { b | ∃ s, Below s r ∧ Canonical 16 s ∧ body crypto s = b }

theorem putReader_eq {puts : List (Bytes × Bytes)}
    (apart : Set.InjOn crypto.keccak (treeNodes crypto r))
    (only : ∀ put ∈ puts, ∃ q, Below q r ∧ Canonical 16 q ∧
      put = (hashOf crypto q, body crypto q)) (below : Below s r) (canonical : Canonical 16 s)
    (listed : (hashOf crypto s, body crypto s) ∈ puts) :
    putReader puts (hashOf crypto s) = some (body crypto s) := by
  cases found : puts.reverse.find? fun put => put.1 = hashOf crypto s with
  | none =>
    have missed := find?_eq_none.mp found _ (mem_reverse.mpr listed)
    simp at missed
  | some put =>
    obtain ⟨q, inner, proper, rfl⟩ := only put (mem_reverse.mp (mem_of_find?_eq_some found))
    have hashed : hashOf crypto q = hashOf crypto s := by simpa using find?_some found
    have same := apart ⟨q, inner, proper, rfl⟩ ⟨s, below, canonical, rfl⟩ (hashBytes_inj hashed)
    rw [putReader, found, Option.map_some]
    exact congrArg some same

end Walk

section Root
variable {crypto : Crypto} {db : DatabaseReader} {root : TrieNode} {r : Nibbles}
  {entries : Bytes → Option Bytes}

theorem TrieOf.rootHash_eq (trie : TrieOf crypto db root r entries) :
    hashBytes (rootHash crypto root) = hashOf crypto r := by
  suffices stored : store crypto true (hashChildren crypto root) = .hash (hashOf crypto r) by
    rw [rootHash, stored, hashOf]
    simp only [bytesToHash_hashBytes]
  have canonical := trie.proper.canonical
  have forced : store crypto true (hashChildren crypto (embed r)) = .hash (hashOf crypto r) := by
    cases canonical <;> exact if_neg fun small => Bool.noConfusion small.2
  rcases trie.loaded with loaded | ⟨rfl, -⟩
  · cases loaded with
    | stored large kept => rfl
    | nil => exact absurd rfl canonical.ne_nil
    | value b => exact absurd rfl (canonical.ne_value b)
    | short k lower => rw [(Loaded.short k lower).collapsed canonical (by rintro _ ⟨⟩), forced]
    | full lower => rw [(Loaded.full lower).collapsed canonical (by rintro _ ⟨⟩), forced]
  · rfl

theorem TrieOf.collects (trie : TrieOf crypto db root r entries) (key : Bytes) :
    Collects crypto db root r (hexKey key) := by
  have ended := hexKey_terminated key
  have fits : Fits r (hexKey key) := .inr ⟨ended, .inr trie.proper.canonical⟩
  rcases trie.loaded with loaded | ⟨rfl, found, kept⟩
  · exact proveLoop_collects loaded fits fun _ => trie.proper
  · exact collects_stored trie.proper ended.ne_nil found
      (proveLoop_collects (loaded_seenRef kept).1 fits fun _ => trie.proper)

theorem TrieOf.prove_reads (trie : TrieOf crypto db root r entries) (key : Bytes)
    (apart : Set.InjOn crypto.keccak (treeNodes crypto r)) :
    ∃ turns puts, prove crypto db turns root key 0 = .returns puts ∧
      (putReader puts magicHash).isSome = false ∧
      ∀ s t, Reach r (hexKey key) s t → Canonical 16 s → s = r ∨ Large crypto s →
        putReader puts (hashOf crypto s) = some (body crypto s) := by
  obtain ⟨turns, nodes, ran, collected⟩ := trie.collects key
  have puts_of : ∀ put ∈ putNodes crypto true 0 nodes, ∃ q, Below q r ∧ Canonical 16 q ∧
      put = (hashOf crypto q, body crypto q) := by
    intro put member
    obtain ⟨m, listed, first, element⟩ := mem_putNodes member
    obtain ⟨q, below, canonical, same⟩ := collected.only m listed
    rw [proofElement_eq canonical same] at element
    split_ifs at element
    exact ⟨q, below, canonical, (Option.some.inj element).symm⟩
  refine ⟨turns, putNodes crypto true 0 nodes, ?_, ?_, ?_⟩
  · rw [prove, ← nibbles_hexKey, ran, bind_returns, pure_eq]
  · have missed : (putNodes crypto true 0 nodes).reverse.find? (fun put => put.1 = magicHash) =
        none := by
      refine find?_eq_none.mpr fun put member marked => ?_
      obtain ⟨q, -, -, rfl⟩ := puts_of put (mem_reverse.mp member)
      have lengths := congrArg List.length (of_decide_eq_true marked)
      rw [hashOf_length] at lengths
      exact absurd lengths (by decide +kernel)
    rw [putReader, missed]
    rfl
  · intro s t reach canonical place
    refine putReader_eq apart puts_of (reach.inside s .here) canonical ?_
    by_cases large : Large crypto s
    · obtain ⟨m, listed, same⟩ := collected.all s t reach canonical
      exact putNodes_mem listed fun first => by rw [proofElement_eq canonical same, if_pos (.inl large)]
    · obtain rfl := place.resolve_right large
      obtain ⟨m, front, same⟩ := collected.first canonical
      cases nodes with
      | nil => nomatch front
      | cons m' nodes =>
        obtain rfl := Option.some.inj front
        rw [putNodes_cons, proofElement_eq canonical same, if_pos (.inr rfl)]
        simp

theorem get_of_below {b : Bytes} (canonical : Canonical 16 r) (below : Below (.value b) r) :
    ∃ key, Terminated 16 key ∧ r.get key = some b := by
  induction canonical with
  | leaf ended =>
    obtain ⟨⟩ | ⟨⟨⟩⟩ := below
    exact ⟨_, ended, Radix.get_short_self⟩
  | extension some absent lower ih =>
    cases below with
    | short inner =>
      obtain ⟨key, ended, found⟩ := ih inner
      exact ⟨_, (Radix.terminated_append absent).mpr ended, Radix.get_short_append.trans found⟩
  | @full cs lower last two ih =>
    cases below with
    | @full _ i inner =>
      rcases eq_or_ne i 16 with rfl | other
      · refine ⟨[16], ⟨[], not_mem_nil, rfl⟩, ?_⟩
        rcases last with none | ⟨c, valued⟩
        · rw [none] at inner
          nomatch inner
        · rw [valued] at inner
          cases inner
          rw [Radix.get, valued]
          rfl
      · have some : cs i ≠ .nil := by
          intro none
          rw [none] at inner
          nomatch inner
        obtain ⟨key, ended, found⟩ := ih i other some inner
        exact ⟨i :: key, Radix.terminated_cons.mpr (.inr ⟨other, ended⟩), found⟩

theorem entriesOf_ne_nil (ops : List TrieOp) (key : Bytes) : entriesOf ops key ≠ some [] := by
  have each (entries : Bytes → Option Bytes) (filled : ∀ key, entries key ≠ some []) :
      ops.foldl TrieOp.enter entries key ≠ some [] := by
    induction ops generalizing entries with
    | nil => exact filled key
    | cons op ops ih =>
      refine ih _ fun key => ?_
      cases op with
      | update k value =>
        rw [TrieOp.enter, Function.update_apply]
        split_ifs with same empty
        · rintro ⟨⟩
        · simpa using empty
        · exact filled key
      | delete k =>
        rw [TrieOp.enter, Function.update_apply]
        split_ifs
        · rintro ⟨⟩
        · exact filled key
  exact each _ (by rintro _ ⟨⟩)

theorem trieOf_performAll {ops : List TrieOp} (built : performAll ops = some root)
    (some : root ≠ .nil) : ∃ r, root = embed r ∧
      ((∀ s, Below s r → (body crypto s).length < 2 ^ 64) →
        TrieOf crypto db root r (entriesOf ops)) := by
  obtain ⟨r, performed, holds⟩ := holds_nil.run ops
  obtain rfl := Option.some.inj (built.symm.trans performed)
  have canonical : Canonical 16 r :=
    holds.shaped.resolve_left fun none => some (by rw [none]; rfl)
  refine ⟨r, rfl, fun fits =>
    ⟨⟨canonical, fun b below empty => ?_, fits⟩, holds, .inl (loaded_embed r)⟩⟩
  obtain ⟨key, ended, found⟩ := get_of_below canonical below
  by_cases spelled : ∃ k, hexKey k = key
  · obtain ⟨k, rfl⟩ := spelled
    rw [holds.gets, empty] at found
    exact entriesOf_ne_nil ops k found
  · rw [holds.others key ended fun k same => spelled ⟨k, same⟩] at found
    nomatch found

theorem below_finite (r : Nibbles) : { s | Below s r }.Finite := by
  induction r with
  | nil => exact (Set.finite_singleton _).subset (by rintro s ⟨⟩; rfl)
  | value b => exact (Set.finite_singleton _).subset (by rintro s ⟨⟩; rfl)
  | short k v ih =>
    refine (ih.insert (.short k v)).subset ?_
    rintro s (_ | below)
    · exact .inl rfl
    · exact .inr below
  | full cs ih =>
    refine ((Set.finite_iUnion ih).insert (.full cs)).subset ?_
    rintro s (_ | _ | below)
    · exact .inl rfl
    · exact .inr (Set.mem_iUnion.mpr ⟨_, below⟩)

theorem exists_nodeSet (apart : Set.InjOn crypto.keccak (treeNodes crypto r)) :
    ∃ nodes : List Bytes, (∀ b ∈ nodes, b ∈ treeNodes crypto r) ∧
      ∀ s, Below s r → Canonical 16 s →
        nodeSet crypto nodes (hashOf crypto s) = some (body crypto s) := by
  have finite : (treeNodes crypto r).Finite := by
    refine ((below_finite r).image (body crypto)).subset ?_
    rintro _ ⟨s, below, -, rfl⟩
    exact ⟨s, below, rfl⟩
  refine ⟨finite.toFinset.toList, by simp, fun s below canonical => ?_⟩
  have listed : body crypto s ∈ treeNodes crypto r := ⟨s, below, canonical, rfl⟩
  cases found : nodeSet crypto finite.toFinset.toList (hashOf crypto s) with
  | none =>
    have absent := find?_eq_none.mp found (body crypto s) (by simpa using listed)
    exact absurd (decide_eq_true rfl) absent
  | some b =>
    obtain ⟨member, hashed⟩ := nodeSet_eq_some found
    rw [apart (by simpa using member) listed (hashBytes_inj hashed)]

end Root

/-- Two tries have one root hash exactly if they have the same entries, however much of them is
loaded: a root stands for the whole content. -/
theorem rootHash_commits_iff (crypto : Crypto) (db db' : DatabaseReader) (root root' : TrieNode)
    (r r' : Nibbles) (entries entries' : Bytes → Option Bytes)
    (trie : TrieOf crypto db root r entries) (trie' : TrieOf crypto db' root' r' entries')
    (apart : Set.InjOn crypto.keccak (treeNodes crypto r ∪ treeNodes crypto r')) :
    rootHash crypto root = rootHash crypto root' ↔ entries = entries' := by
  constructor
  · intro same
    obtain ⟨nodes, known, found⟩ := exists_nodeSet (apart.mono Set.subset_union_left)
    funext key
    -- The nodes of the first trie lead to its entry, and nodes that start from the root of the
    -- second one lead nowhere else than to its own.
    obtain ⟨turns, j, done⟩ := verifyLoop_complete trie.proper (hexKey_terminated key)
      (fun s t reach canonical _ => found s (reach.inside s .here) canonical) 0
    rw [← trie.rootHash_eq, same, trie'.rootHash_eq] at done
    have sound := verifyLoop_sound trie'.proper (hexKey_terminated key)
      (fun b member s below canonical hashed =>
        apart (.inl (known b member)) (.inr ⟨s, below, canonical, rfl⟩) hashed) done
    rwa [trie.holds.gets, trie'.holds.gets] at sound
  · rintro rfl
    obtain rfl := trie.holds.unique trie'.holds
    exact hashBytes_inj (trie.rootHash_eq.trans trie'.rootHash_eq.symm)

/-- Proofs are complete and sound: what `Prove` writes verifies to the entry, and so does
whatever else verifies. -/
theorem merkle_proofs_exact (crypto : Crypto) (db : DatabaseReader)
    (smt : Hash → Bytes → DatabaseReader → GoCall ProofError (Option Bytes)) (root : TrieNode)
    (r : Nibbles) (entries : Bytes → Option Bytes) (trie : TrieOf crypto db root r entries)
    (key : Bytes) :
    (Set.InjOn crypto.keccak (treeNodes crypto r) →
      ∃ turns puts, prove crypto db turns root key 0 = .returns puts ∧
        ∃ turns read, verifyProof smt turns (rootHash crypto root) key (putReader puts) =
          .returns (entries key, read)) ∧
    ∀ nodes : List Bytes, Set.InjOn crypto.keccak (treeNodes crypto r ∪ { b | b ∈ nodes }) →
      ∀ turns value read,
        verifyProof smt turns (rootHash crypto root) key (nodeSet crypto nodes) =
          .returns (value, read) → value = entries key := by
  have gets : r.get (hexKey key) = entries key := trie.holds.gets key
  constructor
  · intro apart
    obtain ⟨turns, puts, proved, plain, found⟩ := trie.prove_reads key apart
    obtain ⟨turns', read, verified⟩ := verifyLoop_complete trie.proper (hexKey_terminated key) found 0
    refine ⟨turns, puts, proved, turns', read, ?_⟩
    rw [verifyProof, plain, if_neg Bool.false_ne_true, trie.rootHash_eq, ← nibbles_hexKey, verified,
      gets]
  · intro nodes apart turns value read verified
    rw [verifyProof, nodeSet_magicHash, Option.isSome_none, if_neg Bool.false_ne_true,
      trie.rootHash_eq, ← nibbles_hexKey] at verified
    rw [← gets]
    refine verifyLoop_sound trie.proper (hexKey_terminated key)
      (fun b member s below canonical same => ?_)
      verified
    exact apart (.inr member) (.inl ⟨s, below, canonical, rfl⟩) same

def sampleTrie : Nibbles := .short (hexKey [1]) (.value [2])

theorem sampleTrie_below {s : Nibbles} (below : Below s sampleTrie) :
    s = sampleTrie ∨ s = .value [2] := by
  obtain _ | ⟨_ | _⟩ := below
  · exact .inl rfl
  · exact .inr rfl

theorem sampleTrie_of : TrieOf sampleCrypto (fun _ => none) (embed sampleTrie) sampleTrie
    (entriesOf [.update [1] [2]]) := by
  have built : performAll [.update [1] [2]] = some (embed sampleTrie) := rfl
  obtain ⟨r, same, trie⟩ := trieOf_performAll built nofun
  obtain rfl := embed_inj same
  refine trie fun s below => ?_
  rcases sampleTrie_below below with rfl | rfl
  · decide +kernel
  · decide +kernel

theorem sampleTrie_proved : ∃ turns puts,
    prove sampleCrypto (fun _ => none) turns (embed sampleTrie) [1] 0 = .returns puts ∧
    ∃ turns read, verifyProof noSmt turns (rootHash sampleCrypto (embed sampleTrie)) [1]
      (putReader puts) = .returns (some [2], read) := by
  refine (merkle_proofs_exact _ _ noSmt _ _ _ sampleTrie_of [1]).1 ?_
  rintro _ ⟨s, below, canonical, rfl⟩ _ ⟨t, below', canonical', rfl⟩ -
  rcases sampleTrie_below below with rfl | rfl
  · rcases sampleTrie_below below' with rfl | rfl
    · rfl
    · exact absurd rfl (canonical'.ne_value _)
  · exact absurd rfl (canonical.ne_value _)

/-- The root is the same when the trie is not loaded. -/
theorem sampleTrie_root_unloaded :
    rootHash sampleCrypto (embed sampleTrie) =
      rootHash sampleCrypto (.hash (hashOf sampleCrypto sampleTrie)) := by
  have unloaded : TrieOf sampleCrypto (fun _ => some (body sampleCrypto sampleTrie))
      (.hash (hashOf sampleCrypto sampleTrie)) sampleTrie (entriesOf [.update [1] [2]]) := by
    refine ⟨sampleTrie_of.proper, sampleTrie_of.holds, .inr ⟨rfl, rfl, fun s below large => ?_⟩⟩
    rcases sampleTrie_below below with rfl | rfl
    · rfl
    · exact large.elim
  refine (rootHash_commits_iff _ _ _ _ _ _ _ _ _ sampleTrie_of unloaded ?_).mpr rfl
  rw [Set.union_self]
  rintro _ ⟨s, below, canonical, rfl⟩ _ ⟨t, below', canonical', rfl⟩ -
  rcases sampleTrie_below below with rfl | rfl
  · rcases sampleTrie_below below' with rfl | rfl
    · rfl
    · exact absurd rfl (canonical'.ne_value _)
  · exact absurd rfl (canonical.ne_value _)

end Anduschain.Trie
