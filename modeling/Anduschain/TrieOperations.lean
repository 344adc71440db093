import Anduschain.MerkleTrie

/-! Updates and deletions on a trie in memory, in any order, and what `TryGet` returns after them:
the nodes are those of the radix trie of the entries that are left. -/
namespace Anduschain.Trie
open ByteOrder List Function
open Radix (Canonical Terminated get_short_append get_short_off terminated_append)

/-- The value, or that there is none; `none` is a panic or a node that is not loaded. -/
def tryGet : TrieNode → Bytes → Option (Option Bytes)
  | .nil, _ => some none
  | .value b, _ => some (some b)
  | .hash _, _ => none
  | .short k v, key => if k.isPrefixOf key then tryGet v (key.drop k.length) else some none
  | .full cs, key =>
    match key with
    | [] => none
    | b :: rest => do
        let i ← child b
        tryGet (cs i) rest

inductive TrieOp where
  | update (key value : Bytes)
  | delete (key : Bytes)

def TrieOp.perform (root : TrieNode) : TrieOp → Option TrieNode
  | .update key value => tryUpdate root key value
  | .delete key => (Trie.delete root (keybytesToHex key)).map Prod.snd

def TrieOp.enter (entries : Bytes → Option Bytes) : TrieOp → Bytes → Option Bytes
  | .update key value => Function.update entries key (if value = [] then none else some value)
  | .delete key => Function.update entries key none

def performAll (ops : List TrieOp) : Option TrieNode := ops.foldlM TrieOp.perform .nil

def entriesOf (ops : List TrieOp) : Bytes → Option Bytes := ops.foldl TrieOp.enter fun _ => none

section Nodes
variable {r v : Nibbles} {cs : Fin 17 → Nibbles} {k key rest : List (Fin 17)} {a : Fin 17}

theorem nibbles_prefix_iff : (nibbles k).isPrefixOf (nibbles key) = true ↔ k <+: key := by
  rw [List.isPrefixOf_iff_prefix]
  constructor
  · rintro ⟨t, split⟩
    obtain ⟨l, t', rfl, same, -⟩ := map_eq_append_iff.mp split.symm
    rw [nibbles_inj same]
    exact prefix_append _ _
  · rintro ⟨t, rfl⟩
    rw [nibbles_append]
    exact prefix_append _ _

theorem tryGet_embed (shaped : r = .nil ∨ Canonical 16 r) (ended : Terminated 16 key) :
    tryGet (embed r) (nibbles key) = some (r.get key) := by
  induction r generalizing key with
  | nil => rfl
  | value b => exact absurd rfl ((shaped.resolve_left (by rintro ⟨⟩)).ne_value b)
  | short k v ih =>
    have canonical := shaped.resolve_left (by rintro ⟨⟩)
    rw [embed, tryGet]
    by_cases starts : k <+: key
    · rw [if_pos (nibbles_prefix_iff.mpr starts)]
      obtain ⟨rest, rfl⟩ := starts
      rw [get_short_append, nibbles_append, drop_left]
      rcases canonical.short_cases with ⟨-, b, rfl⟩ | ⟨-, absent, below, -⟩
      · rfl
      · exact ih (.inr below) ((terminated_append absent).mp ended)
    · rw [if_neg (mt nibbles_prefix_iff.mp starts), get_short_off starts]
  | full cs ih =>
    cases key with
    | nil => exact absurd rfl ended.ne_nil
    | cons i rest =>
      have step : tryGet (embed (.full cs)) (nibbles (i :: rest)) =
          tryGet (embed (cs i)) (nibbles rest) := by
        rw [embed, nibbles, map_cons, tryGet, child_ofNat]
        rfl
      rw [step, Radix.get]
      rcases Fits.below (shaped.resolve_left (by rintro ⟨⟩)) ended with ⟨-, none | ⟨b, held⟩⟩ | ⟨inner, child⟩
      · rw [none]
        rfl
      · rw [held]
        rfl
      · exact ih i child inner

theorem embed_eq_nil : embed r = .nil ↔ r = .nil := by
  cases r <;> simp [embed]

theorem get_only (only : ∀ i, cs i ≠ .nil → i = a) (here : ∀ rest, r.get (a :: rest) = (cs a).get rest)
    (off : ∀ z rest, z ≠ a → r.get (z :: rest) = none) (ended : Terminated 16 key) :
    r.get key = (Radix.full cs).get key := by
  cases key with
  | nil => exact absurd rfl ended.ne_nil
  | cons z zs =>
    rw [Radix.get]
    by_cases same : z = a
    · subst same
      exact here zs
    · have none : cs z = .nil := by
        by_contra some
        exact same (only z some)
      rw [off z zs same, none]
      rfl

theorem get_short_cons : (Radix.short (a :: k) v).get (a :: rest) = (Radix.short k v).get rest :=
  Radix.get_short_append_append (k := [a])

theorem get_short_cons_off {z : Fin 17} (other : z ≠ a) :
    (Radix.short (a :: k) v).get (z :: rest) = none := by
  apply get_short_off
  intro starts
  exact other (cons_prefix_cons.mp starts).1.symm

theorem reduce_only (only : ∀ i, cs i ≠ .nil → i = a) (inner : a ≠ 16)
    (canonical : Canonical 16 (cs a)) :
    ∃ r, (if a = 16 then some (TrieNode.short [UInt8.ofNat a.val] (embed (cs a)))
        else match embed (cs a) with
          | .hash _ => none
          | .short k v => some (.short (UInt8.ofNat a.val :: k) v)
          | n => some (.short [UInt8.ofNat a.val] n)) = some (embed r) ∧ Canonical 16 r ∧
      ∀ key, Terminated 16 key → r.get key = (Radix.full cs).get key := by
  rw [if_neg inner]
  generalize held : cs a = n at canonical
  cases canonical with
  | @leaf k b ended =>
    refine ⟨.short (a :: k) (.value b), rfl, .leaf (Radix.terminated_cons.mpr (.inr ⟨inner, ended⟩)),
      fun key => get_only only (fun rest => ?_) fun z rest => get_short_cons_off⟩
    rw [held, get_short_cons]
  | @extension k ds some absent below =>
    refine ⟨.short (a :: k) (.full ds), rfl, .extension (cons_ne_nil _ _) ?_ below,
      fun key => get_only only (fun rest => ?_) fun z rest => get_short_cons_off⟩
    · rw [mem_cons, not_or]
      exact ⟨inner.symm, absent⟩
    · rw [held, get_short_cons]
  | @full ds lower last forks =>
    refine ⟨.short [a] (.full ds), rfl, .extension (cons_ne_nil _ _) ?_ (.full lower last forks),
      fun key => get_only only (fun rest => ?_) fun z rest => get_short_cons_off⟩
    · rw [mem_singleton]
      exact inner.symm
    · rw [held]
      exact get_short_append (k := [a])

theorem reduce_embed (lower : ∀ i, i ≠ 16 → cs i ≠ .nil → Canonical 16 (cs i))
    (last : cs 16 = .nil ∨ ∃ b, cs 16 = .value b) (left : ∃ i, cs i ≠ .nil) :
    ∃ r, reduce (fun i => embed (cs i)) = some (embed r) ∧ Canonical 16 r ∧
      ∀ key, Terminated 16 key → r.get key = (Radix.full cs).get key := by
  unfold reduce onlyChild
  generalize kept : (List.finRange 17).filter _ = present
  have member (i : Fin 17) : i ∈ present ↔ cs i ≠ .nil := by
    rw [← kept, mem_filter, ne_eq, ← embed_eq_nil]
    beta_reduce
    cases embed (cs i) <;> simp
  have distinct : present.Nodup := kept ▸ (nodup_finRange 17).filter _
  clear kept
  rcases present with _ | ⟨a, _ | ⟨b, others⟩⟩
  · obtain ⟨i, some⟩ := left
    exact absurd ((member i).mpr some) not_mem_nil
  · have only (i : Fin 17) (some : cs i ≠ .nil) : i = a := mem_singleton.mp ((member i).mpr some)
    have here := (member a).mp (mem_singleton_self a)
    by_cases mark : a = 16
    · subst mark
      obtain ⟨b, held⟩ := last.resolve_left here
      refine ⟨.short [16] (.value b), ?_, .leaf ⟨[], not_mem_nil, rfl⟩, fun key ended => ?_⟩
      · simp [held, embed, nibbles]
      · refine get_only only (fun rest => ?_) (fun z rest other => get_short_cons_off other) ended
        rw [held]
        exact get_short_append (k := [16])
    · exact reduce_only only mark (lower a mark here)
  · refine ⟨.full cs, rfl, .full lower last ⟨a, b, ?_, (member a).mp (by simp), (member b).mp (by simp)⟩,
      fun _ _ => rfl⟩
    rintro rfl
    simp at distinct

theorem prefixLen_lt (apart : ¬k <+: key) : prefixLen (nibbles key) (nibbles k) < (nibbles k).length := by
  obtain ⟨common, left, right, -, rfl, rfl, ends⟩ := Radix.fork_spec key k
  have more : right ≠ [] := by
    rintro rfl
    rw [append_nil] at apart
    exact apart (prefix_append _ _)
  have differ : (nibbles left).head? ≠ (nibbles right).head? := by
    obtain ⟨y, ys, rfl⟩ := exists_cons_of_ne_nil more
    rcases ends with rfl | none | ⟨x, xs, z, zs, rfl, same, other⟩
    · nofun
    · exact absurd none more
    · cases same
      intro equal
      exact other (ofNat_inj (Option.some.inj equal))
  rw [nibbles_append, nibbles_append, prefixLen_append _ _ _ (.inl differ), length_append]
  have := length_pos_of_ne_nil more
  simp only [nibbles, length_map]
  omega

def Removed (r : Nibbles) (key : List (Fin 17)) (after : Nibbles) : Prop :=
  ∀ other, Terminated 16 other → after.get other = if other = key then none else r.get other

theorem get_short_short {l : List (Fin 17)} (v : Nibbles) (other : List (Fin 17)) :
    (Radix.short (k ++ l) v).get other = (Radix.short k (.short l v)).get other := by
  by_cases starts : k <+: other
  · obtain ⟨t, rfl⟩ := starts
    rw [Radix.get_short_append_append, get_short_append]
  · rw [get_short_off starts, get_short_off]
    exact fun longer => starts ((prefix_append k l).trans longer)

theorem join_embed (some : k ≠ []) (absent : 16 ∉ k) (canonical : Canonical 16 v) :
    ∃ r, (match embed v with
        | .short l w => (true, TrieNode.short (nibbles k ++ l) w)
        | n => (true, .short (nibbles k) n)) = (true, embed r) ∧ Canonical 16 r ∧
      ∀ other, r.get other = (Radix.short k v).get other := by
  cases canonical with
  | @leaf l b ended =>
    refine ⟨.short (k ++ l) (.value b), ?_, .leaf ((terminated_append absent).mpr ended),
      get_short_short _⟩
    rw [embed, embed, nibbles_append]
  | @extension l cs more inner below =>
    refine ⟨.short (k ++ l) (.full cs), ?_, .extension ?_ ?_ below, get_short_short _⟩
    · rw [embed, embed, nibbles_append]
    · exact append_ne_nil_of_left_ne_nil some l
    · rw [mem_append, not_or]
      exact ⟨absent, inner⟩
  | @full cs lower last forks =>
    exact ⟨.short k (.full cs), rfl, .extension some absent (.full lower last forks), fun _ => rfl⟩

def Deletes (r : Nibbles) (key : List (Fin 17)) : Prop :=
  ∃ dirty after, Trie.delete (embed r) (nibbles key) = some (dirty, embed after) ∧
    (after = .nil ∨ Canonical 16 after) ∧ Removed r key after ∧
    (dirty = false → after = r) ∧ ∀ cs, r = .full cs → after ≠ .nil

theorem deletes_absent (shaped : r = .nil ∨ Canonical 16 r) (absent : r.get key = none)
    (left : Trie.delete (embed r) (nibbles key) = some (false, embed r)) : Deletes r key := by
  refine ⟨false, r, left, shaped, fun other _ => ?_, fun _ => rfl, ?_⟩
  · split
    case isTrue same => rw [same, absent]
    case isFalse => rfl
  · rintro cs rfl
    rintro ⟨⟩

theorem prefixLen_self_append : prefixLen (nibbles (k ++ rest)) (nibbles k) = (nibbles k).length := by
  have := prefixLen_append (nibbles k) (nibbles rest) [] (.inr rfl)
  rwa [append_nil, ← nibbles_append] at this

theorem deletes_leaf (ended : Terminated 16 k) (b : Bytes) : Deletes (.short k (.value b)) k := by
  refine ⟨true, .nil, ?_, .inl rfl, fun other whole => ?_, by rintro ⟨⟩, by rintro _ ⟨⟩⟩
  · have matched : prefixLen (nibbles (k ++ [])) (nibbles k) = (nibbles k).length :=
      prefixLen_self_append
    rw [append_nil] at matched
    change Trie.delete (.short (nibbles k) (.value b)) (nibbles k) = some (true, .nil)
    rw [Trie.delete]
    simp only [matched, lt_self_iff_false, if_false, if_true]
  · split
    case isTrue => rfl
    case isFalse differ =>
      refine (get_short_off fun starts => ?_).symm
      exact differ (ended.eq_of_prefix whole starts).symm

theorem deletes_extension (some : k ≠ []) (absent : 16 ∉ k) (more : rest ≠ [])
    (deleted : Deletes (.full cs) rest) (canonical : Canonical 16 (.full cs)) :
    Deletes (.short k (.full cs)) (k ++ rest) := by
  obtain ⟨dirty, after, called, shaped, removed, unchanged, stays⟩ := deleted
  have step : Trie.delete (embed (.short k (.full cs))) (nibbles (k ++ rest)) =
      Option.some (if !dirty then (false, .short (nibbles k) (embed (.full cs)))
        else match embed after with
          | .short l w => (true, .short (nibbles k ++ l) w)
          | n => (true, .short (nibbles k) n)) := by
    have longer : (nibbles k).length ≠ (nibbles (k ++ rest)).length := by
      have := length_pos_of_ne_nil more
      simp only [nibbles, length_map, length_append]
      omega
    rw [embed, Trie.delete]
    simp only [prefixLen_self_append, lt_self_iff_false, if_false, if_neg longer]
    rw [nibbles_append, drop_left, called]
    rfl
  have gets := Radix.get_short_update (k := k) fun t whole =>
    removed t ((terminated_append absent).mp whole)
  cases dirty with
  | false =>
    rw [unchanged rfl] at gets
    exact ⟨false, .short k (.full cs), step, .inr (.extension some absent canonical), gets,
      fun _ => rfl, by rintro _ ⟨⟩⟩
  | true =>
    obtain ⟨r, joined, fine, same⟩ := join_embed some absent (shaped.resolve_left (stays cs rfl))
    refine ⟨true, r, ?_, .inr fine, fun other whole => ?_, by rintro ⟨⟩, by rintro _ ⟨⟩⟩
    · rw [step, ← joined]
      rfl
    · rw [same, gets other whole]

theorem deletes_branch (canonical : Canonical 16 (.full cs))
    (ended : Terminated 16 (a :: rest)) {dirty : Bool} {after : Nibbles}
    (called : Trie.delete (embed (cs a)) (nibbles rest) = some (dirty, embed after))
    (lower : a ≠ 16 → after ≠ .nil → Canonical 16 after)
    (last : a = 16 → after = .nil ∨ ∃ b, after = .value b) (removed : ∀ t, Terminated 16 (a :: t) →
      after.get t = if t = rest then none else (cs a).get t)
    (unchanged : dirty = false → after = cs a) : Deletes (.full cs) (a :: rest) := by
  have step : Trie.delete (embed (.full cs)) (nibbles (a :: rest)) =
      if !dirty then some (false, embed (.full cs))
      else (reduce fun i => embed (Function.update cs a after i)).map fun n => (true, n) := by
    have moved : (fun i => embed (Function.update cs a after i)) =
        Function.update (fun i => embed (cs i)) a (embed after) := by
      funext i
      exact apply_update (fun _ => embed) cs a after i
    rw [moved, embed, nibbles, map_cons, Trie.delete, child_ofNat]
    simp only [Option.bind_eq_bind, Option.bind_some]
    rw [← nibbles, called]
    cases dirty
    · rfl
    · exact Option.map_eq_bind.symm
  have gets := Radix.get_update removed
  cases dirty with
  | false =>
    rw [unchanged rfl, update_eq_self] at gets
    exact ⟨false, .full cs, step, .inr canonical, gets, fun _ => rfl, by rintro _ _ ⟨⟩⟩
  | true =>
    cases canonical with
    | full inner mark forks =>
      have below (i : Fin 17) (other : i ≠ 16) : Function.update cs a after i ≠ .nil →
          Canonical 16 (Function.update cs a after i) := by
        rcases eq_or_ne i a with rfl | apart
        · rw [update_self]
          exact lower other
        · rw [update_of_ne apart]
          exact inner i other
      have top : Function.update cs a after 16 = .nil ∨ ∃ b, Function.update cs a after 16 = .value b := by
        rcases eq_or_ne 16 a with rfl | apart
        · rw [update_self]
          exact last rfl
        · rw [update_of_ne apart]
          exact mark
      -- Of the two children one is not the child that the key leads to.
      have left : ∃ i, Function.update cs a after i ≠ .nil := by
        obtain ⟨i, j, differ, here, there⟩ := forks
        rcases eq_or_ne i a with rfl | apart
        · exact ⟨j, by rwa [update_of_ne differ.symm]⟩
        · exact ⟨i, by rwa [update_of_ne apart]⟩
      obtain ⟨r, reduced, fine, same⟩ := reduce_embed below top left
      refine ⟨true, r, ?_, .inr fine, fun other whole => ?_, by rintro ⟨⟩, fun _ _ => fine.ne_nil⟩
      · rw [step, reduced]
        rfl
      · rw [same other whole, gets other whole]

theorem deletes_mark (canonical : Canonical 16 (.full cs)) : Deletes (.full cs) [16] := by
  have ended : Terminated 16 [(16 : Fin 17)] := ⟨[], not_mem_nil, rfl⟩
  have removed (t : List (Fin 17)) (whole : Terminated 16 (16 :: t)) :
      (Radix.nil : Nibbles).get t = if t = [] then none else (cs 16).get t := by
    rcases Radix.terminated_cons.mp whole with ⟨-, rfl⟩ | ⟨other, -⟩
    · rfl
    · exact absurd rfl other
  have called : ∃ dirty, Trie.delete (embed (cs 16)) (nibbles []) = some (dirty, embed .nil) ∧
      (dirty = false → .nil = cs 16) := by
    rcases Fits.below canonical ended with ⟨-, none | ⟨b, held⟩⟩ | ⟨whole, -⟩
    · rw [none]
      exact ⟨false, rfl, fun _ => rfl⟩
    · rw [held]
      exact ⟨true, rfl, nofun⟩
    · exact absurd rfl whole.ne_nil
  obtain ⟨dirty, called, unchanged⟩ := called
  exact deletes_branch canonical ended called (fun _ some => absurd rfl some) (fun _ => .inl rfl)
    removed unchanged

theorem delete_embed (shaped : r = .nil ∨ Canonical 16 r) (ended : Terminated 16 key) :
    Deletes r key := by
  induction r generalizing key with
  | nil => exact deletes_absent shaped rfl rfl
  | value b => exact absurd rfl ((shaped.resolve_left (by rintro ⟨⟩)).ne_value b)
  | short k v ih =>
    by_cases starts : k <+: key
    · obtain ⟨rest, rfl⟩ := starts
      rcases (shaped.resolve_left (by rintro ⟨⟩)).short_cases with ⟨whole, b, rfl⟩ | ⟨some, absent, below, cs, rfl⟩
      · rw [← whole.eq_of_prefix ended (prefix_append _ _)]
        exact deletes_leaf whole b
      · have inner := (terminated_append absent).mp ended
        exact deletes_extension some absent inner.ne_nil (ih (.inr below) inner) below
    · refine deletes_absent shaped (get_short_off starts) ?_
      rw [embed, Trie.delete]
      simp only [if_pos (prefixLen_lt starts)]
  | full cs ih =>
    cases key with
    | nil => exact absurd rfl ended.ne_nil
    | cons a rest =>
      have canonical := shaped.resolve_left (by rintro ⟨⟩)
      rcases Radix.terminated_cons.mp ended with ⟨rfl, rfl⟩ | ⟨inner, tail⟩
      · exact deletes_mark canonical
      · have child : cs a = .nil ∨ Canonical 16 (cs a) := by
          cases canonical with
          | full lower => exact or_iff_not_imp_left.mpr (lower a inner)
        obtain ⟨dirty, after, called, fine, removed, unchanged, -⟩ := ih a child tail
        refine deletes_branch canonical ended called (fun _ => fine.resolve_left)
          (fun mark => absurd mark inner) (fun t whole => removed t ?_) unchanged
        exact ((Radix.terminated_cons.mp whole).resolve_left fun h => inner h.1).2

end Nodes

structure Holds (r : Nibbles) (entries : Bytes → Option Bytes) : Prop where
  shaped : r = .nil ∨ Canonical 16 r
  gets : ∀ key, r.get (hexKey key) = entries key
  others : ∀ key, Terminated 16 key → (∀ k, hexKey k ≠ key) → r.get key = none

namespace Holds
variable {r s : Nibbles} {entries : Bytes → Option Bytes}

theorem change (holds : Holds r entries) {key : Bytes} {found : Option Bytes} {after : Nibbles}
    (shaped : after = .nil ∨ Canonical 16 after) (gets : ∀ other, Terminated 16 other →
      after.get other = if other = hexKey key then found else r.get other) :
    Holds after (Function.update entries key found) := by
  refine ⟨shaped, fun other => ?_, fun other ended apart => ?_⟩
  · rw [gets _ (hexKey_terminated other)]
    rcases eq_or_ne other key with rfl | differ
    · rw [if_pos rfl, update_self]
    · rw [if_neg fun same => differ (hexKey_inj same), update_of_ne differ, holds.gets]
  · rw [gets other ended, if_neg (apart key).symm, holds.others other ended apart]

theorem delete (holds : Holds r entries) (key : Bytes) :
    ∃ after, (Trie.delete (embed r) (keybytesToHex key)).map Prod.snd = some (embed after) ∧
      Holds after (Function.update entries key none) := by
  obtain ⟨dirty, after, called, shaped, removed, -⟩ := delete_embed holds.shaped (hexKey_terminated key)
  rw [← nibbles_hexKey, called]
  exact ⟨after, rfl, holds.change shaped removed⟩

theorem perform (holds : Holds r entries) (op : TrieOp) :
    ∃ after, op.perform (embed r) = some (embed after) ∧ Holds after (op.enter entries) := by
  cases op with
  | delete key => exact holds.delete key
  | update key value =>
    rw [TrieOp.perform, TrieOp.enter, tryUpdate]
    by_cases empty : value = []
    · rw [if_neg (not_not.mpr empty), if_pos empty]
      exact holds.delete key
    · obtain ⟨dirty, inserted, -⟩ := insert_embed (.inr ⟨hexKey_terminated key, holds.shaped⟩) value
      obtain ⟨canonical, entered⟩ := Radix.insert_spec holds.shaped (hexKey_terminated key) value
      rw [if_pos empty, if_neg empty, ← nibbles_hexKey, inserted]
      exact ⟨_, rfl, holds.change (.inr canonical) entered⟩

theorem run (holds : Holds r entries) (ops : List TrieOp) :
    ∃ after, ops.foldlM TrieOp.perform (embed r) = some (embed after) ∧
      Holds after (ops.foldl TrieOp.enter entries) := by
  induction ops generalizing r entries with
  | nil => exact ⟨r, rfl, holds⟩
  | cons op ops ih =>
    obtain ⟨next, performed, kept⟩ := holds.perform op
    rw [foldlM_cons, performed]
    exact ih kept

theorem get_eq (first : Holds r entries) (second : Holds s entries) (key : List (Fin 17))
    (ended : Terminated 16 key) : r.get key = s.get key := by
  by_cases bytes : ∃ k, hexKey k = key
  · obtain ⟨k, rfl⟩ := bytes
    rw [first.gets, second.gets]
  · rw [first.others key ended fun k same => bytes ⟨k, same⟩,
      second.others key ended fun k same => bytes ⟨k, same⟩]

theorem ne_nil_of_canonical (first : Holds .nil entries) (second : Holds s entries) :
    ¬Canonical 16 s := by
  intro canonical
  obtain ⟨key, b, ended, found⟩ := canonical.exists_entry
  rw [← first.get_eq second key ended] at found
  nomatch found

theorem unique (first : Holds r entries) (second : Holds s entries) : r = s := by
  rcases first.shaped with rfl | canonical <;> rcases second.shaped with rfl | other
  · rfl
  · exact absurd other (first.ne_nil_of_canonical second)
  · exact absurd canonical (second.ne_nil_of_canonical first)
  · exact canonical.ext other (first.get_eq second)

end Holds

theorem holds_nil : Holds .nil fun _ => none := ⟨.inl rfl, fun _ => rfl, fun _ _ _ => rfl⟩

/-- After any operations `TryGet` returns for each key what was last written there, no short node
is below a short node, every branch has two children, and the nodes depend on the entries alone. -/
theorem trie_operations (ops : List TrieOp) :
    ∃ r, performAll ops = some (embed r) ∧ (r = .nil ∨ Canonical 16 r) ∧
      (∀ key, tryGet (embed r) (keybytesToHex key) = some (entriesOf ops key)) ∧
      ∀ others, entriesOf others = entriesOf ops → performAll others = performAll ops := by
  obtain ⟨r, performed, holds⟩ := holds_nil.run ops
  refine ⟨r, performed, holds.shaped, fun key => ?_, fun others same => ?_⟩
  · rw [← nibbles_hexKey, tryGet_embed holds.shaped (hexKey_terminated key), holds.gets]
    rfl
  · obtain ⟨s, ran, kept⟩ := holds_nil.run others
    rw [show others.foldl TrieOp.enter (fun _ => none) = _ from same] at kept
    rw [performAll, performAll]
    exact ran.trans ((congrArg (some <| embed ·) (kept.unique holds)).trans performed.symm)

end Anduschain.Trie
