import Anduschain.TrieNode
import Anduschain.RadixTrie
import Mathlib.Data.List.FinRange

/-! The Merkle trie in memory (trie/trie.go): updates and deletions on nodes that are all loaded,
and that a trie filled by updates is the radix trie of its entries. The hash of a node is a
parameter. -/
namespace Anduschain.Trie
open ByteOrder List Function
open Radix (Canonical Terminated)

def prefixLen : Bytes → Bytes → ℕ
  | a :: as, b :: bs => if a = b then prefixLen as bs + 1 else 0
  | _, _ => 0

/-- The index `Children[b]`; `none` is a panic. -/
def child (b : UInt8) : Option (Fin 17) := if h : b.toNat < 17 then some ⟨b.toNat, h⟩ else none

def insertNil (key : Bytes) (value : TrieNode) : TrieNode :=
  if key = [] then value else .short key value

/-- The new node with whether it differs; `none` is a panic, as is a node that is not loaded in a
trie without a database. -/
def insert : TrieNode → Bytes → TrieNode → Option (Bool × TrieNode)
  | .nil, key, value => some (true, insertNil key value)
  | .value old, key, value =>
    match key, value with
    | [], .value new => some (old != new, value)
    | _, _ => none
  | .hash _, key, value => if key = [] then some (true, value) else none
  | .short k v, key, value =>
    if key = [] then some (true, value)
    else
      let matchlen := prefixLen key k
      if matchlen = k.length then do
        let (dirty, nn) ← insert v (key.drop matchlen) value
        return if dirty then (true, .short k nn) else (false, .short k v)
      else do
        let i ← k[matchlen]? >>= child
        let j ← key[matchlen]? >>= child
        let children := Function.update (fun _ => .nil) i (insertNil (k.drop (matchlen + 1)) v)
        let branch := .full (Function.update children j (insertNil (key.drop (matchlen + 1)) value))
        return (true, if matchlen = 0 then branch else .short (key.take matchlen) branch)
  | .full cs, key, value =>
    match key with
    | [] => some (true, value)
    | b :: rest => do
        let i ← child b
        let (dirty, nn) ← insert (cs i) rest value
        return if dirty then (true, .full (Function.update cs i nn)) else (false, .full cs)

def onlyChild (cs : Fin 17 → TrieNode) : Option (Fin 17) :=
  match (List.finRange 17).filter fun i => match cs i with | .nil => false | _ => true with
  | [i] => some i
  | _ => none

/-- A branch that is left with one child becomes a short node. -/
def reduce (cs : Fin 17 → TrieNode) : Option TrieNode :=
  match onlyChild cs with
  | none => some (.full cs)
  | some i =>
    let byte := UInt8.ofNat i.val
    if i = 16 then some (.short [byte] (cs i))
    else
      match cs i with
      | .hash _ => none
      | .short k v => some (.short (byte :: k) v)
      | n => some (.short [byte] n)

def delete : TrieNode → Bytes → Option (Bool × TrieNode)
  | .nil, _ => some (false, .nil)
  | .value _, _ => some (true, .nil)
  | .hash _, _ => none
  | .short k v, key =>
    let matchlen := prefixLen key k
    if matchlen < k.length then some (false, .short k v)
    else if matchlen = key.length then some (true, .nil)
    else do
      let (dirty, nn) ← delete v (key.drop k.length)
      return if !dirty then (false, .short k v)
        else
          match nn with
          | .short k' v' => (true, .short (k ++ k') v')
          | n => (true, .short k n)
  | .full cs, key =>
    match key with
    | [] => none
    | b :: rest => do
        let i ← child b
        let (dirty, nn) ← delete (cs i) rest
        if !dirty then return (false, .full cs)
        else
          let n ← reduce (Function.update cs i nn)
          return (true, n)

/-- `TryUpdate`: an empty value deletes. -/
def tryUpdate (root : TrieNode) (key value : Bytes) : Option TrieNode :=
  if value ≠ [] then (insert root (keybytesToHex key) (.value value)).map Prod.snd
  else (delete root (keybytesToHex key)).map Prod.snd

def updateAll (root : TrieNode) (updates : List (Bytes × Bytes)) : Option TrieNode :=
  updates.foldlM (fun root update => tryUpdate root update.1 update.2) root

abbrev Nibbles := Radix (Fin 17) Bytes

def nibbles (key : List (Fin 17)) : Bytes := key.map fun i : Fin 17 => UInt8.ofNat i.val

def embed : Nibbles → TrieNode
  | .nil => .nil
  | .short key val => .short (nibbles key) (embed val)
  | .full children => .full fun i => embed (children i)
  | .value b => .value b

def hexKey (key : Bytes) : List (Fin 17) :=
  key.flatMap (fun b =>
    [⟨b.toNat / 16, by have := b.toNat_lt; omega⟩, ⟨b.toNat % 16, by omega⟩]) ++ [16]

section Keys

theorem child_ofNat (i : Fin 17) : child (UInt8.ofNat i.val) = some i := by
  have exact_byte : (UInt8.ofNat i.val).toNat = i.val := by
    rw [UInt8.toNat_ofNat', Nat.mod_eq_of_lt (by omega)]
  rw [child, dif_pos (by omega)]
  simp only [exact_byte]

theorem ofNat_inj {i j : Fin 17} (same : UInt8.ofNat i.val = UInt8.ofNat j.val) : i = j := by
  have found := child_ofNat i
  rw [same, child_ofNat j] at found
  exact (Option.some.inj found).symm

theorem nibbles_inj {a b : List (Fin 17)} (same : nibbles a = nibbles b) : a = b :=
  map_injective_iff.mpr (fun _ _ => ofNat_inj) same

theorem nibbles_append (a b : List (Fin 17)) : nibbles (a ++ b) = nibbles a ++ nibbles b :=
  map_append

theorem nibbles_hexKey (key : Bytes) : nibbles (hexKey key) = keybytesToHex key := by
  rw [nibbles, hexKey, keybytesToHex, map_append, map_flatMap]
  congr 2
  funext b
  have low := b.toNat_lt
  simp only [map_cons, map_nil, List.cons.injEq, and_true]
  constructor
  · apply UInt8.toNat_inj.mp
    rw [UInt8.toNat_ofNat', UInt8.toNat_div]
    exact Nat.mod_eq_of_lt (by omega)
  · apply UInt8.toNat_inj.mp
    rw [UInt8.toNat_ofNat', UInt8.toNat_mod]
    exact Nat.mod_eq_of_lt (by omega)

theorem hexKey_terminated (key : Bytes) : Terminated 16 (hexKey key) := by
  refine ⟨_, ?_, rfl⟩
  intro member
  obtain ⟨b, -, member⟩ := mem_flatMap.mp member
  have low := b.toNat_lt
  simp only [mem_cons, not_mem_nil, or_false, Fin.ext_iff] at member
  have sixteen : ((16 : Fin 17) : ℕ) = 16 := rfl
  omega

theorem hexKey_inj {a b : Bytes} (same : hexKey a = hexKey b) : a = b := by
  have halves := append_cancel_right same
  clear same
  induction a generalizing b with
  | nil =>
    cases b with
    | nil => rfl
    | cons y ys => simp at halves
  | cons x xs ih =>
    cases b with
    | nil => simp at halves
    | cons y ys =>
      simp only [flatMap_cons, cons_append, nil_append, List.cons.injEq, Fin.mk.injEq] at halves
      obtain ⟨high, low, rest⟩ := halves
      have byte : x = y := by
        apply UInt8.toNat_inj.mp
        omega
      rw [byte, ih rest]

theorem prefixLen_eq_fork (a b : Bytes) : prefixLen a b = (Radix.fork a b).1.length := by
  fun_induction prefixLen a b with
  | case1 | case2 => simp_all [Radix.fork]
  | case3 a b short =>
    rcases a with _ | ⟨x, a⟩
    · rfl
    · rcases b with _ | ⟨y, b⟩
      · rfl
      · exact (short x a y b rfl rfl).elim

theorem prefixLen_append (common left right : Bytes) (apart : left.head? ≠ right.head? ∨ right = []) :
    prefixLen (common ++ left) (common ++ right) = common.length := by
  rw [prefixLen_eq_fork, Radix.fork_append common left right apart]

end Keys

variable {r : Nibbles} {key : List (Fin 17)}

theorem embed_inj {s : Nibbles} (same : embed r = embed s) : r = s := by
  induction r generalizing s with
  | nil =>
    cases s with
    | nil => rfl
    | _ => cases same
  | value b =>
    cases s with
    | value c =>
      cases same
      rfl
    | _ => cases same
  | short k v ih =>
    cases s with
    | short l w =>
      rw [embed, embed, TrieNode.short.injEq] at same
      rw [nibbles_inj same.1, ih same.2]
    | _ => cases same
  | full cs ih =>
    cases s with
    | full ds =>
      rw [embed, embed, TrieNode.full.injEq] at same
      congr 1
      funext i
      exact ih i (congrFun same i)
    | _ => cases same

theorem insertNil_embed (key : List (Fin 17)) (r : Nibbles) :
    insertNil (nibbles key) (embed r) = embed (r.under key) := by
  cases key with
  | nil => rfl
  | cons x xs => rfl

/-- Where an insertion may arrive: at a value with the key used up, or in a canonical trie with
the rest. -/
def Fits (r : Nibbles) (key : List (Fin 17)) : Prop :=
  (key = [] ∧ (r = .nil ∨ ∃ b, r = .value b)) ∨ (Terminated 16 key ∧ (r = .nil ∨ Canonical 16 r))

theorem Fits.inner (fits : Fits r key) (some : r ≠ .nil)
    (other : ∀ b, r ≠ .value b) : Terminated 16 key ∧ Canonical 16 r := by
  rcases fits with ⟨-, none | ⟨b, value⟩⟩ | ⟨ended, none | canonical⟩
  · exact absurd none some
  · exact absurd value (other b)
  · exact absurd none some
  · exact ⟨ended, canonical⟩

theorem Fits.eq_nil {b : Bytes} (fits : Fits (.value b) key) : key = [] := by
  rcases fits with ⟨none, -⟩ | ⟨-, none | canonical⟩
  · exact none
  · cases none
  · exact absurd rfl (canonical.ne_value b)

section Insert
variable {r : Nibbles} {k key rest common xs ys : List (Fin 17)} {v : Nibbles} {b : Bytes}

theorem Fits.lower (canonical : Canonical 16 (.short k v))
    (ended : Terminated 16 (k ++ rest)) : Fits v rest := by
  rcases canonical.short_cases with ⟨whole, c, rfl⟩ | ⟨-, absent, below, -⟩
  · have same := whole.eq_of_prefix ended (prefix_append _ _)
    have none : rest = [] := by simpa using same.symm
    exact .inl ⟨none, .inr ⟨c, rfl⟩⟩
  · exact .inr ⟨(Radix.terminated_append absent).mp ended, .inr below⟩

theorem Fits.below {cs : Fin 17 → Nibbles} {i : Fin 17} (canonical : Canonical 16 (.full cs))
    (ended : Terminated 16 (i :: rest)) : Fits (cs i) rest := by
  cases canonical with
  | full lower last _ =>
    rcases Radix.terminated_cons.mp ended with ⟨rfl, none⟩ | ⟨inner, ended⟩
    · exact .inl ⟨none, last⟩
    · refine .inr ⟨ended, ?_⟩
      by_cases none : cs i = .nil
      · exact .inl none
      · exact .inr (lower i inner none)

theorem insert_branch {x y : Fin 17} (differ : x ≠ y) :
    insert (embed (.short (common ++ y :: ys) v)) (nibbles (common ++ x :: xs)) (.value b) =
      some (true, embed (Radix.under common
        (Radix.branch x (Radix.under xs (.value b)) y (Radix.under ys v)))) := by
  have len : prefixLen (nibbles (common ++ x :: xs)) (nibbles (common ++ y :: ys)) =
      (nibbles common).length := by
    rw [nibbles_append, nibbles_append]
    apply prefixLen_append
    refine .inl fun same => differ (ofNat_inj ?_)
    simpa [nibbles] using same
  have letter (z : Fin 17) (zs : List (Fin 17)) :
      ((nibbles (common ++ z :: zs))[(nibbles common).length]? >>= child) = some z := by
    rw [nibbles_append, getElem?_append_right le_rfl, Nat.sub_self]
    exact child_ofNat z
  have later (z : Fin 17) (zs : List (Fin 17)) :
      (nibbles (common ++ z :: zs)).drop ((nibbles common).length + 1) = nibbles zs := by
    rw [nibbles_append, drop_append]
    simp [nibbles]
  have earlier : (nibbles (common ++ x :: xs)).take (nibbles common).length = nibbles common := by
    rw [nibbles_append, take_left]
  have shorter : (nibbles common).length ≠ (nibbles (common ++ y :: ys)).length := by
    simp [nibbles]
  have some_key : nibbles (common ++ x :: xs) ≠ [] := by
    simp [nibbles]
  have children : Function.update (Function.update (fun _ => TrieNode.nil) y (embed (v.under ys))) x
      (embed (Radix.under xs (.value b))) =
      fun i => embed
        (if i = x then Radix.under xs (.value b) else if i = y then v.under ys else .nil) := by
    funext i
    by_cases first : i = x
    · subst first
      rw [update_self, if_pos rfl]
    · rw [update_of_ne first, if_neg first]
      by_cases second : i = y
      · subst second
        rw [update_self, if_pos rfl]
      · rw [update_of_ne second, if_neg second]
        rfl
  rw [embed, insert, if_neg some_key]
  simp only [len, if_neg shorter, letter, later, earlier, Option.bind_eq_bind, Option.bind_some]
  rw [insertNil_embed, show TrieNode.value b = embed (.value b) from rfl, insertNil_embed, children]
  cases common with
  | nil => rfl
  | cons z zs => rfl

theorem insert_embed (fits : Fits r key) (b : Bytes) :
    ∃ dirty, insert (embed r) (nibbles key) (.value b) = some (dirty, embed (r.insert key b)) ∧
      (dirty = false → embed (r.insert key b) = embed r) := by
  induction r generalizing key with
  | nil =>
    refine ⟨true, ?_, by simp⟩
    rw [embed, insert, show TrieNode.value b = embed (.value b) from rfl, insertNil_embed]
    rfl
  | value c =>
    obtain rfl := fits.eq_nil
    refine ⟨c != b, rfl, ?_⟩
    intro same
    rw [Radix.insert, embed, embed, bne_eq_false_iff_eq.mp same]
  | short k v ih =>
    obtain ⟨ended, canonical⟩ := fits.inner (by rintro ⟨⟩) (by rintro _ ⟨⟩)
    have some_key : nibbles key ≠ [] := by simpa [nibbles] using ended.ne_nil
    obtain ⟨common, left, right, forked, rfl, rfl, ends⟩ := Radix.fork_spec key k
    cases right with
    | nil =>
      rw [append_nil] at canonical forked ⊢
      obtain ⟨dirty, inserted, unchanged⟩ := ih (Fits.lower canonical ended)
      have len : prefixLen (nibbles (common ++ left)) (nibbles common) = (nibbles common).length := by
        have split := prefixLen_append (nibbles common) (nibbles left) [] (.inr rfl)
        rwa [append_nil, ← nibbles_append] at split
      have later : (nibbles (common ++ left)).drop (nibbles common).length = nibbles left := by
        rw [nibbles_append, drop_left]
      have after : (Radix.short common v).insert (common ++ left) b =
          .short common (v.insert left b) := by simp only [Radix.insert, forked]
      have called : insert (embed (.short common v)) (nibbles (common ++ left)) (.value b) =
          some (if dirty then (true, embed (.short common (v.insert left b)))
            else (false, embed (.short common v))) := by
        rw [embed, insert, if_neg some_key]
        simp only [len, if_true, later, inserted, Option.bind_eq_bind, Option.bind_some]
        rfl
      rw [after, called]
      cases dirty with
      | true => exact ⟨true, rfl, by simp⟩
      | false =>
        have same : embed (.short common (v.insert left b)) = embed (.short common v) := by
          rw [embed, embed, unchanged rfl]
        exact ⟨false, by rw [same]; rfl, fun _ => same⟩
    | cons y ys =>
      rcases ends with rfl | ends | ⟨x, xs, y', ys', rfl, same, differ⟩
      · rw [append_nil] at ended
        exact absurd (canonical.short_whole ended) (cons_ne_nil y ys)
      · cases ends
      · obtain ⟨rfl, rfl⟩ := cons_eq_cons.mp same
        refine ⟨true, ?_, by simp⟩
        simp only [Radix.insert, forked]
        exact insert_branch differ
  | full cs ih =>
    obtain ⟨ended, canonical⟩ := fits.inner (by rintro ⟨⟩) (by rintro _ ⟨⟩)
    cases key with
    | nil => exact absurd rfl ended.ne_nil
    | cons i rest =>
      obtain ⟨dirty, inserted, unchanged⟩ := ih i (Fits.below canonical ended)
      have called : insert (embed (.full cs)) (nibbles (i :: rest)) (.value b) =
          some (if dirty then
              (true, .full (Function.update (fun j => embed (cs j)) i (embed ((cs i).insert rest b))))
            else (false, embed (.full cs))) := by
        rw [embed, nibbles, map_cons, insert, child_ofNat]
        simp only [Option.bind_eq_bind, Option.bind_some]
        rw [show List.map (fun i : Fin 17 => UInt8.ofNat i.val) rest = nibbles rest from rfl, inserted]
        rfl
      have updated : TrieNode.full
          (Function.update (fun j => embed (cs j)) i (embed ((cs i).insert rest b))) =
          embed ((Radix.full cs).insert (i :: rest) b) := by
        rw [Radix.insert, embed]
        congr 1
        funext j
        exact (apply_update (fun _ => embed) cs i _ j).symm
      rw [called, updated]
      cases dirty with
      | true => exact ⟨true, rfl, by simp⟩
      | false =>
        have same : embed ((Radix.full cs).insert (i :: rest) b) = embed (.full cs) := by
          rw [← updated, unchanged rfl, embed, update_eq_self]
        exact ⟨false, by rw [same]; rfl, fun _ => same⟩

end Insert

def fill (r : Nibbles) (updates : List (Bytes × Bytes)) : Nibbles :=
  updates.foldl (fun r update => r.insert (hexKey update.1) update.2) r

theorem fill_shaped (shaped : r = .nil ∨ Canonical 16 r) (updates : List (Bytes × Bytes)) :
    fill r updates = .nil ∨ Canonical 16 (fill r updates) := by
  induction updates generalizing r with
  | nil => exact shaped
  | cons u updates ih => exact ih (.inr (Radix.insert_spec shaped (hexKey_terminated u.1) u.2).1)

theorem updateAll_embed (shaped : r = .nil ∨ Canonical 16 r)
    (updates : List (Bytes × Bytes)) (written : ∀ u ∈ updates, u.2 ≠ []) :
    updateAll (embed r) updates = some (embed (fill r updates)) := by
  induction updates generalizing r with
  | nil => rfl
  | cons u updates ih =>
    have ended := hexKey_terminated u.1
    obtain ⟨dirty, inserted, -⟩ := insert_embed (.inr ⟨ended, shaped⟩) u.2
    have updated : tryUpdate (embed r) u.1 u.2 = some (embed (r.insert (hexKey u.1) u.2)) := by
      rw [tryUpdate, if_pos (written u mem_cons_self), ← nibbles_hexKey, inserted]
      rfl
    simp only [updateAll, foldlM_cons, updated]
    exact ih (.inr (Radix.insert_spec shaped ended u.2).1)
      fun other member => written other (mem_cons_of_mem _ member)

end Anduschain.Trie
