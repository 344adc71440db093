import Mathlib.Data.List.Basic
import Mathlib.Data.Option.Basic

/-! Paths in a forest of parent links. A path runs from a node down to the root, newest first;
an index by height, or by any other key, reads the path. When one path is exchanged for another
that shares its lower part, it is said what is left of an index written only above that part. -/

/-- Nodes name their parent by key, and stand one above it. -/
structure Forest (α κ : Type) where
  key : α → κ
  parent : α → κ
  height : α → ℕ
  root : α
  root_height : height root = 0

namespace Forest
open List
variable {α κ : Type} (F : Forest α κ) {held : α → Prop} {a b : α} {p q above olds news : List α}

/-- From a node to the root, through nodes that are held. -/
inductive Path (held : α → Prop) : List α → Prop
  | root : held F.root → Path held [F.root]
  | child {a b : α} {p : List α} : held a → F.parent a = F.key b → F.height a = F.height b + 1 →
      Path held (b :: p) → Path held (a :: b :: p)

def keyAt (p : List α) (n : ℕ) : Option κ := (p.find? fun a => F.height a = n).map F.key

variable {F}

theorem Path.eq_root (path : F.Path held [a]) : a = F.root := by
  cases path
  rfl

theorem Path.parent_of (path : F.Path held (a :: b :: p)) :
    F.parent a = F.key b ∧ F.height a = F.height b + 1 ∧ F.Path held (b :: p) := by
  cases path with
  | child _ parent height lower => exact ⟨parent, height, lower⟩

theorem Path.mono {more : α → Prop} (kept : ∀ a, held a → more a) (path : F.Path held p) :
    F.Path more p := by
  induction path with
  | root here => exact .root (kept _ here)
  | child here parent height _ ih => exact .child (kept _ here) parent height ih

theorem Path.all_held (path : F.Path held p) : ∀ a ∈ p, held a := by
  induction path with
  | root here =>
    intro a member
    cases mem_singleton.mp member
    exact here
  | child here _ _ _ ih =>
    intro a member
    rcases mem_cons.mp member with rfl | lower
    · exact here
    · exact ih a lower

theorem Path.linked (path : F.Path held p) :
    p.IsChain fun a b => F.parent a = F.key b ∧ F.height a = F.height b + 1 := by
  induction path with
  | root => exact .singleton _
  | child _ parent height _ ih => exact .cons_cons ⟨parent, height⟩ ih

theorem Path.length_eq (path : F.Path held (a :: p)) : p.length = F.height a := by
  induction p generalizing a with
  | nil =>
    cases path
    exact F.root_height.symm
  | cons b p ih =>
    cases path with
    | child _ _ height lower => rw [length_cons, ih lower, height]

theorem Path.lower (path : F.Path held (above ++ a :: p)) : F.Path held (a :: p) := by
  induction above with
  | nil => exact path
  | cons b above ih =>
    cases above with
    | nil =>
      cases path with
      | child _ _ _ lower => exact lower
    | cons c above =>
      cases path with
      | child _ _ _ lower => exact ih lower

theorem Path.unique (apart : ∀ a b, held a → held b → F.key a = F.key b → a = b)
    (first : F.Path held (a :: p)) (second : F.Path held (a :: q)) : p = q := by
  induction p generalizing a q with
  | nil =>
    have none_left := second.length_eq
    rw [← first.length_eq, length_nil, length_eq_zero_iff] at none_left
    exact none_left.symm
  | cons b p ih =>
    cases first with
    | child _ toB heightB lower =>
      cases second with
      | root =>
        rw [F.root_height] at heightB
        exact absurd heightB (by omega)
      | @child _ c q _ toC _ lower' =>
        have same : b = c := apart b c (lower.all_held b mem_cons_self)
          (lower'.all_held c mem_cons_self) (toB.symm.trans toC)
        subst same
        rw [ih lower lower']

theorem keyAt_append (p q : List α) (n : ℕ) :
    F.keyAt (p ++ q) n = (F.keyAt p n).or (F.keyAt q n) := by
  simp only [keyAt, find?_append, Option.map_or]

theorem keyAt_cons (a : α) (p : List α) (n : ℕ) :
    F.keyAt (a :: p) n = if F.height a = n then some (F.key a) else F.keyAt p n := by
  by_cases here : F.height a = n
  · simp [keyAt, here]
  · simp [keyAt, here]

theorem Path.above_iff (path : F.Path held (above ++ a :: p)) (n : ℕ) :
    (F.keyAt above n).isSome ↔ F.height a < n ∧ n ≤ F.height a + above.length := by
  induction above with
  | nil =>
    simp only [keyAt, find?_nil, Option.map_none, Option.isSome_none, length_nil,
      Bool.false_eq_true, false_iff]
    omega
  | cons b above ih =>
    have lower : F.Path held (above ++ a :: p) := by
      cases above with
      | nil => exact path.lower
      | cons c above =>
        cases path with
        | child _ _ _ lower => exact lower
    have top : F.height b = F.height a + above.length + 1 := by
      have whole : (above ++ a :: p).length = F.height b := path.length_eq
      rw [length_append, length_cons, path.lower.length_eq] at whole
      omega
    rw [keyAt_cons, length_cons]
    by_cases here : F.height b = n
    · simp only [here, if_true, Option.isSome_some, true_iff]
      omega
    · rw [if_neg here, ih lower]
      omega

theorem Path.isSome_iff (path : F.Path held (a :: p)) (n : ℕ) :
    (F.keyAt (a :: p) n).isSome ↔ n ≤ F.height a := by
  induction p generalizing a with
  | nil =>
    cases path
    rw [keyAt_cons, F.root_height]
    by_cases here : 0 = n
    · simp [← here]
    · simp only [here, if_false, keyAt, find?_nil, Option.map_none, Option.isSome_none,
        Bool.false_eq_true, false_iff]
      omega
  | cons b p ih =>
    cases path with
    | child _ _ height lower =>
      rw [keyAt_cons]
      by_cases here : F.height a = n
      · simp [here]
      · rw [if_neg here, ih lower]
        omega

theorem exists_of_keyAt {n : ℕ} {k : κ} (found : F.keyAt p n = some k) :
    ∃ a ∈ p, F.height a = n ∧ F.key a = k := by
  obtain ⟨a, first, rfl⟩ := Option.map_eq_some_iff.mp found
  exact ⟨a, mem_of_find?_eq_some first, by simpa using find?_some first, rfl⟩

theorem Path.keyAt_mem (path : F.Path held p) : ∀ a ∈ p, F.keyAt p (F.height a) = some (F.key a) := by
  induction path with
  | root =>
    intro a member
    cases mem_singleton.mp member
    rw [keyAt_cons, if_pos rfl]
  | @child b c p _ _ height lower ih =>
    intro a member
    rcases mem_cons.mp member with rfl | deeper
    · rw [keyAt_cons, if_pos rfl]
    · have found := ih a deeper
      have low : F.height a ≤ F.height c := by
        rw [← lower.isSome_iff, found, Option.isSome_some]
      rw [keyAt_cons, if_neg (by omega), found]

theorem Path.transfer {other : α → Prop} (path : F.Path held p) (here : ∀ a ∈ p, other a) :
    F.Path other p := by
  induction path with
  | root => exact .root (here _ mem_cons_self)
  | child _ parent height _ ih =>
    exact .child (here _ mem_cons_self) parent height
      (ih fun a member => here a (mem_cons_of_mem _ member))

theorem Path.height_le (path : F.Path held (a :: p)) (b : α) (member : b ∈ a :: p) :
    F.height b ≤ F.height a := by
  rw [← path.isSome_iff, path.keyAt_mem b member, Option.isSome_some]

theorem Path.root_mem (path : F.Path held p) : F.root ∈ p := by
  induction path with
  | root => exact mem_cons_self
  | child _ _ _ _ ih => exact mem_cons_of_mem _ ih

theorem Path.keyAt_zero (path : F.Path held p) : F.keyAt p 0 = some (F.key F.root) := by
  have found := path.keyAt_mem F.root path.root_mem
  rwa [F.root_height] at found

theorem Path.keyAt_below (apart : ∀ a b, held a → held b → F.key a = F.key b → a = b)
    (other : F.Path held q) (path : F.Path held (a :: p))
    (named : F.keyAt q (F.height a) = some (F.key a)) {n : ℕ} (low : n ≤ F.height a) :
    F.keyAt q n = F.keyAt (a :: p) n := by
  obtain ⟨b, member, -, same⟩ := exists_of_keyAt named
  cases apart b a (other.all_held b member) (path.all_held a mem_cons_self) same
  obtain ⟨above, rest, rfl⟩ := append_of_mem member
  cases other.lower.unique apart path
  have nothing : F.keyAt above n = none := by
    rw [← Option.not_isSome_iff_eq_none, other.above_iff]
    omega
  rw [keyAt_append, nothing, Option.none_or]

/-- Writing the new upper part over the index of the old path gives the index of the new path
exactly when the new path is not the lower one. -/
theorem Path.switch_iff {bound : ℕ} (room : F.height a + olds.length < bound)
    (old : F.Path held (olds ++ a :: p)) (new : F.Path held (news ++ a :: p)) :
    (∀ n < bound, (F.keyAt news n).or (F.keyAt (olds ++ a :: p) n) = F.keyAt (news ++ a :: p) n) ↔
      olds.length ≤ news.length := by
  constructor
  · intro indexed
    by_contra shorter
    -- the height of the old head is left in the index
    have stale := indexed (F.height a + olds.length) room
    have unwritten : F.keyAt news (F.height a + olds.length) = none := by
      rw [← Option.not_isSome_iff_eq_none, new.above_iff]
      omega
    have left : (F.keyAt olds (F.height a + olds.length)).isSome := by
      rw [old.above_iff]
      omega
    have below : F.keyAt (a :: p) (F.height a + olds.length) = none := by
      rw [← Option.not_isSome_iff_eq_none, old.lower.isSome_iff]
      omega
    rw [keyAt_append, keyAt_append, unwritten, below, Option.none_or, Option.none_or,
      Option.or_none] at stale
    rw [stale] at left
    exact absurd left (by simp)
  · intro longer n _
    rw [keyAt_append, keyAt_append]
    cases written : F.keyAt news n with
    | some k => rfl
    | none =>
      have none_left : F.keyAt olds n = none := by
        rw [← Option.not_isSome_iff_eq_none, old.above_iff]
        have missed : ¬(F.keyAt news n).isSome := by simp [written]
        rw [new.above_iff] at missed
        omega
      rw [none_left, Option.none_or]

theorem switch_places {ε : Type} {place : α → Option ε} {low : List α}
    (once : (olds.findSome? place).isSome → low.findSome? place = none) :
    (if (olds.findSome? place).isSome ∧ news.findSome? place = none then none
      else (news.findSome? place).or ((olds ++ low).findSome? place)) =
    (news ++ low).findSome? place := by
  rw [findSome?_append, findSome?_append]
  cases added : news.findSome? place with
  | some e => simp
  | none =>
    by_cases deleted : (olds.findSome? place).isSome
    · simp [deleted, once deleted]
    · rw [if_neg (fun both => deleted both.1)]
      rw [Option.not_isSome_iff_eq_none] at deleted
      rw [deleted, Option.none_or]

end Forest
