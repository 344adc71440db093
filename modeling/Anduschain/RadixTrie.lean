import Mathlib.Data.List.Infix
import Mathlib.Logic.Function.Basic

/-! Tries with compressed paths over any alphabet. Keys end in a mark that stands nowhere else in
them, so that no key is a part of another. A trie in canonical form is told by what it maps keys
to: two canonical tries with the same entries are the same trie. -/

inductive Radix (ι β : Type) where
  | nil
  | short (key : List ι) (val : Radix ι β)
  | full (children : ι → Radix ι β)
  | value (b : β)

namespace Radix
open List Function
variable {ι β : Type}

/-- A key that ends in the mark, which stands nowhere else in it. -/
def Terminated (mark : ι) (key : List ι) : Prop := ∃ path, mark ∉ path ∧ key = path ++ [mark]

section Terminated
variable {mark x : ι} {k key rest : List ι}

theorem Terminated.ne_nil (ended : Terminated mark key) : key ≠ [] := by
  obtain ⟨path, -, rfl⟩ := ended
  simp

theorem terminated_cons : Terminated mark (x :: rest) ↔
    (x = mark ∧ rest = []) ∨ (x ≠ mark ∧ Terminated mark rest) := by
  constructor
  · rintro ⟨path, absent, split⟩
    cases path with
    | nil =>
      obtain ⟨rfl, rfl⟩ := cons_eq_cons.mp split
      exact .inl ⟨rfl, rfl⟩
    | cons y path =>
      obtain ⟨rfl, rfl⟩ := cons_eq_cons.mp split
      rw [mem_cons, not_or] at absent
      exact .inr ⟨Ne.symm absent.1, path, absent.2, rfl⟩
  · rintro (⟨rfl, rfl⟩ | ⟨other, path, absent, rfl⟩)
    · exact ⟨[], not_mem_nil, rfl⟩
    · exact ⟨x :: path, by simp [Ne.symm other, absent], rfl⟩

theorem terminated_append (absent : mark ∉ k) :
    Terminated mark (k ++ rest) ↔ Terminated mark rest := by
  induction k with
  | nil => rfl
  | cons x k ih =>
    rw [mem_cons, not_or] at absent
    rw [cons_append, terminated_cons, ih absent.2]
    simp [Ne.symm absent.1]

theorem Terminated.not_mem_of_append (ended : Terminated mark (k ++ rest)) (more : rest ≠ []) :
    mark ∉ k := by
  induction k with
  | nil => exact not_mem_nil
  | cons x k ih =>
    rcases terminated_cons.mp ended with ⟨-, none⟩ | ⟨other, ended⟩
    · exact absurd (append_eq_nil_iff.mp none).2 more
    · rw [mem_cons, not_or]
      exact ⟨Ne.symm other, ih ended⟩

theorem Terminated.mem (ended : Terminated mark key) : mark ∈ key := by
  obtain ⟨path, -, rfl⟩ := ended
  simp

theorem Terminated.eq_of_prefix (ended : Terminated mark k) (other : Terminated mark key)
    (starts : k <+: key) : k = key := by
  induction k generalizing key with
  | nil => exact absurd rfl ended.ne_nil
  | cons x k ih =>
    obtain ⟨rest, rfl⟩ := starts
    rw [cons_append] at other ⊢
    rcases terminated_cons.mp ended with ⟨rfl, rfl⟩ | ⟨apart, ended⟩
    · rcases terminated_cons.mp other with ⟨-, none⟩ | ⟨apart, -⟩
      · rw [none]
      · exact absurd rfl apart
    · rcases terminated_cons.mp other with ⟨same, -⟩ | ⟨-, other⟩
      · exact absurd same apart
      · rw [← ih ended other ⟨rest, rfl⟩]

end Terminated

/-- Leaves hold what is left of a key, extensions lead to branches, and branches branch. -/
inductive Canonical (mark : ι) : Radix ι β → Prop
  | leaf {key : List ι} {b : β} : Terminated mark key → Canonical mark (.short key (.value b))
  | extension {key : List ι} {cs : ι → Radix ι β} : key ≠ [] → mark ∉ key →
      Canonical mark (.full cs) → Canonical mark (.short key (.full cs))
  | full {cs : ι → Radix ι β} : (∀ i, i ≠ mark → cs i ≠ .nil → Canonical mark (cs i)) →
      (cs mark = .nil ∨ ∃ b, cs mark = .value b) → (∃ i j, i ≠ j ∧ cs i ≠ .nil ∧ cs j ≠ .nil) →
      Canonical mark (.full cs)

namespace Canonical
variable {mark : ι} {r s : Radix ι β} {cs : ι → Radix ι β} {k l key : List ι} {v w : Radix ι β}

theorem ne_nil (canonical : Canonical mark r) : r ≠ .nil := by
  cases canonical <;> rintro ⟨⟩

theorem ne_value (canonical : Canonical mark r) (b : β) : r ≠ .value b := by
  cases canonical <;> rintro ⟨⟩

theorem short_cases (canonical : Canonical mark (.short k v)) :
    (Terminated mark k ∧ ∃ b, v = .value b) ∨
      (k ≠ [] ∧ mark ∉ k ∧ Canonical mark v ∧ ∃ cs, v = .full cs) := by
  cases canonical with
  | leaf ended => exact .inl ⟨ended, _, rfl⟩
  | extension some absent lower => exact .inr ⟨some, absent, lower, _, rfl⟩

theorem short_ne_nil (canonical : Canonical mark (.short k v)) : k ≠ [] := by
  rcases canonical.short_cases with ⟨ended, -⟩ | ⟨some, -⟩
  · exact ended.ne_nil
  · exact some

theorem short_whole (canonical : Canonical mark (.short (k ++ l) v)) (ended : Terminated mark k) :
    l = [] := by
  rcases canonical.short_cases with ⟨whole, -⟩ | ⟨-, absent, -⟩
  · simpa using ended.eq_of_prefix whole (prefix_append k l)
  · exact absurd (mem_append_left l ended.mem) absent

end Canonical

def under (key : List ι) (n : Radix ι β) : Radix ι β :=
  match key with
  | [] => n
  | _ => .short key n

def Child (mark i : ι) (n : Radix ι β) : Prop :=
  (i = mark → ∃ b, n = .value b) ∧ (i ≠ mark → Canonical mark n)

section Children
variable {mark x y : ι} {a v : Radix ι β} {common xs ys : List ι}

theorem Child.ne_nil (child : Child mark x a) : a ≠ .nil := by
  by_cases here : x = mark
  · obtain ⟨b, rfl⟩ := child.1 here
    rintro ⟨⟩
  · exact (child.2 here).ne_nil

theorem child_of_key (ended : Terminated mark (x :: xs)) (b : β) :
    Child mark x (under xs (.value b)) := by
  rcases terminated_cons.mp ended with ⟨rfl, rfl⟩ | ⟨other, ended⟩
  · exact ⟨fun _ => ⟨b, rfl⟩, fun other => absurd rfl other⟩
  · refine ⟨fun here => absurd here other, fun _ => ?_⟩
    cases xs with
    | nil => exact absurd rfl ended.ne_nil
    | cons z zs => exact .leaf ended

theorem child_of_short (canonical : Canonical mark (.short (common ++ y :: ys) v))
    (absent : mark ∉ common) : Child mark y (under ys v) := by
  rcases canonical.short_cases with ⟨ended, b, rfl⟩ | ⟨-, none, below, cs, rfl⟩
  · exact child_of_key ((terminated_append absent).mp ended) b
  · rw [mem_append, mem_cons, not_or, not_or] at none
    refine ⟨fun here => absurd here.symm none.2.1, fun _ => ?_⟩
    cases ys with
    | nil => exact below
    | cons z zs => exact .extension (by simp) none.2.2 below

theorem canonical_under {cs : ι → Radix ι β} (absent : mark ∉ common)
    (canonical : Canonical mark (.full cs)) : Canonical mark (under common (.full cs)) := by
  cases common with
  | nil => exact canonical
  | cons z zs => exact .extension (by simp) absent canonical

end Children

variable [DecidableEq ι]

def fork : List ι → List ι → List ι × List ι × List ι
  | x :: xs, y :: ys =>
    if x = y then
      let (common, left, right) := fork xs ys
      (x :: common, left, right)
    else ([], x :: xs, y :: ys)
  | xs, ys => ([], xs, ys)

def branch (x : ι) (a : Radix ι β) (y : ι) (b : Radix ι β) : Radix ι β :=
  .full fun i => if i = x then a else if i = y then b else .nil

def get : Radix ι β → List ι → Option β
  | .nil, _ => none
  | .value b, _ => some b
  | .short k v, key =>
    match fork key k with
    | (_, rest, []) => v.get rest
    | _ => none
  | .full _, [] => none
  | .full cs, i :: key => (cs i).get key

def insert : Radix ι β → List ι → β → Radix ι β
  | .nil, key, b => under key (.value b)
  | .value _, _, b => .value b
  | .short k v, key, b =>
    match fork key k with
    | (_, rest, []) => .short k (v.insert rest b)
    | (common, x :: xs, y :: ys) => under common (branch x (under xs (.value b)) y (under ys v))
    | (_, [], _ :: _) => .nil
  | .full _, [], b => .value b
  | .full cs, i :: key, b => .full (Function.update cs i ((cs i).insert key b))

/-! How keys part. -/
section Fork
variable {a b key key' : List ι}

theorem fork_append (common left right : List ι) (apart : left.head? ≠ right.head? ∨ right = []) :
    fork (common ++ left) (common ++ right) = (common, left, right) := by
  induction common with
  | nil =>
    cases left with
    | nil => rfl
    | cons x xs =>
      cases right with
      | nil => rfl
      | cons y ys =>
        have differ : x ≠ y := by
          rcases apart with heads | none
          · simpa using heads
          · cases none
        simp [fork, differ]
  | cons x common ih => simp [fork, ih]

theorem fork_spec (a b : List ι) :
    ∃ common left right, fork a b = (common, left, right) ∧ a = common ++ left ∧ b = common ++ right ∧
      (left = [] ∨ right = [] ∨ ∃ x xs y ys, left = x :: xs ∧ right = y :: ys ∧ x ≠ y) := by
  induction a generalizing b with
  | nil => exact ⟨[], [], b, by cases b <;> rfl, rfl, rfl, .inl rfl⟩
  | cons x xs ih =>
    cases b with
    | nil => exact ⟨[], x :: xs, [], rfl, rfl, rfl, .inr (.inl rfl)⟩
    | cons y ys =>
      by_cases same : x = y
      · subst same
        obtain ⟨common, left, right, forked, rfl, rfl, ends⟩ := ih ys
        exact ⟨x :: common, left, right, by simp [fork, forked], rfl, rfl, ends⟩
      · exact ⟨[], x :: xs, y :: ys, by simp [fork, same], rfl, rfl,
          .inr (.inr ⟨x, xs, y, ys, rfl, rfl, same⟩)⟩

end Fork

section Lookup
variable {k key rest : List ι} {v : Radix ι β} {b : β}

theorem get_short_append : (short k v).get (k ++ rest) = v.get rest := by
  have forked := fork_append k rest [] (.inr rfl)
  rw [append_nil] at forked
  simp only [get, forked]

theorem get_short_self : (short k v).get k = v.get [] := by
  have found : (short k v).get (k ++ []) = v.get [] := get_short_append
  rwa [append_nil] at found

theorem get_short_off (other : ¬k <+: key) : (short k v).get key = none := by
  obtain ⟨common, left, right, forked, rfl, rfl, -⟩ := fork_spec key k
  simp only [get, forked]
  cases right with
  | nil => exact absurd ⟨left, by rw [append_nil]⟩ other
  | cons y ys => rfl

theorem prefix_of_get (found : (short k v).get key = some b) : k <+: key := by
  by_contra other
  rw [get_short_off other] at found
  cases found

theorem get_short_append_append {l : List ι} :
    (short (k ++ l) v).get (k ++ rest) = (short l v).get rest := by
  by_cases starts : l <+: rest
  · obtain ⟨t, rfl⟩ := starts
    rw [← append_assoc, get_short_append, get_short_append]
  · rw [get_short_off starts, get_short_off]
    rwa [prefix_append_right_inj]

theorem get_branch (x y z : ι) (a c : Radix ι β) (zs : List ι) :
    (branch x a y c).get (z :: zs) = (if z = x then a else if z = y then c else .nil).get zs := rfl

theorem get_under (key other : List ι) (n : Radix ι β) :
    (under key n).get other = (short key n).get other := by
  cases key with
  | nil => exact (get_short_append (k := [])).symm
  | cons x xs => rfl

end Lookup

namespace Canonical
variable {mark : ι} {r s : Radix ι β} {cs : ι → Radix ι β} {k l key : List ι} {v w : Radix ι β}

theorem exists_entry (canonical : Canonical mark r) :
    ∃ key b, Terminated mark key ∧ r.get key = some b := by
  induction canonical with
  | @leaf key b ended =>
    exact ⟨key, b, ended, get_short_self⟩
  | @extension key cs some absent _ ih =>
    obtain ⟨rest, b, ended, found⟩ := ih
    exact ⟨key ++ rest, b, (terminated_append absent).mpr ended, get_short_append.trans found⟩
  | @full cs lower last forks ih =>
    obtain ⟨i, -, -, here, -⟩ := forks
    by_cases end_here : i = mark
    · subst end_here
      rcases last with none | ⟨b, held⟩
      · exact absurd none here
      · exact ⟨[i], b, terminated_cons.mpr (.inl ⟨rfl, rfl⟩), by simp only [get, held]⟩
    · obtain ⟨rest, b, ended, found⟩ := ih i end_here here
      exact ⟨i :: rest, b, terminated_cons.mpr (.inr ⟨end_here, ended⟩), found⟩

theorem exists_below (canonical : Canonical mark (.full cs)) {i : ι} (here : cs i ≠ .nil) :
    ∃ rest b, Terminated mark (i :: rest) ∧ (Radix.full cs).get (i :: rest) = some b := by
  cases canonical with
  | full lower last forks =>
    by_cases end_here : i = mark
    · subst end_here
      rcases last with none | ⟨b, held⟩
      · exact absurd none here
      · exact ⟨[], b, terminated_cons.mpr (.inl ⟨rfl, rfl⟩), by simp only [get, held]⟩
    · obtain ⟨rest, b, ended, found⟩ := (lower i end_here here).exists_entry
      exact ⟨rest, b, terminated_cons.mpr (.inr ⟨end_here, ended⟩), found⟩

theorem exists_apart (canonical : Canonical mark (.full cs)) (x : ι) :
    ∃ i rest b, i ≠ x ∧ Terminated mark (i :: rest) ∧ (Radix.full cs).get (i :: rest) = some b := by
  have forks : ∃ i j, i ≠ j ∧ cs i ≠ .nil ∧ cs j ≠ .nil := by
    cases canonical with
    | full _ _ forks => exact forks
  obtain ⟨i, j, differ, i_here, j_here⟩ := forks
  by_cases same : i = x
  · subst same
    obtain ⟨rest, b, entry⟩ := canonical.exists_below j_here
    exact ⟨j, rest, b, Ne.symm differ, entry⟩
  · obtain ⟨rest, b, entry⟩ := canonical.exists_below i_here
    exact ⟨i, rest, b, same, entry⟩

section

variable (first : Canonical mark (.short k v)) (second : Canonical mark (.short l w))
  (same : ∀ key, Terminated mark key → (short k v).get key = (short l w).get key)
include first second same

theorem short_key_eq (starts : k <+: l) : k = l := by
  obtain ⟨t, rfl⟩ := starts
  rcases first.short_cases with ⟨ended, -⟩ | ⟨-, absent, lower, cs, rfl⟩
  · rw [second.short_whole ended, append_nil]
  · cases t with
    | nil => rw [append_nil]
    | cons x t =>
      -- an entry that leaves the branch another way is not below the longer key
      obtain ⟨i, rest, b, differ, ended, found⟩ := lower.exists_apart x
      have entry : (short k (.full cs)).get (k ++ i :: rest) = some b := get_short_append.trans found
      rw [same _ ((terminated_append absent).mpr ended)] at entry
      have starts := (prefix_append_right_inj k).mp (prefix_of_get entry)
      exact absurd (cons_prefix_cons.mp starts).1.symm differ

theorem short_keys_eq
    : k = l := by
  obtain ⟨key, b, ended, found⟩ := first.exists_entry
  have other := found
  rw [same key ended] at other
  rcases List.prefix_or_prefix_of_prefix (prefix_of_get found) (prefix_of_get other) with le | ge
  · exact first.short_key_eq second same le
  · exact (second.short_key_eq first (fun key ended => (same key ended).symm) ge).symm

end

theorem full_apart_short (first : Canonical mark (.full cs)) (second : Canonical mark (.short k v))
    (same : ∀ key, Terminated mark key → (Radix.full cs).get key = (short k v).get key) : False := by
  cases k with
  | nil => exact second.short_ne_nil rfl
  | cons x k =>
    obtain ⟨i, rest, b, differ, ended, found⟩ := first.exists_apart x
    rw [same _ ended] at found
    exact differ (cons_prefix_cons.mp (prefix_of_get found)).1.symm

theorem ext (first : Canonical mark r) (second : Canonical mark s)
    (same : ∀ key, Terminated mark key → r.get key = s.get key) : r = s := by
  induction first generalizing s with
  | @leaf k b ended =>
    cases s with
    | nil => exact absurd rfl second.ne_nil
    | value c => exact absurd rfl (second.ne_value c)
    | full ds => exact (second.full_apart_short (.leaf ended) fun key ended => (same key ended).symm).elim
    | short l w =>
      obtain rfl := (Canonical.leaf ended).short_keys_eq second same
      rcases second.short_cases with ⟨-, c, rfl⟩ | ⟨-, absent, -⟩
      · have found := same k ended
        rw [get_short_self, get_short_self] at found
        cases found
        rfl
      · exact absurd ended.mem absent
  | @extension k cs some absent lower ih =>
    have first : Canonical mark (.short k (.full cs)) := .extension some absent lower
    cases s with
    | nil => exact absurd rfl second.ne_nil
    | value c => exact absurd rfl (second.ne_value c)
    | full ds => exact (second.full_apart_short first fun key ended => (same key ended).symm).elim
    | short l w =>
      obtain rfl := first.short_keys_eq second same
      rcases second.short_cases with ⟨ended, -⟩ | ⟨-, -, below, ds, rfl⟩
      · exact absurd ended.mem absent
      · rw [ih below]
        intro rest ended
        have found := same (k ++ rest) ((terminated_append absent).mpr ended)
        rwa [get_short_append, get_short_append] at found
  | @full cs lower last forks ih =>
    have first : Canonical mark (.full cs) := .full lower last forks
    cases s with
    | nil => exact absurd rfl second.ne_nil
    | value c => exact absurd rfl (second.ne_value c)
    | short l w => exact (first.full_apart_short second same).elim
    | full ds =>
      congr 1
      funext i
      -- both children are there or neither is
      have none_iff : cs i = .nil ↔ ds i = .nil := by
        constructor
        · intro none
          by_contra here
          obtain ⟨rest, b, ended, found⟩ := second.exists_below here
          rw [← same _ ended, get, none] at found
          cases found
        · intro none
          by_contra here
          obtain ⟨rest, b, ended, found⟩ := first.exists_below here
          rw [same _ ended, get, none] at found
          cases found
      by_cases none : cs i = .nil
      · rw [none, none_iff.mp none]
      by_cases end_here : i = mark
      · subst end_here
        cases second with
        | full _ last' _ =>
          obtain ⟨b, held⟩ := last.resolve_left none
          obtain ⟨c, held'⟩ := last'.resolve_left (none ∘ none_iff.mpr)
          have found := same [i] (terminated_cons.mpr (.inl ⟨rfl, rfl⟩))
          rw [get, get, held, held'] at found
          cases found
          rw [held, held']
      · cases second with
        | full lower' _ _ =>
          apply ih i end_here none (lower' i end_here (none ∘ none_iff.mpr))
          intro rest ended
          exact same (i :: rest) (terminated_cons.mpr (.inr ⟨end_here, ended⟩))

end Canonical

section Insert
variable {mark x y : ι} {r a c : Radix ι β} {common key xs ys : List ι} {v : Radix ι β} {b : β}

theorem canonical_branch (differ : x ≠ y) (first : Child mark x a) (second : Child mark y c) :
    Canonical mark (branch x a y c) := by
  have at_x : (if x = x then a else if x = y then c else .nil) = a := if_pos rfl
  have at_y : (if y = x then a else if y = y then c else .nil) = c := by
    rw [if_neg (Ne.symm differ), if_pos rfl]
  refine .full ?_ ?_ ⟨x, y, differ, ?_, ?_⟩
  · intro i other here
    by_cases at_first : i = x
    · subst at_first
      rw [at_x]
      exact first.2 other
    by_cases at_second : i = y
    · subst at_second
      rw [at_y]
      exact second.2 other
    · rw [if_neg at_first, if_neg at_second] at here
      exact absurd rfl here
  · by_cases at_first : mark = x
    · subst at_first
      rw [at_x]
      exact .inr (first.1 rfl)
    by_cases at_second : mark = y
    · subst at_second
      rw [at_y]
      exact .inr (second.1 rfl)
    · rw [if_neg at_first, if_neg at_second]
      exact .inl rfl
  · rw [at_x]
    exact first.ne_nil
  · rw [at_y]
    exact second.ne_nil

def Entered (mark : ι) (r : Radix ι β) (key : List ι) (b : β) (after : Radix ι β) : Prop :=
  ∀ other, Terminated mark other → after.get other = if other = key then some b else r.get other

theorem entered_leaf (ended : Terminated mark key) (b : β) :
    Entered mark .nil key b (.short key (.value b)) := by
  intro other other_ended
  by_cases same : other = key
  · subst same
    rw [if_pos rfl]
    exact get_short_self
  · rw [if_neg same]
    apply get_short_off
    intro starts
    exact same (ended.eq_of_prefix other_ended starts).symm

theorem entered_branch (differ : x ≠ y) (ended : Terminated mark (common ++ x :: xs))
    (absent : mark ∉ common) (b : β) :
    Entered mark (.short (common ++ y :: ys) v) (common ++ x :: xs) b
      (under common (branch x (under xs (.value b)) y (under ys v))) := by
  intro other other_ended
  rw [get_under]
  by_cases starts : common <+: other
  · obtain ⟨rest, rfl⟩ := starts
    have rest_ended := (terminated_append absent).mp other_ended
    rw [get_short_append, get_short_append_append]
    simp only [append_cancel_left_eq]
    cases rest with
    | nil => exact absurd rfl rest_ended.ne_nil
    | cons z zs =>
      rw [get_branch]
      by_cases first : z = x
      · subst first
        rw [if_pos rfl, get_under]
        have key_ended := (terminated_append absent).mp ended
        have elsewhere : (short (y :: ys) v).get (z :: zs) = none := by
          apply get_short_off
          intro starts
          exact differ (cons_prefix_cons.mp starts).1.symm
        rcases terminated_cons.mp key_ended with ⟨rfl, rfl⟩ | ⟨inner, key_ended⟩
        · rcases terminated_cons.mp rest_ended with ⟨-, rfl⟩ | ⟨inner, -⟩
          · rw [if_pos rfl]
            exact get_short_self
          · exact absurd rfl inner
        · rcases terminated_cons.mp rest_ended with ⟨here, -⟩ | ⟨-, rest_ended⟩
          · exact absurd here inner
          · rw [entered_leaf key_ended b zs rest_ended, elsewhere]
            simp only [List.cons.injEq, true_and]
            rfl
      · have other_key : z :: zs ≠ x :: xs := fun same => first (cons_eq_cons.mp same).1
        rw [if_neg first, if_neg other_key]
        by_cases second : z = y
        · subst second
          rw [if_pos rfl, get_under]
          exact (get_short_append_append (k := [z])).symm
        · rw [if_neg second, get, get_short_off]
          intro starts
          exact second (cons_prefix_cons.mp starts).1.symm
  · have other_key : other ≠ common ++ x :: xs := by
      rintro rfl
      exact starts (prefix_append _ _)
    rw [get_short_off starts, if_neg other_key, get_short_off]
    intro longer
    exact starts ((prefix_append _ _).trans longer)

theorem canonical_update {cs : ι → Radix ι β} (canonical : Canonical mark (.full cs))
    (child : Child mark x a) : Canonical mark (.full (Function.update cs x a)) := by
  cases canonical with
  | full lower last forks =>
    refine .full ?_ ?_ ?_
    · intro i other here
      by_cases at_x : i = x
      · subst at_x
        rw [update_self]
        exact child.2 other
      · rw [update_of_ne at_x] at here ⊢
        exact lower i other here
    · by_cases at_x : mark = x
      · subst at_x
        rw [update_self]
        exact .inr (child.1 rfl)
      · rw [update_of_ne at_x]
        exact last
    · have kept {i : ι} (here : cs i ≠ .nil) : Function.update cs x a i ≠ .nil := by
        by_cases at_x : i = x
        · subst at_x
          rw [update_self]
          exact child.ne_nil
        · rw [update_of_ne at_x]
          exact here
      obtain ⟨i, j, differ, i_here, j_here⟩ := forks
      exact ⟨i, j, differ, kept i_here, kept j_here⟩

theorem get_update {cs : ι → Radix ι β} {found : Option β}
    (each : ∀ t, Terminated mark (x :: t) → a.get t = if t = xs then found else (cs x).get t)
    (other : List ι) (ended : Terminated mark other) :
    (full (Function.update cs x a)).get other =
      if other = x :: xs then found else (full cs).get other := by
  cases other with
  | nil => exact absurd rfl ended.ne_nil
  | cons z zs =>
    simp only [get]
    by_cases at_x : z = x
    · subst at_x
      rw [update_self, each zs ended]
      simp only [List.cons.injEq, true_and]
    · rw [update_of_ne at_x, if_neg]
      intro same
      exact at_x (cons_eq_cons.mp same).1

theorem get_short_update {k : List ι} {found : Option β}
    (each : ∀ t, Terminated mark (k ++ t) → a.get t = if t = xs then found else v.get t)
    (other : List ι) (ended : Terminated mark other) :
    (short k a).get other = if other = k ++ xs then found else (short k v).get other := by
  by_cases starts : k <+: other
  · obtain ⟨t, rfl⟩ := starts
    rw [get_short_append, get_short_append, each t ended]
    simp only [append_cancel_left_eq]
  · have other_key : other ≠ k ++ xs := by
      rintro rfl
      exact starts (prefix_append _ _)
    rw [get_short_off starts, if_neg other_key, get_short_off starts]

theorem insert_spec (canonical : r = .nil ∨ Canonical mark r) (ended : Terminated mark key) (b : β) :
    Canonical mark (r.insert key b) ∧ Entered mark r key b (r.insert key b) := by
  induction r generalizing key with
  | nil =>
    have leaf : (nil : Radix ι β).insert key b = .short key (.value b) := by
      cases key with
      | nil => exact absurd rfl ended.ne_nil
      | cons x xs => rfl
    rw [leaf]
    exact ⟨.leaf ended, entered_leaf ended b⟩
  | value c =>
    rcases canonical with none | canonical
    · cases none
    · exact absurd rfl (canonical.ne_value c)
  | short k v ih =>
    have canonical := canonical.resolve_left (by rintro ⟨⟩)
    obtain ⟨common, left, right, forked, rfl, rfl, ends⟩ := fork_spec key k
    cases right with
    | nil =>
      simp only [insert, forked]
      rw [append_nil] at canonical ⊢
      rcases canonical.short_cases with ⟨whole, c, rfl⟩ | ⟨some, absent, below, cs, rfl⟩
      · -- the key is the one of the leaf
        have same := whole.eq_of_prefix ended (prefix_append _ _)
        have none : left = [] := by simpa using same.symm
        subst none
        refine ⟨.leaf whole, get_short_update fun t t_ended => ?_⟩
        have same := whole.eq_of_prefix t_ended (prefix_append _ _)
        have none : t = [] := by simpa using same.symm
        rw [if_pos none]
        rfl
      · obtain ⟨lower, entered⟩ := ih (.inr below) ((terminated_append absent).mp ended)
        refine ⟨?_, get_short_update fun t t_ended =>
          entered t ((terminated_append absent).mp t_ended)⟩
        cases left with
        | nil => exact absurd rfl ((terminated_append absent).mp ended).ne_nil
        | cons i left => exact .extension some absent lower
    | cons y ys =>
      rcases ends with rfl | ends | ⟨x, xs, y', ys', rfl, same, differ⟩
      · rw [append_nil] at ended
        exact absurd (canonical.short_whole ended) (cons_ne_nil y ys)
      · cases ends
      · obtain ⟨rfl, rfl⟩ := cons_eq_cons.mp same
        have absent : mark ∉ common := ended.not_mem_of_append (by simp)
        simp only [insert, forked]
        exact ⟨canonical_under absent (canonical_branch differ
            (child_of_key ((terminated_append absent).mp ended) b)
            (child_of_short canonical absent)),
          entered_branch differ ended absent b⟩
  | full cs ih =>
    have canonical := canonical.resolve_left (by rintro ⟨⟩)
    cases key with
    | nil => exact absurd rfl ended.ne_nil
    | cons i rest =>
      rcases terminated_cons.mp ended with ⟨rfl, rfl⟩ | ⟨inner, rest_ended⟩
      · have entered : (cs i).insert [] b = .value b := by
          cases canonical with
          | full _ last _ =>
            rcases last with none | ⟨c, held⟩
            · rw [none]
              rfl
            · rw [held]
              rfl
        simp only [insert, entered]
        refine ⟨canonical_update canonical ⟨fun _ => ⟨b, rfl⟩, fun other => absurd rfl other⟩,
          get_update fun t t_ended => ?_⟩
        rcases terminated_cons.mp t_ended with ⟨-, rfl⟩ | ⟨other, -⟩
        · rfl
        · exact absurd rfl other
      · have child : cs i = .nil ∨ Canonical mark (cs i) := by
          cases canonical with
          | full lower _ _ =>
            by_cases none : cs i = .nil
            · exact .inl none
            · exact .inr (lower i inner none)
        obtain ⟨lower, entered⟩ := ih i child rest_ended
        refine ⟨canonical_update canonical ⟨fun here => absurd here inner, fun _ => lower⟩,
          get_update fun t t_ended => ?_⟩
        rcases terminated_cons.mp t_ended with ⟨here, -⟩ | ⟨-, t_ended⟩
        · exact absurd here inner
        · exact entered t t_ended

end Insert

end Radix
