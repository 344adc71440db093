import Mathlib.Data.List.MinMax
import Mathlib.Data.List.Nodup
import Mathlib.Data.List.Perm.Basic

/-! Grouping a list by a key with counts, and choosing an element of highest
rank. Both are folds whose result may depend on the order of the list; the
results here say when it does. -/
namespace OrderedChoice
open List

section Tally
variable {α κ : Type*} [DecidableEq κ]

/-- Counts one more element under `k`; the first element under a key represents it. -/
def bump (k : κ) (x : α) : List (κ × α × ℕ) → List (κ × α × ℕ)
  | [] => [(k, x, 1)]
  | (k', y, n) :: m => if k' = k then (k', y, n + 1) :: m else (k', y, n) :: bump k x m

def tally (key : α → κ) (xs : List α) : List (κ × α × ℕ) :=
  xs.foldl (fun m x => bump (key x) x m) []

theorem keys_bump (k : κ) (x : α) (m : List (κ × α × ℕ)) :
    (bump k x m).map Prod.fst =
      if k ∈ m.map Prod.fst then m.map Prod.fst else m.map Prod.fst ++ [k] := by
  induction m with
  | nil => simp [bump]
  | cons e m ih =>
    obtain ⟨k', y, n⟩ := e
    by_cases same : k' = k
    · simp [bump, same]
    · have other : k ≠ k' := Ne.symm same
      rw [bump, if_neg same, map_cons, ih]
      by_cases inside : k ∈ m.map Prod.fst
      · simp [inside]
      · simp [inside, other]

theorem mem_bump {k k' : κ} {x y : α} {n : ℕ} {m : List (κ × α × ℕ)}
    (nodup : (m.map Prod.fst).Nodup) :
    (k', y, n) ∈ bump k x m ↔
      (k' ≠ k ∧ (k', y, n) ∈ m) ∨
        (k' = k ∧ ((∃ c, n = c + 1 ∧ (k, y, c) ∈ m) ∨ (k ∉ m.map Prod.fst ∧ y = x ∧ n = 1))) := by
  induction m with
  | nil => simp [bump]
  | cons e m ih =>
    obtain ⟨k₀, y₀, n₀⟩ := e
    rw [map_cons, nodup_cons] at nodup
    by_cases same : k₀ = k
    · subst same
      have absent (z : α) (c : ℕ) : (k₀, z, c) ∉ m := fun inside =>
        nodup.1 (mem_map.mpr ⟨_, inside, rfl⟩)
      by_cases here : k' = k₀
      · subst here
        simp [bump, absent]
        grind
      · simp [bump, here]
    · have step : bump k x ((k₀, y₀, n₀) :: m) = (k₀, y₀, n₀) :: bump k x m := by
        simp [bump, same]
      rw [step, mem_cons, ih nodup.2]
      simp only [mem_cons, map_cons, Prod.mk.injEq]
      grind

theorem tally_concat (key : α → κ) (xs : List α) (x : α) :
    tally key (xs ++ [x]) = bump (key x) x (tally key xs) := by
  simp [tally]

theorem tally_keys_nodup (key : α → κ) (xs : List α) : ((tally key xs).map Prod.fst).Nodup := by
  induction xs using List.reverseRecOn with
  | nil => simp [tally]
  | append_singleton xs x ih =>
    rw [tally_concat, keys_bump]
    split
    · exact ih
    · rename_i absent
      exact List.Nodup.append ih (by simp) (by simpa using absent)

theorem mem_tally {key : α → κ} {xs : List α} {k : κ} {y : α} {n : ℕ} :
    (k, y, n) ∈ tally key xs ↔
      (xs.filter (key · = k)).head? = some y ∧ n = (xs.filter (key · = k)).length := by
  induction xs using List.reverseRecOn generalizing k y n with
  | nil => simp [tally]
  | append_singleton xs x ih =>
    have inside (z : κ) : z ∈ (tally key xs).map Prod.fst ↔ xs.filter (key · = z) ≠ [] := by
      constructor
      · rintro member empty
        obtain ⟨⟨_, y', _⟩, entry, rfl⟩ := mem_map.mp member
        have first := (ih.mp entry).1
        rw [empty] at first
        cases first
      · intro nonempty
        obtain ⟨y', ys, split⟩ := exists_cons_of_ne_nil nonempty
        exact mem_map.mpr ⟨(z, y', _), ih.mpr ⟨by rw [split, head?_cons], rfl⟩, rfl⟩
    rw [tally_concat, mem_bump (tally_keys_nodup key xs), filter_append]
    by_cases same : k = key x
    · subst same
      simp only [inside, ih]
      cases xs.filter (key · = key x) with
      | nil => simp [eq_comm]
      | cons z zs => simp; grind
    · simp [same, ih, Ne.symm same]

theorem length_filter_replicate (key : α → κ) (n : ℕ) {xs : List α} (nodup : (xs.map key).Nodup)
    {x : α} (member : x ∈ xs) :
    ((xs.flatMap (List.replicate n)).filter (key · = key x)).length = n := by
  induction xs with
  | nil => cases member
  | cons y ys ih =>
    rw [map_cons, nodup_cons] at nodup
    rw [flatMap_cons, filter_append, length_append, filter_replicate]
    rcases mem_cons.mp member with rfl | later
    · have rest : (ys.flatMap (List.replicate n)).filter (key · = key x) = [] := by
        simp only [filter_eq_nil_iff, mem_flatMap, mem_replicate, decide_eq_true_eq]
        rintro z ⟨w, inside, -, rfl⟩ same
        exact nodup.1 (same ▸ mem_map_of_mem inside)
      simp [rest]
    · have other : key y ≠ key x := fun same => nodup.1 (same ▸ mem_map_of_mem later)
      simp [other, ih nodup.2 later]

end Tally

section Best
variable {α β γ : Type*} [LinearOrder β]

def IsBest (f : α → β) (l : List α) (a : α) : Prop := a ∈ l ∧ ∀ b ∈ l, f b ≤ f a

variable {f : α → β} {l : List α} {a : α}

theorem isBest_of_mem_argmax (h : a ∈ l.argmax f) :
    IsBest f l a := ⟨argmax_mem h, fun _ member => le_of_mem_argmax member h⟩

theorem exists_mem_argmax (nonempty : l ≠ []) : ∃ a, a ∈ l.argmax f := by
  cases h : l.argmax f with
  | none => exact absurd (argmax_eq_none.mp h) nonempty
  | some a => exact ⟨a, rfl⟩

theorem IsBest.perm {l' : List α} (h : IsBest f l a) (same : l.Perm l') :
    IsBest f l' a := ⟨same.mem_iff.mp h.1, fun b member => h.2 b (same.mem_iff.mpr member)⟩

theorem argmax_cons_of_isBest (h : IsBest f (a :: l) a) : (a :: l).argmax f = some a := by
  rw [argmax_cons]
  cases hl : l.argmax f with
  | none => rfl
  | some b =>
    have le := h.2 b (mem_cons_of_mem a (argmax_mem hl))
    simp [not_lt.mpr le]

/-- The choice is independent of the order, as far as `g` can see, exactly when
`g` does not separate elements of highest rank. -/
theorem argmax_perm_iff (f : α → β) (g : α → γ) (l : List α) :
    (∀ l₁ l₂ : List α, l₁.Perm l → l₂.Perm l → (l₁.argmax f).map g = (l₂.argmax f).map g) ↔
      ∀ a b, IsBest f l a → IsBest f l b → g a = g b := by
  constructor
  · intro same a b ha hb
    have chosen (c : α) (hc : IsBest f l c) : ∃ l' : List α, l'.Perm l ∧ l'.argmax f = some c := by
      obtain ⟨before, after, rfl⟩ := append_of_mem hc.1
      refine ⟨c :: (before ++ after), perm_middle.symm, ?_⟩
      exact argmax_cons_of_isBest (hc.perm perm_middle)
    obtain ⟨l₁, perm₁, first₁⟩ := chosen a ha
    obtain ⟨l₂, perm₂, first₂⟩ := chosen b hb
    simpa [first₁, first₂] using same l₁ l₂ perm₁ perm₂
  · intro unique l₁ l₂ perm₁ perm₂
    by_cases empty : l = []
    · subst empty
      rw [perm_nil.mp perm₁, perm_nil.mp perm₂]
    · have nonempty {l' : List α} (perm : l'.Perm l) : l' ≠ [] := by
        rintro rfl
        exact empty (nil_perm.mp perm)
      obtain ⟨a, ha⟩ := exists_mem_argmax (f := f) (nonempty perm₁)
      obtain ⟨b, hb⟩ := exists_mem_argmax (f := f) (nonempty perm₂)
      rw [Option.mem_def.mp ha, Option.mem_def.mp hb]
      simp [unique a b ((isBest_of_mem_argmax ha).perm perm₁) ((isBest_of_mem_argmax hb).perm perm₂)]

end Best

end OrderedChoice
