import Anduschain.BinaryHeap
import Anduschain.TxPoolRules
import Mathlib.Data.List.AList

/-! The lists of the transaction pool (core/tx_list.go): transactions of one account by nonce,
and all transactions in a heap by price. -/
namespace Anduschain
open ByteOrder BinaryHeap List

/-- The map, the nonce index and the cache of a `txSortedMap` in one, in the order of nonces. -/
structure TxSortedMap where
  items : List Transaction
  sorted : items.Pairwise fun x y => x.accountNonce < y.accountNonce

namespace TxSortedMap

def new : TxSortedMap := ⟨[], .nil⟩

def get (m : TxSortedMap) (nonce : UInt64) : Option Transaction :=
  m.items.find? (·.accountNonce == nonce)

def keep (m : TxSortedMap) (p : Transaction → Bool) : TxSortedMap :=
  ⟨m.items.filter p, m.sorted.filter p⟩

def put (m : TxSortedMap) (tx : Transaction) : TxSortedMap where
  items := m.items.filter (·.accountNonce < tx.accountNonce) ++
    tx :: m.items.filter (tx.accountNonce < ·.accountNonce)
  sorted := by
    refine pairwise_append.mpr ⟨m.sorted.filter _, ?_, ?_⟩
    · refine pairwise_cons.mpr ⟨?_, m.sorted.filter _⟩
      intro y member
      simpa using (mem_filter.mp member).2
    · intro x before y after
      have low : x.accountNonce < tx.accountNonce := by simpa using (mem_filter.mp before).2
      rcases mem_cons.mp after with rfl | above
      · exact low
      · have high : tx.accountNonce < y.accountNonce := by simpa using (mem_filter.mp above).2
        exact UInt64.lt_trans low high

def forward (m : TxSortedMap) (threshold : UInt64) : List Transaction × TxSortedMap :=
  (m.items.filter (·.accountNonce < threshold), m.keep fun tx => !(tx.accountNonce < threshold))

def filter (m : TxSortedMap) (p : Transaction → Bool) : List Transaction × TxSortedMap :=
  (m.items.filter p, m.keep fun tx => !p tx)

/-- `Cap`: what exceeds the limit is dropped from the highest nonce down. -/
def cap (m : TxSortedMap) (threshold : ℕ) : List Transaction × TxSortedMap :=
  ((m.items.drop threshold).reverse, ⟨m.items.take threshold, m.sorted.sublist (take_sublist ..)⟩)

def remove (m : TxSortedMap) (nonce : UInt64) : TxSortedMap := m.keep (·.accountNonce != nonce)

def consecutive : UInt64 → List Transaction → List Transaction
  | _, [] => []
  | next, tx :: rest => if tx.accountNonce = next then tx :: consecutive (next + 1) rest else []

/-- `Ready`: starts at the lowest nonce, also when that is below `start`. -/
def ready (m : TxSortedMap) (start : UInt64) : List Transaction × TxSortedMap :=
  match m.items.head? with
  | none => ([], m)
  | some first =>
    if start < first.accountNonce then ([], m)
    else
      let run := consecutive first.accountNonce m.items
      (run, ⟨m.items.drop run.length, m.sorted.sublist (drop_sublist ..)⟩)

def len (m : TxSortedMap) : ℕ := m.items.length

def Splits (m : TxSortedMap) (out : List Transaction × TxSortedMap) : Prop :=
  (out.1 ++ out.2.items).Perm m.items

theorem filter_splits (m : TxSortedMap) (p : Transaction → Bool) : m.Splits (m.filter p) :=
  filter_append_perm p m.items

theorem forward_splits (m : TxSortedMap) (threshold : UInt64) : m.Splits (m.forward threshold) := by
  unfold Splits forward keep
  exact filter_append_perm (fun tx => decide (tx.accountNonce < threshold)) m.items

theorem cap_splits (m : TxSortedMap) (threshold : ℕ) : m.Splits (m.cap threshold) := by
  have parts : ((m.items.drop threshold).reverse ++ m.items.take threshold).Perm
      (m.items.take threshold ++ m.items.drop threshold) :=
    ((reverse_perm _).append_right _).trans perm_append_comm
  rwa [take_append_drop] at parts

theorem consecutive_prefix (next : UInt64) (txs : List Transaction) :
    consecutive next txs <+: txs := by
  induction txs generalizing next with
  | nil => exact prefix_refl _
  | cons tx rest ih =>
    rw [consecutive]
    split
    · exact cons_prefix_cons.mpr ⟨rfl, ih _⟩
    · exact List.nil_prefix

theorem ready_splits (m : TxSortedMap) (start : UInt64) : m.Splits (m.ready start) := by
  unfold ready
  split
  · exact .refl _
  · split
    · exact .refl _
    · rename_i first _ _
      obtain ⟨rest, joined⟩ := consecutive_prefix first.accountNonce m.items
      have split : m.items.drop (consecutive first.accountNonce m.items).length = rest := by
        nth_rewrite 2 [← joined]
        exact drop_left
      simp only [Splits, split, joined]
      exact .refl _

variable {m : TxSortedMap} {x : Transaction} {nonce : UInt64}

theorem mem_put {tx : Transaction} :
    x ∈ (m.put tx).items ↔ x = tx ∨ x ∈ m.items ∧ x.accountNonce ≠ tx.accountNonce := by
  simp only [put, mem_append, mem_cons, mem_filter, decide_eq_true_eq]
  have split := @UInt64.lt_or_lt_of_ne x.accountNonce tx.accountNonce
  have low := @UInt64.ne_of_lt x.accountNonce tx.accountNonce
  have high := @UInt64.ne_of_lt tx.accountNonce x.accountNonce
  grind

theorem mem_remove : x ∈ (m.remove nonce).items ↔ x ∈ m.items ∧ x.accountNonce ≠ nonce := by
  simp [remove, keep]

theorem nodup (m : TxSortedMap) : m.items.Nodup := by
  refine m.sorted.imp ?_
  rintro x y below rfl
  exact UInt64.lt_irrefl _ below

theorem eq_of_nonce {y : Transaction} (hx : x ∈ m.items) (hy : y ∈ m.items)
    (nonce : x.accountNonce = y.accountNonce) : x = y := by
  obtain ⟨items, sorted⟩ := m
  induction items with
  | nil => cases hx
  | cons first rest ih =>
    obtain ⟨below, sorted⟩ := pairwise_cons.mp sorted
    rcases mem_cons.mp hx with firstX | restX
    · rcases mem_cons.mp hy with firstY | restY
      · rw [firstX, firstY]
      · rw [firstX] at nonce
        exact absurd nonce (UInt64.ne_of_lt (below y restY))
    · rcases mem_cons.mp hy with firstY | restY
      · rw [firstY] at nonce
        exact absurd nonce.symm (UInt64.ne_of_lt (below x restX))
      · exact ih sorted restX restY

theorem put_remove (m : TxSortedMap) (tx : Transaction) :
    (m.remove tx.accountNonce).put tx = m.put tx := by
  have below (x : Transaction) (lt : x.accountNonce < tx.accountNonce) :
      x.accountNonce ≠ tx.accountNonce := UInt64.ne_of_lt lt
  have above (x : Transaction) (lt : tx.accountNonce < x.accountNonce) :
      x.accountNonce ≠ tx.accountNonce := (UInt64.ne_of_lt lt).symm
  have low : (m.remove tx.accountNonce).items.filter (·.accountNonce < tx.accountNonce) =
      m.items.filter (·.accountNonce < tx.accountNonce) := by
    rw [remove, keep, filter_filter]
    apply filter_congr
    grind
  have high : (m.remove tx.accountNonce).items.filter (tx.accountNonce < ·.accountNonce) =
      m.items.filter (tx.accountNonce < ·.accountNonce) := by
    rw [remove, keep, filter_filter]
    apply filter_congr
    grind
  simp only [put, low, high]

theorem get_eq_none : m.get nonce = none ↔ ∀ x ∈ m.items, x.accountNonce ≠ nonce := by
  simp [get]

theorem get_eq_some (found : m.get nonce = some x) : x ∈ m.items ∧ x.accountNonce = nonce :=
  ⟨mem_of_find?_eq_some found, by simpa using find?_some found⟩

theorem get_of_mem (member : x ∈ m.items) : m.get x.accountNonce = some x := by
  cases found : m.get x.accountNonce with
  | none => exact absurd rfl (get_eq_none.mp found x member)
  | some y =>
    obtain ⟨inside, nonce⟩ := get_eq_some found
    rw [eq_of_nonce inside member nonce]

theorem get_splits (m : TxSortedMap) (nonce : UInt64) : m.Splits ((m.get nonce).toList, m.remove nonce) := by
  have kept := (m.remove nonce).nodup
  have apart : ((m.get nonce).toList ++ (m.remove nonce).items).Nodup := by
    cases found : m.get nonce with
    | none => exact kept
    | some tx =>
      refine nodup_cons.mpr ⟨?_, kept⟩
      exact fun left => (mem_remove.mp left).2 (get_eq_some found).2
  rw [Splits, perm_ext_iff_of_nodup apart m.nodup]
  intro x
  rw [mem_append, Option.mem_toList, mem_remove]
  constructor
  · rintro (found | left)
    · exact (get_eq_some found).1
    · exact left.1
  · intro inside
    by_cases same : x.accountNonce = nonce
    · left
      rw [← same]
      exact get_of_mem inside
    · exact .inr ⟨inside, same⟩

namespace Splits
variable {m : TxSortedMap} {out : List Transaction × TxSortedMap} {x : Transaction}

theorem mem_iff (splits : m.Splits out) : x ∈ m.items ↔ x ∈ out.1 ∨ x ∈ out.2.items := by
  rw [← List.Perm.mem_iff splits, mem_append]

theorem nodup (splits : m.Splits out) : out.1.Nodup :=
  ((List.Perm.nodup_iff splits).mpr m.nodup).of_append_left

theorem kept_iff (splits : m.Splits out) : x ∈ out.2.items ↔ x ∈ m.items ∧ x ∉ out.1 := by
  have apart := (nodup_append'.mp ((List.Perm.nodup_iff splits).mpr m.nodup)).2.2
  rw [splits.mem_iff]
  constructor
  · intro kept
    exact ⟨.inr kept, fun taken => apart taken kept⟩
  · rintro ⟨taken | kept, absent⟩
    · exact absurd taken absent
    · exact kept

theorem nonce_ne {y : Transaction} (splits : m.Splits out) (kept : x ∈ out.2.items)
    (taken : y ∈ out.1) : x.accountNonce ≠ y.accountNonce := by
  obtain ⟨inside, absent⟩ := splits.kept_iff.mp kept
  intro same
  exact absent (eq_of_nonce inside (splits.mem_iff.mpr (.inl taken)) same ▸ taken)

end Splits

end TxSortedMap

structure TxList where
  strict : Bool
  txs : TxSortedMap
  costcap : ℤ
  gascap : UInt64

namespace TxList

def new (strict : Bool) : TxList where
  strict
  txs := .new
  costcap := 0
  gascap := 0

def overlaps (l : TxList) (tx : Transaction) : Bool := (l.txs.get tx.accountNonce).isSome

def bumped (old : Transaction) (priceBump : UInt64) : ℤ :=
  old.price * (100 + priceBump.toInt64).toInt / 100

/-- `Add`: nothing when an older transaction is better, else the one that was replaced. -/
def add (l : TxList) (tx : Transaction) (priceBump : UInt64) : Option (Option Transaction × TxList) :=
  let old := l.txs.get tx.accountNonce
  if old.any fun old => tx.price ≤ old.price || (tx.price : ℤ) < bumped old priceBump then none
  else some (old, { l with
    txs := l.txs.put tx
    costcap := max l.costcap tx.cost
    gascap := max l.gascap tx.gasLimit })

def withTxs (l : TxList) (out : List Transaction × TxSortedMap) : List Transaction × TxList :=
  (out.1, { l with txs := out.2 })

def forward (l : TxList) (threshold : UInt64) : List Transaction × TxList :=
  l.withTxs (l.txs.forward threshold)

def cap (l : TxList) (threshold : ℕ) : List Transaction × TxList := l.withTxs (l.txs.cap threshold)

def ready (l : TxList) (start : UInt64) : List Transaction × TxList := l.withTxs (l.txs.ready start)

/-- What a strict list loses when a transaction of nonce `lowest` is gone. -/
def invalidate (l : TxList) (lowest : UInt64) : List Transaction × TxList :=
  if l.strict then l.withTxs (l.txs.filter fun tx => lowest < tx.accountNonce) else ([], l)

def lowestNonce (txs : List Transaction) : UInt64 :=
  txs.foldl (fun lowest tx => min lowest tx.accountNonce) 0xffffffffffffffff

/-- `Filter`: what costs too much, what a strict list loses with it, and the list that remains. -/
def filter (l : TxList) (costLimit : ℤ) (gasLimit : UInt64) :
    List Transaction × List Transaction × TxList :=
  if l.costcap ≤ costLimit && l.gascap ≤ gasLimit then ([], [], l)
  else
    let capped := { l with costcap := costLimit, gascap := gasLimit }
    let (removed, kept) :=
      capped.withTxs (l.txs.filter fun tx => costLimit < tx.cost || gasLimit < tx.gasLimit)
    if removed.isEmpty then (removed, [], kept) else (removed, kept.invalidate (lowestNonce removed))

/-- `Remove`: nothing when no transaction has the nonce, else those a strict list loses with it. -/
def remove (l : TxList) (tx : Transaction) : Option (List Transaction × TxList) :=
  if l.overlaps tx then
    some ({ l with txs := l.txs.remove tx.accountNonce }.invalidate tx.accountNonce)
  else none

def len (l : TxList) : ℕ := l.txs.len

def empty (l : TxList) : Bool := l.len == 0

def flatten (l : TxList) : List Transaction := l.txs.items

theorem forward_splits (l : TxList) (threshold : UInt64) :
    l.txs.Splits ((l.forward threshold).1, (l.forward threshold).2.txs) := l.txs.forward_splits threshold

theorem cap_splits (l : TxList) (threshold : ℕ) :
    l.txs.Splits ((l.cap threshold).1, (l.cap threshold).2.txs) := l.txs.cap_splits threshold

theorem ready_splits (l : TxList) (start : UInt64) :
    l.txs.Splits ((l.ready start).1, (l.ready start).2.txs) := l.txs.ready_splits start

variable {l kept : TxList} {tx : Transaction} {invalids : List Transaction}

theorem add_eq_some {l' : TxList} {priceBump : UInt64} {old : Option Transaction}
    (added : l.add tx priceBump = some (old, l')) :
    old = l.txs.get tx.accountNonce ∧ l'.txs = l.txs.put tx ∧ l'.strict = l.strict := by
  obtain ⟨-, same⟩ := Option.ite_none_left_eq_some.mp added
  cases same
  exact ⟨rfl, rfl, rfl⟩

theorem add_of_get_eq_none (priceBump : UInt64)
    (free : l.txs.get tx.accountNonce = none) : ∃ l', l.add tx priceBump = some (none, l') := by
  unfold add
  rw [free]
  exact ⟨_, rfl⟩

theorem invalidate_splits (l : TxList) (lowest : UInt64) :
    l.txs.Splits ((l.invalidate lowest).1, (l.invalidate lowest).2.txs) := by
  unfold invalidate
  split
  · exact TxSortedMap.filter_splits ..
  · exact .refl _

theorem invalidate_strict (l : TxList) (lowest : UInt64) :
    (l.invalidate lowest).2.strict = l.strict ∧ (l.strict = false → (l.invalidate lowest).1 = []) := by
  cases strict : l.strict with
  | false => simp [invalidate, strict]
  | true => simp [invalidate, strict, withTxs]

variable {costLimit : ℤ} {gasLimit : UInt64} {removed : List Transaction}

theorem invalidate_max (l : TxList) : l.invalidate 0xffffffffffffffff = ([], l) := by
  have none (x : Transaction) : ¬0xffffffffffffffff < x.accountNonce := by
    have := x.accountNonce.toNat_lt
    simp only [UInt64.lt_iff_toNat_lt, UInt64.reduceToNat]
    omega
  simp [invalidate, withTxs, TxSortedMap.filter, TxSortedMap.keep, none]

theorem filter_cases (filtered : l.filter costLimit gasLimit = (removed, invalids, kept)) :
    (removed = [] ∧ invalids = [] ∧ kept = l ∧ l.costcap ≤ costLimit ∧ l.gascap ≤ gasLimit) ∨
    ∃ mid : TxList, mid.invalidate (lowestNonce removed) = (invalids, kept) ∧ mid.strict = l.strict ∧
      mid.costcap = costLimit ∧ mid.gascap = gasLimit ∧
      l.txs.filter (fun tx => costLimit < tx.cost || gasLimit < tx.gasLimit) = (removed, mid.txs) := by
  unfold filter at filtered
  split at filtered
  · rename_i below
    cases filtered
    exact .inl ⟨rfl, rfl, rfl, by simpa using below⟩
  · generalize l.txs.filter _ = out at filtered
    let mid := { l with txs := out.2, costcap := costLimit, gascap := gasLimit }
    refine .inr ⟨mid, ?_⟩
    by_cases none : out.1 = []
    · simp only [withTxs, none, isEmpty_nil, if_true] at filtered
      cases filtered
      exact ⟨invalidate_max mid, rfl, rfl, rfl, by rw [← none]⟩
    · simp only [withTxs, List.isEmpty_iff, none, if_false] at filtered
      obtain ⟨rfl, rest⟩ := Prod.mk.inj filtered
      exact ⟨rest, rfl, rfl, rfl, rfl⟩

theorem filter_spec (filtered : l.filter costLimit gasLimit = (removed, invalids, kept)) :
    (removed ++ (invalids ++ kept.flatten)).Perm l.flatten ∧ kept.strict = l.strict ∧
      (l.strict = false → invalids = []) := by
  obtain ⟨rfl, rfl, rfl, -⟩ | ⟨mid, rest, strict, -, -, taken⟩ := filter_cases filtered
  · exact ⟨.refl _, rfl, fun _ => rfl⟩
  · have first := l.txs.filter_splits fun tx => costLimit < tx.cost || gasLimit < tx.gasLimit
    have parts := mid.invalidate_splits (lowestNonce removed)
    have lax := mid.invalidate_strict (lowestNonce removed)
    rw [taken] at first
    rw [rest] at parts lax
    exact ⟨(parts.append_left _).trans first, strict ▸ lax⟩

theorem remove_eq_some (removed : l.remove tx = some (invalids, kept))
    (only : ∀ x ∈ l.txs.items, x.accountNonce = tx.accountNonce → x = tx) :
    l.txs.Splits (tx :: invalids, kept.txs) ∧ kept.strict = l.strict ∧
      (l.strict = false → invalids = []) := by
  obtain ⟨overlaps, same⟩ := Option.ite_none_right_eq_some.mp removed
  obtain ⟨x, found⟩ := Option.isSome_iff_exists.mp overlaps
  obtain ⟨member, nonce⟩ := TxSortedMap.get_eq_some found
  obtain rfl := only x member nonce
  have parts := invalidate_splits { l with txs := l.txs.remove x.accountNonce } x.accountNonce
  have lax := invalidate_strict { l with txs := l.txs.remove x.accountNonce } x.accountNonce
  have first := l.txs.get_splits x.accountNonce
  rw [found] at first
  rw [Option.some.inj same] at parts lax
  exact ⟨(parts.cons x).trans first, lax⟩

theorem remove_eq_none (absent : l.remove tx = none) :
    ∀ x ∈ l.flatten, x.accountNonce ≠ tx.accountNonce := by
  rw [remove, ite_eq_right_iff] at absent
  have none : l.txs.get tx.accountNonce = none := by
    rw [← Option.not_isSome_iff_eq_none]
    exact fun overlaps => nomatch absent overlaps
  exact TxSortedMap.get_eq_none.mp none

end TxList

/-- `priceHeap.Less`: the cheaper one first, and of one price the one with the higher nonce. -/
def priceLess (x y : Transaction) : Bool :=
  x.price < y.price || (x.price == y.price && y.accountNonce < x.accountNonce)

instance : StrictWeak priceLess where
  asymm := by
    intro x y before
    simp only [priceLess, Bool.or_eq_true, Bool.and_eq_true, decide_eq_true_eq, beq_iff_eq,
      UInt64.lt_iff_toNat_lt, Bool.or_eq_false_iff, Bool.and_eq_false_iff, decide_eq_false_iff_not,
      beq_eq_false_iff_ne] at before ⊢
    omega
  negTrans := by
    intro x y z upper lower
    simp only [priceLess, UInt64.lt_iff_toNat_lt, Bool.or_eq_false_iff, Bool.and_eq_false_iff,
      decide_eq_false_iff_not, beq_eq_false_iff_ne] at upper lower ⊢
    omega

theorem price_le_of_priceLess {x y : Transaction} (first : priceLess y x = false) : x.price ≤ y.price := by
  simp only [priceLess, Bool.or_eq_false_iff, decide_eq_false_iff_not] at first
  omega

abbrev TxLookup := AList fun _ : Hash => Transaction

structure TxPricedList where
  items : Heap priceLess
  stales : ℤ

namespace TxPricedList

def new : TxPricedList := ⟨.empty, 0⟩

def put (l : TxPricedList) (tx : Transaction) : TxPricedList := { l with items := l.items.push tx }

/-- `Removed`, with the transactions left in the order in which `Range` visits them. -/
def removed (l : TxPricedList) (all : List Transaction) : TxPricedList :=
  if l.stales + 1 ≤ (l.items.toList.length / 4 : ℕ) then { l with stales := l.stales + 1 }
  else ⟨.ofList all, 0⟩

theorem mem_removed {l : TxPricedList} {all : List Transaction} {y : Transaction}
    (known : y ∈ l.items.toList) (left : y ∈ all) : y ∈ (l.removed all).items.toList := by
  unfold removed
  split
  · exact known
  · exact Heap.mem_ofList.mpr left

/-- A heap on the way through `Cap` or `Discard`, with what is to be dropped and what is to be
kept. -/
structure Sweep where
  items : Heap priceLess
  stales : ℤ
  drop : List Transaction
  save : List Transaction

section Sweep
variable (live isLocal : Transaction → Bool) (full : ℕ → Bool) (reached : Transaction → Bool)

/-- The loop of `Cap` and `Discard`: ends when enough is dropped, or at the first live transaction
at the limit. -/
def sweep : ℕ → Sweep → Sweep
  | 0, s => s
  | turns + 1, s =>
    if full s.drop.length then s
    else
      match s.items.pop with
      | none => s
      | some (tx, items) =>
        if !live tx then sweep turns { s with items, stales := s.stales - 1 }
        else if reached tx then { s with items, save := s.save ++ [tx] }
        else if isLocal tx then sweep turns { s with items, save := s.save ++ [tx] }
        else sweep turns { s with items, drop := s.drop ++ [tx] }

def swept (l : TxPricedList) : List Transaction × TxPricedList :=
  let s := sweep live isLocal full reached l.items.toList.length ⟨l.items, l.stales, [], []⟩
  (s.drop, ⟨s.save.foldl Heap.push s.items, s.stales⟩)

end Sweep

def cap (live isLocal : Transaction → Bool) (threshold : ℤ) (l : TxPricedList) :
    List Transaction × TxPricedList :=
  swept live isLocal (fun _ => false) (fun tx => threshold ≤ tx.price) l

def discard (live isLocal : Transaction → Bool) (count : ℤ) (l : TxPricedList) :
    List Transaction × TxPricedList :=
  swept live isLocal (fun dropped => count - dropped ≤ 0) (fun _ => false) l

def freshen (live : Transaction → Bool) : ℕ → TxPricedList → TxPricedList
  | 0, l => l
  | turns + 1, l =>
    match l.items.pop with
    | none => l
    | some (head, items) =>
      if live head then l else freshen live turns { l with items, stales := l.stales - 1 }

/-- `Underpriced`; stale transactions leave the heap also when the answer is no. -/
def underpriced (live isLocal : Transaction → Bool) (tx : Transaction) (l : TxPricedList) :
    Bool × TxPricedList :=
  if isLocal tx then (false, l)
  else
    let l := freshen live l.items.toList.length l
    (l.items.items[0]?.any fun cheapest => tx.price ≤ cheapest.price, l)

section Swept
variable {live isLocal : Transaction → Bool} {full : ℕ → Bool} {reached : Transaction → Bool}
  {y : Transaction}

theorem mem_foldl_push {save : List Transaction} {h : Heap priceLess} :
    y ∈ (save.foldl Heap.push h).toList ↔ y ∈ save ∨ y ∈ h.toList := by
  induction save generalizing h with
  | nil => simp
  | cons tx rest ih =>
    rw [foldl_cons, ih, Heap.mem_push, mem_cons]
    tauto

variable {s : Sweep} {turns : ℕ} {l : TxPricedList}

theorem sweep_keeps {P : Sweep → Prop} (turns : ℕ) (start : P s)
    (stale : ∀ s tx items, s.items.pop = some (tx, items) → live tx = false → P s →
      P { s with items, stales := s.stales - 1 })
    (saved : ∀ s tx items, s.items.pop = some (tx, items) → P s →
      P { s with items, save := s.save ++ [tx] })
    (dropped : ∀ s tx items, s.items.pop = some (tx, items) →
      live tx = true ∧ reached tx = false ∧ isLocal tx = false → P s →
      P { s with items, drop := s.drop ++ [tx] }) :
    P (sweep live isLocal full reached turns s) := by
  induction turns generalizing s with
  | zero => exact start
  | succ turns ih =>
    rw [sweep]
    split
    · exact start
    · cases popped : s.items.pop with
      | none => exact start
      | some out =>
        obtain ⟨tx, items⟩ := out
        dsimp only
        split
        · rename_i old
          exact ih (stale s tx items popped (by simpa using old) start)
        · split
          · exact saved s tx items popped start
          · split
            · exact ih (saved s tx items popped start)
            · exact ih (dropped s tx items popped (by simp_all) start)

theorem mem_of_pop {h items : Heap priceLess} {tx : Transaction} (popped : h.pop = some (tx, items)) :
    y ∈ h.toList ↔ y = tx ∨ y ∈ items.toList := by
  rw [(Heap.pop_eq_some popped).1.mem_iff, mem_cons]

theorem mem_sweep (alive : live y = true) (inside : y ∈ s.items.toList ∨ y ∈ s.drop ∨ y ∈ s.save) :
    y ∈ (sweep live isLocal full reached turns s).items.toList ∨
      y ∈ (sweep live isLocal full reached turns s).drop ∨
      y ∈ (sweep live isLocal full reached turns s).save := by
  refine sweep_keeps (P := fun s => y ∈ s.items.toList ∨ y ∈ s.drop ∨ y ∈ s.save) turns inside
    ?_ ?_ ?_
  · intro s tx items popped stale inside
    rw [mem_of_pop popped] at inside
    rcases inside with (rfl | rest) | other
    · rw [alive] at stale
      cases stale
    · exact .inl rest
    · exact .inr other
  · intro s tx items popped inside
    rw [mem_of_pop popped] at inside
    simp only [mem_append, mem_singleton]
    tauto
  · intro s tx items popped _ inside
    rw [mem_of_pop popped] at inside
    simp only [mem_append, mem_singleton]
    tauto

theorem drop_sweep (none : s.drop = []) :
    ∀ y ∈ (sweep live isLocal full reached turns s).drop,
      y ∈ s.items.toList ∧ live y = true ∧ reached y = false ∧ isLocal y = false := by
  suffices kept : (∀ y ∈ (sweep live isLocal full reached turns s).items.toList, y ∈ s.items.toList) ∧
      ∀ y ∈ (sweep live isLocal full reached turns s).drop,
        y ∈ s.items.toList ∧ live y = true ∧ reached y = false ∧ isLocal y = false from kept.2
  refine sweep_keeps (P := fun t => (∀ y ∈ t.items.toList, y ∈ s.items.toList) ∧ ∀ y ∈ t.drop,
      y ∈ s.items.toList ∧ live y = true ∧ reached y = false ∧ isLocal y = false)
    turns ⟨fun _ => id, by simp [none]⟩ ?_ ?_ ?_
  · rintro t tx items popped - ⟨sub, old⟩
    exact ⟨fun y member => sub y ((mem_of_pop popped).mpr (.inr member)), old⟩
  · rintro t tx items popped ⟨sub, old⟩
    exact ⟨fun y member => sub y ((mem_of_pop popped).mpr (.inr member)), old⟩
  · rintro t tx items popped due ⟨sub, old⟩
    refine ⟨fun y member => sub y ((mem_of_pop popped).mpr (.inr member)), ?_⟩
    intro y member
    rcases mem_append.mp member with before | new
    · exact old y before
    · rw [mem_singleton.mp new]
      exact ⟨sub tx ((mem_of_pop popped).mpr (.inl rfl)), due⟩

theorem drop_subset_sweep (dropped : y ∈ s.drop) :
    y ∈ (sweep live isLocal full reached turns s).drop :=
  sweep_keeps (P := fun t => y ∈ t.drop) turns dropped (fun _ _ _ _ _ => id) (fun _ _ _ _ => id)
    (fun _ _ _ _ _ => mem_append_left _)

theorem sweep_complete (enough : s.items.toList.length ≤ turns)
    (upward : ∀ x z, priceLess z x = false → reached x = true → reached z = true)
    (member : y ∈ s.items.toList) (alive : live y = true) (below : reached y = false)
    (remote : isLocal y = false) :
    y ∈ (sweep live isLocal (fun _ => false) reached turns s).drop := by
  induction turns generalizing s with
  | zero =>
    rw [length_eq_zero_iff.mp (Nat.le_zero.mp enough)] at member
    cases member
  | succ turns ih =>
    rw [sweep, if_neg Bool.false_ne_true]
    cases popped : s.items.pop with
    | none =>
      rw [Heap.pop_eq_none popped] at member
      cases member
    | some out =>
      obtain ⟨tx, items⟩ := out
      obtain ⟨perm, least⟩ := Heap.pop_eq_some popped
      have shorter : items.toList.length ≤ turns := by
        have := perm.length_eq
        rw [length_cons] at this
        omega
      have rest (other : y ≠ tx) : y ∈ items.toList :=
        ((mem_of_pop popped).mp member).resolve_left other
      dsimp only
      split
      · rename_i stale
        refine ih shorter (rest ?_)
        rintro rfl
        simp [alive] at stale
      · split
        · rename_i high
          rw [upward tx y (least y member) high] at below
          cases below
        · split
          · rename_i isLocal
            refine ih shorter (rest ?_)
            rintro rfl
            simp [remote] at isLocal
          · by_cases same : y = tx
            · rw [same]
              exact drop_subset_sweep (mem_append_right _ mem_cons_self)
            · exact ih shorter (rest same)

theorem mem_swept (alive : live y = true) (member : y ∈ l.items.toList) :
    y ∈ (swept live isLocal full reached l).2.items.toList ∨
      y ∈ (swept live isLocal full reached l).1 := by
  simp only [swept, mem_foldl_push]
  generalize start : (⟨l.items, l.stales, [], []⟩ : Sweep) = s
  have inside : y ∈ s.items.toList ∨ y ∈ s.drop ∨ y ∈ s.save := by
    rw [← start]
    exact .inl member
  rcases mem_sweep alive inside with kept | dropped | saved
  · exact .inl (.inr kept)
  · exact .inr dropped
  · exact .inl (.inl saved)

theorem mem_freshen (alive : live y = true)
    (member : y ∈ l.items.toList) : y ∈ (freshen live turns l).items.toList := by
  induction turns generalizing l with
  | zero => exact member
  | succ turns ih =>
    rw [freshen]
    cases popped : l.items.pop with
    | none => exact member
    | some out =>
      obtain ⟨head, items⟩ := out
      dsimp only
      split
      · exact member
      · rename_i stale
        rcases (mem_of_pop popped).mp member with rfl | rest
        · exact absurd alive stale
        · exact ih rest

theorem mem_underpriced {tx : Transaction} (alive : live y = true)
    (member : y ∈ l.items.toList) : y ∈ (underpriced live isLocal tx l).2.items.toList := by
  unfold underpriced
  split
  · exact member
  · exact mem_freshen alive member

end Swept

end TxPricedList

end Anduschain
