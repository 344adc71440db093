import Anduschain.TxList
import Mathlib.Data.List.Chain

/-! The caps of an account's list, which let `Filter` return at once: every operation keeps
them above what is on the list. -/
namespace Anduschain
open ByteOrder

def Transaction.Within (tx : Transaction) (costLimit : ℤ) (gasLimit : UInt64) : Prop :=
  (tx.cost : ℤ) ≤ costLimit ∧ tx.gasLimit ≤ gasLimit

theorem Transaction.within_iff {tx : Transaction} {costLimit : ℤ} {gasLimit : UInt64} :
    tx.Within costLimit gasLimit ↔
      (decide (costLimit < tx.cost) || decide (gasLimit < tx.gasLimit)) = false := by
  simp [Within]

namespace TxList
variable {l kept : TxList} {tx : Transaction}

def Capped (l : TxList) : Prop := ∀ x ∈ l.flatten, x.Within l.costcap l.gascap

theorem Capped.new (strict : Bool) : (TxList.new strict).Capped := by
  intro x member
  cases member

theorem Capped.withTxs (capped : l.Capped) {out : List Transaction × TxSortedMap}
    (splits : l.txs.Splits out) : (l.withTxs out).2.Capped :=
  fun x member => capped x (splits.mem_iff.mpr (.inr member))

theorem le_max_gas (a b : UInt64) : a ≤ max a b ∧ b ≤ max a b := by
  have unfolded : max a b = if a ≤ b then b else a := rfl
  rw [unfolded]
  split
  · exact ⟨‹_›, UInt64.le_refl _⟩
  · rename_i above
    simp only [UInt64.le_iff_toNat_le] at above ⊢
    omega

theorem Capped.add (capped : l.Capped) {priceBump : UInt64} {old : Option Transaction}
    (added : l.add tx priceBump = some (old, kept)) : kept.Capped := by
  obtain ⟨-, same⟩ := Option.ite_none_left_eq_some.mp added
  cases same
  intro x member
  rcases TxSortedMap.mem_put.mp member with rfl | ⟨inside, -⟩
  · exact ⟨Int.le_max_right .., (le_max_gas ..).2⟩
  · obtain ⟨cost, gas⟩ := capped x inside
    exact ⟨Int.le_trans cost (Int.le_max_left ..), UInt64.le_trans gas (le_max_gas ..).1⟩

theorem mem_invalidate {lowest : UInt64} {x : Transaction}
    (inside : x ∈ (l.invalidate lowest).2.flatten) : x ∈ l.flatten :=
  (invalidate_splits l lowest).mem_iff.mpr (.inr inside)

theorem invalidate_caps (l : TxList) (lowest : UInt64) :
    (l.invalidate lowest).2.costcap = l.costcap ∧ (l.invalidate lowest).2.gascap = l.gascap := by
  unfold invalidate
  split <;> exact ⟨rfl, rfl⟩

theorem Capped.invalidate (capped : l.Capped) (lowest : UInt64) : (l.invalidate lowest).2.Capped := by
  intro x member
  rw [(invalidate_caps l lowest).1, (invalidate_caps l lowest).2]
  exact capped x (mem_invalidate member)

theorem Capped.remove (capped : l.Capped) {invalids : List Transaction}
    (removed : l.remove tx = some (invalids, kept)) : kept.Capped := by
  obtain ⟨-, same⟩ := Option.ite_none_right_eq_some.mp removed
  have fewer : Capped { l with txs := l.txs.remove tx.accountNonce } :=
    fun x member => capped x (TxSortedMap.mem_remove.mp member).1
  have invalid := fewer.invalidate tx.accountNonce
  rwa [Option.some.inj same] at invalid

theorem Capped.filter {costLimit : ℤ} {gasLimit : UInt64} {removed invalids : List Transaction}
    (capped : l.Capped) (filtered : l.filter costLimit gasLimit = (removed, invalids, kept)) :
    kept.Capped ∧ ∀ x ∈ kept.flatten, x.Within costLimit gasLimit := by
  obtain ⟨-, -, rfl, cost, gas⟩ | ⟨mid, rest, -, rfl, rfl, taken⟩ := filter_cases filtered
  · exact ⟨capped, fun x member =>
      ⟨Int.le_trans (capped x member).1 cost, UInt64.le_trans (capped x member).2 gas⟩⟩
  · have fits : mid.Capped := by
      intro x member
      rw [flatten, ← (Prod.mk.inj taken).2] at member
      rw [Transaction.within_iff]
      simpa using (List.mem_filter.mp member).2
    have invalid := fits.invalidate (lowestNonce removed)
    obtain ⟨cost, gas⟩ := mid.invalidate_caps (lowestNonce removed)
    rw [rest] at invalid cost gas
    exact ⟨invalid, cost ▸ gas ▸ invalid⟩

inductive Op where
  | add (tx : Transaction) (priceBump : UInt64)
  | forward (threshold : UInt64)
  | filter (costLimit : ℤ) (gasLimit : UInt64)
  | cap (threshold : ℕ)
  | remove (tx : Transaction)
  | ready (start : UInt64)

def perform (l : TxList) : Op → TxList
  | .add tx priceBump => ((l.add tx priceBump).map Prod.snd).getD l
  | .forward threshold => (l.forward threshold).2
  | .filter costLimit gasLimit => (l.filter costLimit gasLimit).2.2
  | .cap threshold => (l.cap threshold).2
  | .remove tx => ((l.remove tx).map Prod.snd).getD l
  | .ready start => (l.ready start).2

theorem Capped.perform (capped : l.Capped) (op : Op) : (l.perform op).Capped := by
  cases op with
  | add tx priceBump =>
    cases added : l.add tx priceBump with
    | none => simpa [TxList.perform, added] using capped
    | some out => simpa [TxList.perform, added] using capped.add added
  | forward threshold => exact capped.withTxs (l.txs.forward_splits threshold)
  | filter costLimit gasLimit => exact (capped.filter rfl).1
  | cap threshold => exact capped.withTxs (l.txs.cap_splits threshold)
  | remove tx =>
    cases removed : l.remove tx with
    | none => simpa [TxList.perform, removed] using capped
    | some out => simpa [TxList.perform, removed] using capped.remove removed
  | ready start => exact capped.withTxs (l.txs.ready_splits start)

theorem Capped.performAll (capped : l.Capped) (ops : List Op) : (ops.foldl TxList.perform l).Capped := by
  induction ops generalizing l with
  | nil => exact capped
  | cons op rest ih => exact ih (capped.perform op)

def Contiguous (txs : List Transaction) : Prop :=
  txs.IsChain fun x y => y.accountNonce.toNat = x.accountNonce.toNat + 1

/-- What is kept is the front of the list, without a gap, and what is taken out is the rest. -/
def CutsTail (l : TxList) (out : List Transaction) (kept : TxList) : Prop :=
  Contiguous kept.flatten ∧ ∃ rest, l.flatten = kept.flatten ++ rest ∧ rest.Perm out

theorem cutsTail_of_below {out : List Transaction} (contiguous : Contiguous l.flatten)
    (splits : l.txs.Splits (out, kept.txs))
    (below : ∀ x ∈ kept.flatten, ∀ y ∈ out, x.accountNonce < y.accountNonce) : l.CutsTail out kept := by
  have tail : (l.flatten.filter (· ∈ out)).Perm out := by
    refine (List.perm_ext_iff_of_nodup (l.txs.nodup.filter _) splits.nodup).mpr fun y => ?_
    simpa [flatten] using fun taken => splits.mem_iff.mpr (.inl taken)
  have joined : l.flatten = kept.flatten ++ l.flatten.filter (· ∈ out) := by
    refine List.Perm.eq_of_pairwise (fun x y _ _ less more => ?_) l.txs.sorted
      (List.pairwise_append.mpr ⟨kept.txs.sorted, l.txs.sorted.filter _, fun x inside y rest =>
        below x inside y (tail.mem_iff.mp rest)⟩) ?_
    · exact absurd more (UInt64.lt_asymm less)
    · exact splits.symm.trans ((tail.symm.append_right _).trans List.perm_append_comm)
  exact ⟨ List.IsChain.prefix contiguous ⟨_, joined.symm⟩, _, joined, tail⟩

theorem lowestNonce_le {txs : List Transaction} (member : tx ∈ txs) :
    lowestNonce txs ≤ tx.accountNonce := by
  have fold (low : UInt64) :
      txs.foldl (fun lowest tx => min lowest tx.accountNonce) low ≤ low ∧ ∀ x ∈ txs,
        txs.foldl (fun lowest tx => min lowest tx.accountNonce) low ≤ x.accountNonce := by
    clear member
    induction txs generalizing low with
    | nil => exact ⟨UInt64.le_refl _, by simp⟩
    | cons first rest ih =>
      obtain ⟨least, lower⟩ := ih (min low first.accountNonce)
      refine ⟨UInt64.le_trans least Std.min_le_left, fun x inside => ?_⟩
      rcases List.mem_cons.mp inside with rfl | later
      · exact UInt64.le_trans least Std.min_le_right
      · exact lower x later
  exact (fold _).2 tx member

theorem invalidate_apart (strict : l.strict = true) (lowest : UInt64) :
    (∀ x ∈ (l.invalidate lowest).2.flatten, x.accountNonce ≤ lowest) ∧
      ∀ y ∈ (l.invalidate lowest).1, lowest < y.accountNonce := by
  simp [invalidate, strict, TxList.withTxs, TxSortedMap.filter, TxSortedMap.keep, flatten]

theorem filter_cutsTail (strict : l.strict = true) (contiguous : Contiguous l.flatten)
    {costLimit : ℤ} {gasLimit : UInt64} {removed invalids : List Transaction}
    (filtered : l.filter costLimit gasLimit = (removed, invalids, kept)) :
    l.CutsTail (removed ++ invalids) kept := by
  have splits : l.txs.Splits (removed ++ invalids, kept.txs) := by
    rw [TxSortedMap.Splits, List.append_assoc]
    exact (filter_spec filtered).1
  refine cutsTail_of_below contiguous splits fun x inside y taken => ?_
  obtain ⟨rfl, rfl, -⟩ | ⟨mid, rest, same, -⟩ := filter_cases filtered
  · cases taken
  · obtain ⟨low, high⟩ := invalidate_apart (same.trans strict) (lowestNonce removed)
    rw [rest] at low high
    rcases List.mem_append.mp taken with gone | invalid
    · refine UInt64.lt_of_le_of_ne (UInt64.le_trans (low x inside) (lowestNonce_le gone)) ?_
      exact splits.nonce_ne inside taken
    · exact UInt64.lt_of_le_of_lt (low x inside) (high y invalid)

theorem remove_cutsTail (strict : l.strict = true) (contiguous : Contiguous l.flatten)
    {invalids : List Transaction} (removed : l.remove tx = some (invalids, kept)) :
    ∃ gone, gone.accountNonce = tx.accountNonce ∧ l.CutsTail (gone :: invalids) kept := by
  obtain ⟨overlaps, same⟩ := Option.ite_none_right_eq_some.mp removed
  obtain ⟨gone, found⟩ := Option.isSome_iff_exists.mp overlaps
  obtain ⟨member, nonce⟩ := TxSortedMap.get_eq_some found
  have removedGone : l.remove gone = some (invalids, kept) := by
    rw [← removed, remove, remove, TxList.overlaps, TxList.overlaps, nonce]
  have splits := (remove_eq_some removedGone fun x inside => TxSortedMap.eq_of_nonce inside member).1
  obtain ⟨low, high⟩ := invalidate_apart (l := { l with txs := l.txs.remove tx.accountNonce }) strict
    tx.accountNonce
  rw [Option.some.inj same] at low high
  refine ⟨gone, nonce, cutsTail_of_below contiguous splits fun x inside y taken => ?_⟩
  rcases List.mem_cons.mp taken with rfl | invalid
  · exact UInt64.lt_of_le_of_ne (nonce ▸ low x inside) (splits.nonce_ne inside taken)
  · exact UInt64.lt_of_le_of_lt (low x inside) (high y invalid)

/-- After any operations no transaction exceeds the caps, so that `Filter` leaves none beyond its
limits. Of a strict list without gaps, `Filter` and `Remove` cut off the end. -/
theorem txList_caps : (∀ strict ops l, List.foldl perform (.new strict) ops = l → l.Capped ∧
      ∀ costLimit gasLimit, ∀ x ∈ (l.filter costLimit gasLimit).2.2.flatten, x.Within costLimit gasLimit) ∧
    ∀ l : TxList, l.strict = true → Contiguous l.flatten →
      (∀ costLimit gasLimit removed invalids kept,
        l.filter costLimit gasLimit = (removed, invalids, kept) → l.CutsTail (removed ++ invalids) kept) ∧
      ∀ tx invalids kept, l.remove tx = some (invalids, kept) →
        ∃ gone, gone.accountNonce = tx.accountNonce ∧ l.CutsTail (gone :: invalids) kept := by
  refine ⟨?_, fun l strict contiguous => ⟨?_, ?_⟩⟩
  · rintro strict ops l rfl
    have capped := (Capped.new strict).performAll ops
    exact ⟨capped, fun costLimit gasLimit => (capped.filter rfl).2⟩
  · exact fun _ _ _ _ _ => filter_cutsTail strict contiguous
  · exact fun _ _ _ => remove_cutsTail strict contiguous

end TxList

end Anduschain
