import Anduschain.RlpStream

/-! How a stream keeps within the lists it has entered. The sizes on the stack are compared with
the extents that the headers gave to the open lists, over any sequence of calls; they agree as
long as no header finds its list too short for the value behind it by less than the header. -/
namespace Anduschain.RlpStream
open ByteOrder RlpItem List Reader

def longHeader (kind : Kind) (count : Nat) (rest : Bytes) : Option (Kind × Nat × Nat) :=
  let size := rest.take count
  if rest.length < count ∨ size.head? = some 0 ∨ beNat size < 56 then none
  else some (kind, 1 + count, beNat size)

def header : Bytes → Option (Kind × Nat × Nat)
  | [] => none
  | b :: rest =>
    if b.toNat < 0x80 then some (.byte b, 1, 0)
    else if b.toNat < 0xB8 then some (.string, 1, b.toNat - 0x80)
    else if b.toNat < 0xC0 then longHeader .string (b.toNat - 0xB7) rest
    else if b.toNat < 0xF8 then some (.list, 1, b.toNat - 0xC0)
    else longHeader .list (b.toNat - 0xF7) rest

variable {s s' : Stream} {n z : Nat} {k : Kind}

theorem Stream.room_add {m : Nat} : s.Room (m + n) ↔ s.Room m ∧ (s.advance m).Room n := by
  cases s with
  | mk input remaining stack ahead =>
    have parts (t : Stream) (k : Nat) : t.Room k ↔ k ≤ t.input.length ∧
        (∀ limit ∈ t.stack.head?, k ≤ limit) ∧ ∀ r ∈ t.remaining, k ≤ r :=
      ⟨fun room => ⟨room.1, room.2, room.3⟩, fun ⟨a, b, c⟩ => ⟨a, b, c⟩⟩
    simp only [parts, advance, length_drop]
    rcases stack with _ | ⟨limit, outer⟩ <;> rcases remaining with _ | r <;>
      simp only [modifyHead_nil, modifyHead_cons, head?_nil, head?_cons,
        Option.map_none, Option.map_some, Option.mem_def, Option.some.injEq, forall_eq',
        reduceCtorEq, false_implies, implies_true, and_true, true_and] <;> omega

theorem readUint_iff {v : Nat} (positive : n ≠ 0) : readUint n s = (.ok v, s') ↔
    s.Room n ∧ (n = 1 ∨ (s.input.take n).head? ≠ some 0) ∧ v = beNat (s.input.take n) ∧
      s' = s.advance n := by
  unfold readUint
  rw [if_neg positive]
  by_cases one : n = 1
  · subst one
    rw [if_pos rfl, bind_ok_iff]
    constructor
    · rintro ⟨x, m, read, returned⟩
      obtain ⟨room, first, rfl⟩ := readByte_iff.mp read
      obtain ⟨rest, known⟩ := head?_eq_some_iff.mp first
      cases returned
      exact ⟨room, .inl rfl, by simp [known, beNat_single], rfl⟩
    · rintro ⟨room, -, rfl, rfl⟩
      obtain ⟨x, rest, known⟩ := exists_cons_of_length_pos room.inInput
      refine ⟨x, s.advance 1, readByte_iff.mpr ⟨room, by rw [known]; rfl, rfl⟩, ?_⟩
      simp [known, beNat_single, Reader.pure_apply]
  · rw [if_neg one, bind_ok_iff]
    constructor
    · rintro ⟨b, m, read, returned⟩
      obtain ⟨room, rfl, rfl⟩ := readFull_iff.mp read
      split at returned
      · nomatch returned
      · rename_i canonical
        cases returned
        exact ⟨room, .inr canonical, rfl, rfl⟩
    · rintro ⟨room, canonical, rfl, rfl⟩
      refine ⟨_, _, readFull_iff.mpr ⟨room, rfl, rfl⟩, ?_⟩
      rw [if_neg (canonical.resolve_left one), Reader.pure_apply]

theorem readSize_iff {kind : Kind} (positive : n ≠ 0) :
    readSize k n s = (.ok (kind, z), s') ↔
      ∃ h, longHeader k n s.input = some (kind, 1 + h, z) ∧ s.Room h ∧ s' = s.advance h := by
  rw [readSize, bind_ok_iff]
  constructor
  · rintro ⟨v, m, read, returned⟩
    obtain ⟨room, canonical, rfl, rfl⟩ := (readUint_iff positive).mp read
    split at returned
    · cases returned
    · rename_i large
      cases returned
      refine ⟨n, ?_, room, rfl⟩
      have lead : (s.input.take n).head? ≠ some 0 := by
        rcases canonical with rfl | canonical
        · intro zero
          obtain ⟨x, rest, known⟩ := exists_cons_of_length_pos room.inInput
          simp only [known, take_succ_cons, take_zero, head?_cons, Option.some.injEq] at zero large
          simp [zero, beNat_single] at large
        · exact canonical
      rw [longHeader, if_neg]
      simp only [not_or]
      exact ⟨Nat.not_lt.mpr room.inInput, lead, large⟩
  · rintro ⟨h, found, room, rfl⟩
    simp only [longHeader] at found
    split at found
    · cases found
    · rename_i fine
      simp only [Option.some.injEq, Prod.mk.injEq, Nat.add_left_cancel_iff] at found
      obtain ⟨rfl, rfl, rfl⟩ := found
      rw [not_or, not_or] at fine
      refine ⟨_, _, (readUint_iff positive).mpr ⟨room, .inr fine.2.1, rfl, rfl⟩, ?_⟩
      rw [if_neg fine.2.2, Reader.pure_apply]

theorem readAfterTag_iff {b : UInt8} (rearmed : s.ahead = none) :
    readAfterTag b s = (.ok (k, z), s') ↔
      ∃ h, header (b :: s.input) = some (k, 1 + h, z) ∧ s.Room h ∧ s' = s.advance h := by
  have short (kind : Kind) (size : Nat) : (pure (kind, size) : Reader (Kind × Nat)) s = (.ok (k, z), s') ↔
      ∃ h, some (kind, 1, size) = some (k, 1 + h, z) ∧ s.Room h ∧ s' = s.advance h := by
    have here := Stream.advance_zero rearmed
    constructor
    · intro returned
      cases returned
      exact ⟨0, rfl, ⟨Nat.zero_le _, fun _ _ => Nat.zero_le _, fun _ _ => Nat.zero_le _⟩, here.symm⟩
    · rintro ⟨h, found, -, rfl⟩
      simp only [Option.some.injEq, Prod.mk.injEq] at found
      obtain ⟨rfl, none, rfl⟩ := found
      obtain rfl : h = 0 := by omega
      rw [here, Reader.pure_apply]
  simp only [readAfterTag, header]
  split_ifs
  · exact short _ _
  · exact short _ _
  · exact readSize_iff (by omega)
  · exact short _ _
  · exact readSize_iff (by omega)

theorem header_bounds {b : Bytes} {h : Nat} (found : header b = some (k, h, z)) :
    1 ≤ h ∧ h ≤ b.length ∧ (1 < h → h ≤ 9 ∧ 56 ≤ z) := by
  cases b with
  | nil => nomatch found
  | cons x rest =>
    have := x.toNat_lt
    simp only [header, longHeader] at found
    split_ifs at found <;> simp only [Option.some.injEq, Prod.mk.injEq] at found <;>
      simp only [length_cons] <;> omega

theorem readKind_iff : readKind s = (.ok (k, z), s') ↔
    ∃ h, header s.input = some (k, h, z) ∧ s.Room h ∧ s' = s.advance h := by
  rw [readKind, bind_ok_iff]
  simp only [readTag, mapError_ok_iff, readByte_iff]
  constructor
  · rintro ⟨x, m, ⟨room, first, rfl⟩, read⟩
    obtain ⟨h, found, more, rfl⟩ := (readAfterTag_iff rfl).mp read
    obtain ⟨rest, known⟩ := head?_eq_some_iff.mp first
    refine ⟨1 + h, ?_, Stream.room_add.mpr ⟨room, more⟩, Stream.advance_advance _ _ _⟩
    simpa [known, Stream.advance] using found
  · rintro ⟨h, found, room, rfl⟩
    obtain ⟨h, rfl⟩ := Nat.exists_eq_add_of_le (header_bounds found).1
    obtain ⟨first, more⟩ := Stream.room_add.mp room
    obtain ⟨x, rest, known⟩ := exists_cons_of_length_pos first.inInput
    refine ⟨x, _, ⟨first, by rw [known]; rfl, rfl⟩, (readAfterTag_iff rfl).mpr ⟨h, ?_, more, ?_⟩⟩
    · simpa [known, Stream.advance] using found
    · rw [Stream.advance_advance]

/-- What a read may do to a stream: `n` bytes go off the list, and no more off the input and its
limit. -/
def Moves (s s' : Stream) : Prop :=
  (s'.ahead = none ∨ s' = s) ∧ ∃ m n j, m ≤ n ∧ j ≤ n ∧ (∀ limit ∈ s.stack.head?, n ≤ limit) ∧
    s'.input = s.input.drop m ∧ s'.stack = s.stack.modifyHead (· - n) ∧
    s'.remaining = s.remaining.map (· - j)

/-- The end of a list is none of the errors that such a read ends in. -/
def Moving {α : Type} (r : Reader α) : Prop := ∀ s, Moves s (r s).2 ∧ (r s).1 ≠ .error .eol

section Moving
variable {α β : Type} {r : Reader α} {k : α → Reader β} {s t u : Stream}

theorem moves_rearm (s : Stream) : Moves s { s with ahead := none } := by
  refine ⟨.inl rfl, 0, 0, 0, Nat.le_refl _, Nat.le_refl _, fun _ _ => Nat.zero_le _, rfl, ?_, ?_⟩
  · cases s.stack <;> rfl
  · cases s.remaining <;> rfl

theorem moves_self (s : Stream) : Moves s s := ⟨.inr rfl, (moves_rearm s).2⟩

theorem Moves.trans (first : Moves s t) (second : Moves t u) : Moves s u := by
  obtain ⟨ahead, m, n, j, few, less, inList, input, stack, remaining⟩ := first
  obtain ⟨ahead', m', n', j', few', less', inList', input', stack', remaining'⟩ := second
  refine ⟨?_, m + m', n + n', j + j', by omega, by omega, fun limit top => ?_, ?_, ?_, ?_⟩
  · rcases ahead' with none | rfl
    · exact .inl none
    · exact ahead
  · have := inList limit top
    have := inList' (limit - n) (by
      rw [stack]
      cases known : s.stack with
      | nil => simp [known] at top
      | cons l outer => simp_all)
    omega
  · rw [input', input, drop_drop]
  · rw [stack', stack]
    cases s.stack with
    | nil => rfl
    | cons l outer => simp only [modifyHead_cons, Nat.sub_add_eq]
  · rw [remaining', remaining]
    cases s.remaining with
    | none => rfl
    | some l => simp only [Option.map_some, Nat.sub_add_eq]

theorem moving_bind (first : Moving r) (next : ∀ a, Moving (k a)) : Moving (r >>= k) := by
  intro s
  have here := first s
  rcases read : r s with ⟨e | a, m⟩ <;> rw [read] at here
  · rw [bind_error read]
    exact ⟨here.1, fun same => here.2 (congrArg Except.error (Except.error.inj same))⟩
  · rw [bind_ok read]
    exact ⟨here.1.trans (next a m).1, (next a m).2⟩

theorem moving_mapError {f : StreamError → StreamError} (kept : ∀ e, f e = .eol → e = .eol)
    (moving : Moving r) : Moving (r.mapError f) := by
  intro s
  have here := moving s
  rcases read : r s with ⟨e | a, m⟩ <;> rw [read] at here
  · rw [mapError_error read]
    exact ⟨here.1, fun same => here.2 (congrArg Except.error (kept e (Except.error.inj same)))⟩
  · rw [mapError_ok read]
    exact here

theorem moving_pure (a : α) : Moving (pure a : Reader α) := fun s => ⟨moves_self s, nofun⟩

theorem moving_fail {e : StreamError} (other : e ≠ .eol) : Moving (Reader.fail e : Reader α) :=
  fun s => ⟨moves_self s, fun same => other (Except.error.inj same)⟩

theorem moving_rearm : Moving rearm := fun s => ⟨moves_rearm s, nofun⟩

theorem willRead_error {e : StreamError} {n : Nat} (failed : willRead n s = (.error e, t)) :
    Moves s t ∧ e ≠ .eol := by
  cases s with
  | mk input remaining stack ahead =>
    simp only [willRead, rearm, bind, spendInList, spend] at failed
    cases stack with
    | nil =>
      cases remaining with
      | none => cases failed
      | some r =>
        simp only at failed
        split at failed <;> cases failed
        exact ⟨moves_rearm _, by rintro ⟨⟩⟩
    | cons limit outer =>
      simp only at failed
      split at failed
      · cases failed
        exact ⟨moves_rearm _, by rintro ⟨⟩⟩
      · rename_i fits
        cases remaining with
        | none => cases failed
        | some r =>
          simp only at failed
          split at failed <;> cases failed
          exact ⟨⟨.inl rfl, 0, n, 0, by omega, by omega, by simpa using fits, rfl, rfl, rfl⟩, by rintro ⟨⟩⟩

theorem moving_willRead {take : Reader α} {n : Nat} (taken : ∀ m : Stream, (take m).1 ≠ .error .eol ∧
    ∃ i, i ≤ n ∧ (take m).2 = { m with input := m.input.drop i }) :
    Moving (do willRead n; take) := by
  intro s
  rcases willing : willRead n s with ⟨e | ⟨⟩, m⟩
  · obtain ⟨moves, other⟩ := willRead_error willing
    rw [bind_error willing]
    exact ⟨moves, fun same => other (Except.error.inj same)⟩
  · rw [bind_ok willing]
    obtain ⟨inList, -, rfl⟩ := willRead_iff.mp willing
    obtain ⟨quiet, i, few, after⟩ := taken { s.advance n with input := s.input }
    rw [after]
    exact ⟨⟨.inl rfl, i, n, n, few, Nat.le_refl _, inList, rfl, rfl, rfl⟩, quiet⟩

theorem moving_readFull (n : Nat) : Moving (readFull n) := by
  refine moving_willRead fun m => ?_
  simp only [takeBytes]
  split
  case isTrue short => exact ⟨by rintro ⟨⟩, m.input.length, by omega, by rw [drop_length]⟩
  case isFalse => exact ⟨by rintro ⟨⟩, n, Nat.le_refl _, rfl⟩

theorem moving_readByte : Moving readByte := by
  refine moving_willRead fun m => ?_
  simp only [takeByte]
  cases known : m.input with
  | nil => exact ⟨by rintro ⟨⟩, 0, Nat.zero_le _, by simp [← known]⟩
  | cons x rest => exact ⟨by rintro ⟨⟩, 1, Nat.le_refl _, rfl⟩

theorem moving_readUint (n : Nat) : Moving (readUint n) := by
  unfold readUint
  split_ifs
  · exact moving_bind moving_rearm fun _ => moving_pure 0
  · exact moving_bind moving_readByte fun _ => moving_pure _
  · refine moving_bind (moving_readFull n) fun b => ?_
    split_ifs
    · exact moving_fail nofun
    · exact moving_pure _

theorem moving_readSize (k : Kind) (n : Nat) : Moving (readSize k n) := by
  refine moving_bind (moving_readUint n) fun z => ?_
  split_ifs
  · exact moving_fail nofun
  · exact moving_pure _

theorem moving_readKind : Moving readKind := by
  refine moving_bind (fun s => moving_mapError (fun e => ?_) moving_readByte s) fun b => ?_
  · unfold eofAtTop
    split_ifs
    · nofun
    · exact id
  · unfold readAfterTag
    split_ifs
    · exact moving_pure _
    · exact moving_pure _
    · exact moving_readSize _ _
    · exact moving_pure _
    · exact moving_readSize _ _

end Moving

/-- Reads a raw value with its header; the header was taken off the input and is written anew. -/
def raw : Reader Bytes := do
  match ← kind with
  | (.byte x, _) =>
    rearm
    return [x]
  | (.string, size) => return puthead 0x80 0xB7 size ++ (← readFull size)
  | (.list, size) => return puthead 0xC0 0xF7 size ++ (← readFull size)

inductive Call where
  | list
  | listEnd
  | bytes
  | uint64
  | raw
  | kind

inductive Answer where
  | opened (size : Nat)
  | closed
  | content (b : Bytes)
  | number (n : Nat)
  | encoded (b : Bytes)
  | ahead (kind : Kind) (size : Nat)

def Call.perform : Call → Reader Answer
  | .list => do return .opened (← RlpStream.list)
  | .listEnd => do
      RlpStream.listEnd
      return .closed
  | .bytes => do return .content (← RlpStream.bytes)
  | .uint64 => do return .number (← uint 64)
  | .raw => do return .encoded (← RlpStream.raw)
  | .kind => do
      let next ← RlpStream.kind
      return .ahead next.1 next.2

def Answer.Shows : Answer → Bytes → Prop
  | .content b, shown => b = shown
  | .number n, shown => n = beNat shown
  | .encoded b, shown => b = shown ∨ ∃ smalltag largetag, b = puthead smalltag largetag shown.length ++ shown
  | _, shown => shown = []

abbrev Extent := Nat × Nat

def position (total : Bytes) (s : Stream) : Nat := total.length - s.input.length

def track (total : Bytes) (opens : List Extent) : Except StreamError Answer × Stream → List Extent
  | (.ok (.opened size), s) => (position total s, position total s + size) :: opens
  | (.ok .closed, _) => opens.tail
  | _ => opens

/-- A value that does not fit into its list with its header does not fit without it either. -/
def Fitting (s : Stream) : Prop :=
  s.ahead = none → ∀ limit ∈ s.stack.head?, 0 < limit →
    ∀ kind h size, header s.input = some (kind, h, size) → limit < h + size → limit < size

/-- The states of a stream over `total` when every call is made in a state that meets `guard`. -/
inductive Reached (guard : Stream → Prop) (total : Bytes) : Stream → List Extent → Prop
  | new (limit : Option Nat) : Reached guard total ⟨total, limit, [], none⟩ []
  | newList (limit : Option Nat) (len : Nat) (covered : ∀ r ∈ limit, len ≤ r) :
      Reached guard total ⟨total, limit, [], some (.ok (.list, len))⟩ []
  | call {s : Stream} {opens : List Extent} (reached : Reached guard total s opens) (met : guard s)
      (c : Call) : Reached guard total (c.perform s).2 (track total opens (c.perform s))

def Within : Nat → List Nat → List Extent → Prop
  | _, [], [] => True
  | p, limit :: outer, (_, stop) :: opens => p + limit ≤ stop ∧ Within stop outer opens
  | _, _, _ => False

structure Respects (total : Bytes) (s : Stream) (opens : List Extent) : Prop where
  rest : s.input <:+ total
  within : Within (position total s) s.stack opens
  begun : ∀ o ∈ opens, o.1 ≤ position total s
  limited : ∀ r ∈ s.remaining, s.stack.sum ≤ r

def Cached (total : Bytes) (s : Stream) (opens : List Extent) : Prop :=
  ∀ k z, s.ahead = some (.ok (k, z)) → (∀ limit ∈ s.stack.head?, z ≤ limit) ∧
    (s.stack = [] → ∀ r ∈ s.remaining, z ≤ r) ∧
    ∀ x, k = .byte x → ∃ done, total = done ++ x :: s.input ∧ ∀ o ∈ opens, o.1 ≤ done.length

section Respects
variable {total b : Bytes} {s t : Stream} {opens : List Extent} {k : Kind} {z n : Nat}

theorem Within.mono {p q : Nat} {stack : List Nat} (within : Within p stack opens) (le : q ≤ p) :
    Within q stack opens := by
  cases stack with
  | nil => cases opens <;> exact within
  | cons limit outer =>
    cases opens with
    | nil => exact within
    | cons o opens => exact ⟨by have := within.1; omega, within.2⟩

theorem position_drop (rest : s.input <:+ total) (m : Nat) (after : t.input = s.input.drop m) :
    position total s ≤ position total t ∧ position total t ≤ position total s + m := by
  have := rest.length_le
  rw [position, position, after, length_drop]
  omega

theorem Respects.moves (respects : Respects total s opens) (moves : Moves s t) :
    Respects total t opens := by
  obtain ⟨-, m, n, j, few, less, inList, input, stack, remaining⟩ := moves
  have bounds := position_drop respects.rest m input
  refine ⟨?_, ?_, fun o member => ?_, fun r left => ?_⟩
  · rw [input]
    exact (drop_suffix m _).trans respects.rest
  · have within := respects.within
    rw [stack]
    rcases known : s.stack with _ | ⟨limit, outer⟩ <;> rw [known] at within inList
    · cases opens <;> exact within
    · have fits := inList limit rfl
      cases opens with
      | nil => exact within
      | cons o opens =>
        have upto : position total s + limit ≤ o.2 := within.1
        exact ⟨show position total t + (limit - n) ≤ o.2 by omega, within.2⟩
  · exact (respects.begun o member).trans bounds.1
  · rw [remaining] at left
    obtain ⟨r, known, rfl⟩ := Option.map_eq_some_iff.mp left
    have sum := respects.limited r known
    rw [stack]
    cases top : s.stack with
    | nil => exact Nat.zero_le _
    | cons limit outer =>
      have fits := inList limit (by rw [top]; rfl)
      simp only [top, sum_cons, modifyHead_cons] at sum ⊢
      omega

theorem Respects.done (respects : Respects total s opens) :
    ∃ done, total = done ++ s.input ∧ done.length = position total s := by
  obtain ⟨done, split⟩ := respects.rest
  refine ⟨done, split.symm, ?_⟩
  rw [position, ← split, length_append, Nat.add_sub_cancel]

variable {h limit : Nat} {α : Type} {a : Answer}

theorem header_byte {x : UInt8} (found : header b = some (.byte x, h, z)) :
    h = 1 ∧ ∃ rest, b = x :: rest := by
  cases b with
  | nil => nomatch found
  | cons y rest =>
    simp only [header, longHeader] at found
    split_ifs at found <;>
      simp only [Option.some.injEq, Prod.mk.injEq, reduceCtorEq, false_and, Kind.byte.injEq] at found
    obtain ⟨rfl, rfl, -⟩ := found
    exact ⟨rfl, rest, rfl⟩

theorem kind_fresh {got : Except StreamError (Kind × Nat)} (fresh : s.ahead = none)
    (going : s.stack.head? ≠ some 0) (read : readKind s = (got, t)) :
    kind s = (checkSize s.stack.head? got t, { t with ahead := some (checkSize s.stack.head? got t) }) := by
  simp only [kind, fresh, if_neg going, read]

theorem checkSize_ok {limit : Option Nat} {read : Except StreamError (Kind × Nat)}
    (fine : checkSize limit read s = .ok (k, z)) :
    read = .ok (k, z) ∧ (∀ l ∈ limit, z ≤ l) ∧ ∀ r ∈ s.remaining, z ≤ r := by
  rcases read with e | ⟨kind, size⟩
  · nomatch fine
  · simp only [checkSize] at fine
    split_ifs at fine with large larger
    cases fine
    simp only [Option.any_eq_true, not_exists, not_and, decide_eq_true_eq, not_lt] at large larger
    exact ⟨rfl, large, larger⟩

theorem Respects.withAhead (respects : Respects total s opens)
    (ahead : Option (Except StreamError (Kind × Nat))) : Respects total { s with ahead } opens :=
  ⟨respects.rest, respects.within, respects.begun, respects.limited⟩

theorem kind_keeps (respects : Respects total s opens) (cached : Cached total s opens)
    (fitting : Fitting s) : Respects total (kind s).2 opens ∧ Cached total (kind s).2 opens := by
  cases fresh : s.ahead with
  | some c =>
    have same : kind s = (c, s) := by simp only [kind, fresh]
    rw [same]
    exact ⟨respects, cached⟩
  | none =>
    by_cases ended : s.stack.head? = some 0
    · rw [kind_eol fresh ended]
      exact ⟨respects, cached⟩
    · rcases read : readKind s with ⟨got, t⟩
      rw [kind_fresh fresh ended read]
      have moved := (moving_readKind s).1
      rw [read] at moved
      refine ⟨(respects.moves moved).withAhead _, fun k z known => ?_⟩
      obtain ⟨rfl, inList, inLimit⟩ := checkSize_ok (Option.some.inj known)
      obtain ⟨h, found, room, rfl⟩ := readKind_iff.mp read
      refine ⟨fun limit top => ?_, fun _ => inLimit, ?_⟩
      · obtain ⟨l, outer, known⟩ : ∃ l outer, s.stack = l :: outer := by
          cases stack : s.stack with
          | nil => simp [Stream.advance, stack] at top
          | cons l outer => exact ⟨l, outer, rfl⟩
        simp only [known, head?_cons, Option.some.injEq] at ended
        have whole := fitting fresh l (by rw [known]; rfl) (Nat.pos_of_ne_zero ended) _ h z found
        have fits := inList l (by rw [known]; rfl)
        simp only [Stream.advance, known, modifyHead_cons, head?_cons, Option.mem_def,
          Option.some.injEq] at top
        omega
      · rintro x rfl
        obtain ⟨rfl, rest, split⟩ := header_byte found
        obtain ⟨done, total, len⟩ := respects.done
        refine ⟨done, ?_, fun o member => len ▸ respects.begun o member⟩
        simp only [Stream.advance, split, drop_succ_cons, drop_zero]
        rw [total, split]

theorem cached_none (rearmed : s.ahead = none) : Cached total s opens := by
  intro k z known
  rw [rearmed] at known
  nomatch known

def Reading {α : Type} (r : Reader α) : Prop := ∃ next, r = (kind >>= next) ∧ ∀ a, Moving (next a)

theorem Reading.keeps {r : Reader α} (reading : Reading r) (respects : Respects total s opens)
    (cached : Cached total s opens) (fitting : Fitting s) :
    Respects total (r s).2 opens ∧ Cached total (r s).2 opens := by
  obtain ⟨next, rfl, moving⟩ := reading
  have kept := kind_keeps respects cached fitting
  rcases read : kind s with ⟨e | a, m⟩ <;> rw [read] at kept
  · rw [bind_error read]
    exact kept
  · obtain ⟨ahead, moves⟩ := (moving a m).1
    rw [bind_ok read]
    refine ⟨kept.1.moves ⟨ahead, moves⟩, ?_⟩
    rcases ahead with rearmed | same
    · exact cached_none rearmed
    · rw [same]
      exact kept.2

theorem reading_bytes : Reading bytes := by
  refine ⟨_, rfl, ?_⟩
  rintro ⟨x | _ | _, size⟩
  · exact moving_bind moving_rearm fun _ => moving_pure _
  · refine moving_bind (moving_readFull size) fun b => ?_
    split_ifs
    · exact moving_fail nofun
    · exact moving_pure _
  · exact moving_fail nofun

theorem reading_uint (maxbits : Nat) : Reading (uint maxbits) := by
  refine ⟨_, rfl, ?_⟩
  rintro ⟨x | _ | _, size⟩ <;> dsimp only
  · split_ifs
    · exact moving_fail nofun
    · exact moving_bind moving_rearm fun _ => moving_pure _
  · split_ifs
    · exact moving_fail nofun
    · refine moving_bind (moving_mapError ?_ (moving_readUint size)) fun v => ?_
      · rintro (_ | _) <;> simp [canonIntError]
      · split_ifs
        · exact moving_fail nofun
        · exact moving_pure _
  · exact moving_fail nofun

theorem reading_raw : Reading raw := by
  refine ⟨_, rfl, ?_⟩
  rintro ⟨x | _ | _, size⟩
  · exact moving_bind moving_rearm fun _ => moving_pure _
  · exact moving_bind (moving_readFull size) fun _ => moving_pure _
  · exact moving_bind (moving_readFull size) fun _ => moving_pure _

theorem answer_eq (r : Reader α) (f : α → Answer) (s : Stream) :
    (do return f (← r) : Reader Answer) s = ((r s).1.map f, (r s).2) := by
  rcases read : r s with ⟨e | a, m⟩
  · rw [bind_error read]
    rfl
  · rw [bind_ok read]
    rfl

theorem track_plain {f : α → Answer} {got : Except StreamError α}
    (unopened : ∀ a size, f a ≠ .opened size) (unclosed : ∀ a, f a ≠ .closed) :
    track total opens (got.map f, s) = opens := by
  rcases got with e | a
  · rfl
  · have first := unopened a
    have second := unclosed a
    simp only [Except.map]
    cases known : f a <;> simp_all [track]

theorem kind_ahead {got : Kind × Nat} (read : kind s = (.ok got, t)) : t.ahead = some (.ok got) := by
  cases fresh : s.ahead with
  | some c =>
    simp only [kind, fresh] at read
    cases read
    exact fresh
  | none =>
    by_cases ended : s.stack.head? = some 0
    · rw [kind_eol fresh ended] at read
      cases read
    · rw [kind_fresh fresh ended rfl, Prod.mk.injEq] at read
      rw [← read.2, ← read.1]

section

variable (respects : Respects total s opens)
include respects

theorem enter_keeps (cached : Cached total s opens) (ahead : s.ahead = some (.ok (.list, z))) :
    Respects total (s.enter z) ((position total s, position total s + z) :: opens) := by
  obtain ⟨inList, inLimit, -⟩ := cached _ _ ahead
  obtain ⟨rest, within, begun, limited⟩ := respects
  refine ⟨rest, ⟨Nat.le_refl _, ?_⟩, forall_mem_cons.mpr ⟨Nat.le_refl _, begun⟩, fun r left => ?_⟩
  · cases known : s.stack with
    | nil =>
      rw [known] at within
      cases opens <;> exact within
    | cons limit outer =>
      rw [known] at within inList
      have fits := inList limit rfl
      cases opens with
      | nil => exact within
      | cons o opens =>
        have upto : position total s + limit ≤ o.2 := within.1
        refine ⟨?_, within.2⟩
        simp only [wrapSub, if_pos fits]
        omega
  · have sum := limited r left
    cases known : s.stack with
    | nil => simpa [Stream.enter, known] using inLimit known r left
    | cons limit outer =>
      rw [known] at inList sum
      have fits := inList limit rfl
      simp only [Stream.enter, known, modifyHead_cons, sum_cons, wrapSub, if_pos fits] at sum ⊢
      omega

theorem list_keeps (cached : Cached total s opens) (fitting : Fitting s) :
    Respects total (Call.list.perform s).2 (track total opens (Call.list.perform s)) ∧
      Cached total (Call.list.perform s).2 (track total opens (Call.list.perform s)) := by
  have kept := kind_keeps respects cached fitting
  rw [Call.perform, answer_eq]
  rcases read : kind s with ⟨e | ⟨k, z⟩, m⟩ <;> rw [read] at kept
  · have failed : list s = (.error e, m) := bind_error read
    rw [failed]
    exact kept
  · have called : list s = _ := bind_ok read
    rw [called]
    rcases k with x | _ | _
    · exact kept
    · exact kept
    · have ahead : m.ahead = some (.ok (.list, z)) := kind_ahead read
      exact ⟨enter_keeps kept.1 kept.2 ahead, cached_none rfl⟩

theorem listEnd_keeps (cached : Cached total s opens) :
    Respects total (Call.listEnd.perform s).2 (track total opens (Call.listEnd.perform s)) ∧
      Cached total (Call.listEnd.perform s).2 (track total opens (Call.listEnd.perform s)) := by
  rw [Call.perform]
  rcases ended : listEnd s with ⟨e | ⟨⟩, m⟩
  · rw [bind_error ended]
    have same : m = s := by
      simp only [listEnd] at ended
      split at ended
      · cases ended
        rfl
      · split at ended <;> cases ended
        rfl
    rw [same]
    exact ⟨respects, cached⟩
  · rw [bind_ok ended]
    simp only [listEnd] at ended
    split at ended
    · cases ended
    · rename_i limit outer known
      split at ended
      · cases ended
      · rename_i empty
        cases ended
        obtain ⟨rest, within, begun, limited⟩ := respects
        refine ⟨⟨rest, ?_, fun o member => begun o (mem_of_mem_tail member), fun r left => ?_⟩,
          cached_none rfl⟩
        · rw [known] at within
          cases opens with
          | nil => exact within.elim
          | cons o opens =>
            have upto : position total s + limit ≤ o.2 := within.1
            exact Within.mono within.2 (Nat.le_trans (Nat.le_add_right _ _) upto)
        · have sum := limited r left
          rw [known, sum_cons] at sum
          exact Nat.le_trans (Nat.le_add_left _ _) sum

theorem call_keeps (cached : Cached total s opens) (fitting : Fitting s) (c : Call) :
    Respects total (c.perform s).2 (track total opens (c.perform s)) ∧
      Cached total (c.perform s).2 (track total opens (c.perform s)) := by
  cases c with
  | list => exact list_keeps respects cached fitting
  | listEnd => exact listEnd_keeps respects cached
  | bytes =>
    rw [Call.perform, answer_eq, track_plain nofun nofun]
    exact reading_bytes.keeps respects cached fitting
  | uint64 =>
    rw [Call.perform, answer_eq, track_plain nofun nofun]
    exact (reading_uint 64).keeps respects cached fitting
  | raw =>
    rw [Call.perform, answer_eq, track_plain nofun nofun]
    exact reading_raw.keeps respects cached fitting
  | kind =>
    rw [Call.perform, answer_eq, track_plain nofun nofun]
    exact kind_keeps respects cached fitting

end

theorem reached_respects (reached : Reached Fitting total s opens) :
    Respects total s opens ∧ Cached total s opens := by
  induction reached with
  | new limit =>
    refine ⟨⟨suffix_rfl, trivial, nofun, fun r left => Nat.zero_le r⟩, nofun⟩
  | newList limit len covered =>
    refine ⟨⟨suffix_rfl, trivial, nofun, fun r left => Nat.zero_le r⟩, ?_⟩
    intro k z known
    cases known
    exact ⟨nofun, fun _ => covered, nofun⟩
  | call _ met c kept => exact call_keeps kept.1 kept.2 met c

/-- The answer shows bytes right before the position, from inside the open lists. -/
def Shown (total : Bytes) (opens : List Extent) (a : Answer) (t : Stream) : Prop :=
  ∃ done shown, total = done ++ shown ++ t.input ∧ a.Shows shown ∧ ∀ o ∈ opens, o.1 ≤ done.length

theorem Respects.shown_nil (respects : Respects total s opens) (empty : a.Shows []) :
    Shown total opens a s := by
  obtain ⟨done, split, len⟩ := respects.done
  exact ⟨done, [], by rw [append_nil, split], empty, fun o member => len ▸ respects.begun o member⟩

theorem Respects.shown_take (respects : Respects total s opens)
    (shows : a.Shows (s.input.take n)) : Shown total opens a (s.advance n) := by
  obtain ⟨done, split, len⟩ := respects.done
  refine ⟨done, s.input.take n, ?_, shows, fun o member => len ▸ respects.begun o member⟩
  rw [append_assoc, Stream.advance, take_append_drop, split]

theorem Cached.shown_byte {x : UInt8} (cached : Cached total s opens)
    (ahead : s.ahead = some (.ok (.byte x, z))) (shows : a.Shows [x]) :
    Shown total opens a { s with ahead := none } := by
  obtain ⟨-, -, byte⟩ := cached _ _ ahead
  obtain ⟨done, split, begun⟩ := byte x rfl
  exact ⟨done, [x], by rw [append_assoc, singleton_append, split], shows, begun⟩

theorem Respects.upto (respects : Respects total s opens) {o : Extent} (inner : o ∈ opens.head?) :
    position total s ≤ o.2 := by
  have within := respects.within
  obtain ⟨opens, rfl⟩ := head?_eq_some_iff.mp inner
  cases known : s.stack with
  | nil =>
    rw [known] at within
    exact within.elim
  | cons limit outer =>
    rw [known] at within
    exact (Nat.le_add_right _ _).trans within.1

section

variable (respects : Respects total s opens) (cached : Cached total s opens) (fitting : Fitting s)
include respects cached fitting

theorem bytes_shown (read : bytes s = (.ok b, t)) : Shown total opens (.content b) t := by
  have kept := kind_keeps respects cached fitting
  obtain ⟨⟨k, z⟩, m, peeked, rest⟩ := bind_ok_iff.mp read
  rw [peeked] at kept
  rcases k with x | _ | _
  · cases rest
    exact kept.2.shown_byte (kind_ahead peeked) rfl
  · obtain ⟨b, m', full, rest⟩ := bind_ok_iff.mp rest
    obtain ⟨-, rfl, rfl⟩ := readFull_iff.mp full
    split at rest
    · nomatch rest
    · cases rest
      exact kept.1.shown_take rfl
  · nomatch rest

theorem raw_shown (read : raw s = (.ok b, t)) : Shown total opens (.encoded b) t := by
  have kept := kind_keeps respects cached fitting
  obtain ⟨⟨k, z⟩, m, peeked, rest⟩ := bind_ok_iff.mp read
  rw [peeked] at kept
  rcases k with x | _ | _
  · cases rest
    exact kept.2.shown_byte (kind_ahead peeked) (.inl rfl)
  · obtain ⟨b, m', full, rest⟩ := bind_ok_iff.mp rest
    obtain ⟨room, rfl, rfl⟩ := readFull_iff.mp full
    cases rest
    exact kept.1.shown_take (.inr ⟨0x80, 0xB7, by rw [length_take_of_le room.inInput]⟩)
  · obtain ⟨b, m', full, rest⟩ := bind_ok_iff.mp rest
    obtain ⟨room, rfl, rfl⟩ := readFull_iff.mp full
    cases rest
    exact kept.1.shown_take (.inr ⟨0xC0, 0xF7, by rw [length_take_of_le room.inInput]⟩)

theorem uint_shown {v : Nat} (read : uint n s = (.ok v, t)) : Shown total opens (.number v) t := by
  have kept := kind_keeps respects cached fitting
  obtain ⟨⟨k, z⟩, m, peeked, rest⟩ := bind_ok_iff.mp read
  rw [peeked] at kept
  rcases k with x | _ | _
  · dsimp only at rest
    split at rest
    · nomatch rest
    · cases rest
      exact kept.2.shown_byte (kind_ahead peeked) (beNat_single x).symm
  · dsimp only at rest
    split at rest
    · nomatch rest
    · obtain ⟨v, m', taken, rest⟩ := bind_ok_iff.mp rest
      split at rest
      · nomatch rest
      · cases rest
        rw [mapError_ok_iff] at taken
        by_cases empty : z = 0
        · subst empty
          cases taken
          exact (kept.1.withAhead none).shown_nil rfl
        · obtain ⟨-, -, rfl, rfl⟩ := (readUint_iff empty).mp taken
          exact kept.1.shown_take rfl
  · nomatch rest

theorem call_shown {c : Call} (called : c.perform s = (.ok a, t)) :
    Shown total (track total opens (c.perform s)) a t := by
  have kept := (call_keeps respects cached fitting c).1
  rw [called] at kept ⊢
  cases c with
  | bytes =>
    obtain ⟨b, m, read, returned⟩ := bind_ok_iff.mp called
    cases returned
    exact bytes_shown respects cached fitting read
  | uint64 =>
    obtain ⟨v, m, read, returned⟩ := bind_ok_iff.mp called
    cases returned
    exact uint_shown respects cached fitting read
  | raw =>
    obtain ⟨b, m, read, returned⟩ := bind_ok_iff.mp called
    cases returned
    exact raw_shown respects cached fitting read
  | list | listEnd | kind =>
    obtain ⟨b, m, read, returned⟩ := bind_ok_iff.mp called
    cases returned
    exact kept.shown_nil rfl

end

theorem readUint_tooLarge (top : s.stack.head? = some limit) (short : limit < n) :
    readUint n s = (.error .elemTooLarge, { s with ahead := none }) := by
  have willing : willRead n s = (.error .elemTooLarge, { s with ahead := none }) := by
    obtain ⟨outer, known⟩ := head?_eq_some_iff.mp top
    simp [willRead, rearm, bind, spendInList, known, short]
  unfold readUint
  rw [if_neg (by omega)]
  split
  case isTrue one =>
    subst one
    exact bind_error (bind_error willing)
  case isFalse => exact bind_error (bind_error willing)

theorem readKind_tooLarge (top : s.stack.head? = some limit) (positive : 0 < limit)
    (enough : ∀ r ∈ s.remaining, limit ≤ r) (found : header s.input = some (k, h, z))
    (short : limit < h) : (readKind s).1 = .error .elemTooLarge := by
  obtain ⟨x, rest, known⟩ : ∃ x rest, s.input = x :: rest := by
    cases known : s.input with
    | nil => simp [known, header] at found
    | cons x rest => exact ⟨x, rest, rfl⟩
  have room : s.Room 1 := by
    refine ⟨by simp [known], fun l same => ?_, fun r left => Nat.le_trans positive (enough r left)⟩
    rw [top] at same
    exact Option.some.inj same ▸ positive
  have tag : readTag s = (.ok x, s.advance 1) :=
    mapError_ok (readByte_iff.mpr ⟨room, by rw [known]; rfl, rfl⟩)
  have size (kind : Kind) {count : Nat} (long : longHeader kind count rest = some (k, h, z)) :
      (readSize kind count (s.advance 1)).1 = .error .elemTooLarge := by
    simp only [longHeader] at long
    split at long
    · nomatch long
    · simp only [Option.some.injEq, Prod.mk.injEq] at long
      have left : (s.advance 1).stack.head? = some (limit - 1) := by
        obtain ⟨outer, stack⟩ := head?_eq_some_iff.mp top
        simp [Stream.advance, stack]
      rw [readSize, bind_error (readUint_tooLarge left (by omega))]
  rw [readKind, bind_ok tag]
  simp only [header, known] at found
  simp only [readAfterTag]
  split_ifs at found ⊢
  · simp only [Option.some.injEq, Prod.mk.injEq] at found
    omega
  · simp only [Option.some.injEq, Prod.mk.injEq] at found
    omega
  · exact size _ found
  · simp only [Option.some.injEq, Prod.mk.injEq] at found
    omega
  · exact size _ found

theorem kind_tooLarge_iff (enough : ∀ r ∈ s.remaining, limit ≤ r)
    (fresh : s.ahead = none) (top : s.stack.head? = some limit) (positive : 0 < limit)
    (found : header s.input = some (k, h, z)) : (kind s).1 = .error .elemTooLarge ↔ limit < z := by
  have going : s.stack.head? ≠ some 0 := by
    rw [top]
    intro zero
    exact Nat.ne_of_gt positive (Option.some.inj zero)
  rcases read : readKind s with ⟨got, t⟩
  rw [kind_fresh fresh going read]
  by_cases short : limit < h
  · have large := readKind_tooLarge top positive enough found short
    rw [read] at large
    have := (header_bounds found).2.2 (by omega)
    simp only [show got = .error .elemTooLarge from large, checkSize, true_iff]
    omega
  · have room : s.Room h := by
      have fits := Nat.not_lt.mp short
      refine ⟨(header_bounds found).2.1, fun l same => ?_, fun r left => fits.trans (enough r left)⟩
      rw [top] at same
      exact Option.some.inj same ▸ fits
    have whole := readKind_iff.mpr ⟨h, found, room, rfl⟩
    rw [read] at whole
    cases whole
    simp only [checkSize, top, Option.any_some, decide_eq_true_eq]
    split_ifs <;> simp_all

end Respects

/-- As long as the calls are made where the value ahead does not outgrow its list by its header
alone, the sizes on the stack stay within the lists and no call shows anything from outside of
them. Where the value ahead does, and only there, a value that is too large passes `Kind`. -/
theorem stream_within_lists {total : Bytes} {s : Stream} {opens : List Extent}
    (reached : Reached Fitting total s opens) :
    Within (position total s) s.stack opens ∧
      (Fitting s → ∀ (c : Call) (a : Answer) (t : Stream), c.perform s = (.ok a, t) →
        ∃ done shown, total = done ++ shown ++ t.input ∧ a.Shows shown ∧
          ∀ o ∈ (track total opens (c.perform s)).head?,
            o.1 ≤ done.length ∧ done.length + shown.length ≤ o.2) ∧
      (Fitting s ↔ ∀ limit k h z, s.ahead = none → s.stack.head? = some limit → 0 < limit →
        header s.input = some (k, h, z) → limit < h + z →
          (kind s).1 = .error .elemTooLarge ∧ (list s).1 = .error .elemTooLarge) := by
  obtain ⟨respects, cached⟩ := reached_respects reached
  refine ⟨respects.within, fun fitting c a t called => ?_, ?_⟩
  · obtain ⟨done, shown, split, shows, begun⟩ := call_shown respects cached fitting called
    refine ⟨done, shown, split, shows, fun o inner => ⟨begun o (mem_of_mem_head? inner), ?_⟩⟩
    have upto := (call_keeps respects cached fitting c).1.upto inner
    rw [called] at upto
    rw [position, split, length_append, length_append, Nat.add_sub_cancel] at upto
    exact upto
  · have enough {limit : Nat} (top : s.stack.head? = some limit) : ∀ r ∈ s.remaining, limit ≤ r := by
      intro r left
      obtain ⟨outer, known⟩ := head?_eq_some_iff.mp top
      have sum := respects.limited r left
      rw [known, sum_cons] at sum
      omega
    constructor
    · intro fitting limit k h z fresh top positive found exceeds
      have large := (kind_tooLarge_iff (enough top) fresh top positive found).mpr
        (fitting fresh limit top positive k h z found exceeds)
      refine ⟨large, ?_⟩
      rcases read : kind s with ⟨got, m⟩
      rw [read] at large
      rw [list, bind_error (read.trans (by rw [show got = _ from large]))]
    · intro refused fresh limit top positive k h z found exceeds
      exact (kind_tooLarge_iff (enough top) fresh top positive found).mp
        (refused limit k h z fresh top positive found exceeds).1

def sampleEntered : Stream := ⟨[0x05, 0x06], some 2, [2], none⟩

theorem sampleEntered_within :
    Within 1 [2] [(1, 3)] ∧ Call.bytes.perform sampleEntered = (.ok (.content [5]), ⟨[0x06], some 1, [1], none⟩) := by
  have reached : Reached Fitting [0xC2, 0x05, 0x06] sampleEntered [(1, 3)] :=
    .call (.new (some 3)) nofun .list
  exact ⟨(stream_within_lists reached).1, rfl⟩

/-- The outer list has one byte, which is the header of the inner list; `List` then takes the byte of
the inner list off an outer size of zero. -/
theorem sampleNested_escapes : ∃ s t, Reached (fun _ => True) [0xC1, 0xC1, 0x00, 0x05] s [(1, 2)] ∧
    s.stack = [2 ^ 64 - 1] ∧ Call.bytes.perform s = (.ok (.content [5]), t) ∧
    position [0xC1, 0xC1, 0x00, 0x05] t = 4 := by
  have opened : Reached (fun _ => True) [0xC1, 0xC1, 0x00, 0x05] _ _ :=
    .call (.new (some 4)) trivial .list
  have nested := (opened.call trivial .list).call trivial .bytes
  exact ⟨_, _, nested.call trivial .listEnd, by decide +kernel, rfl, rfl⟩

end Anduschain.RlpStream
