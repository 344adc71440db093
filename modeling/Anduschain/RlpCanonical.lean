import Anduschain.StreamLimits

/-! Decoding into an empty interface. What was encoded is read back, and what is accepted is the
encoding of the value that is read: the sizes on the stack are followed modulo `2 ^ 64`, so that a
size that has wrapped never comes back to the zero at which a list may be left. -/
namespace Anduschain.RlpStream
open ByteOrder RlpItem List Reader

mutual
def goValue : Item → GoValue
  | .str b => .bytes b
  | .list xs => .list (goValues xs)

def goValues : List Item → List GoValue
  | [] => []
  | x :: xs => goValue x :: goValues xs
end

/-- Each level of nesting takes a byte of the input at least. -/
def decodeInterface : Nat → Reader Item
  | 0 => Reader.fail .unexpectedEof
  | fuel + 1 => do
      match ← kind with
      | (.list, _) => return .list (← decodeListSlice "[]interface \x7b\x7d" (decodeInterface fuel))
      | _ => return .str (← bytes)

def decodeBytesInterface (b : Bytes) : Except StreamError Item :=
  decodeBytes (decodeInto "interface \x7b\x7d" (decodeInterface (b.length + 1))) b

mutual
theorem toItem_goValue : (x : Item) → toItem (goValue x) = .ok x
  | .str b => rfl
  | .list xs => by
      rw [goValue, toItem, toItems_goValues xs]
      rfl

theorem toItems_goValues : (xs : List Item) → toItems (goValues xs) = .ok xs
  | [] => rfl
  | x :: xs => by
      rw [goValues, toItems, toItem_goValue x, toItems_goValues xs]
      rfl
end

theorem encode_goValue (x : Item) : encodeToBytes (goValue x) = .ok (encode x) := by
  rw [encodeToBytes_eq, toItem_goValue]
  rfl

section Reading
variable {s t m : Stream} {k : Kind} {z h fuel : Nat} {x : Item} {xs : List Item} {b : Bytes}
  {a : Kind × Nat} {α : Type} {typ : String} {r : Reader Item}

theorem kind_again (read : kind s = (.ok a, m)) : kind m = (.ok a, m) := by
  simp only [kind, kind_ahead read]

theorem peek {next : Kind × Nat → Reader α} (read : kind s = (.ok a, m)) :
    (kind >>= next) m = (kind >>= next) s := by
  rw [bind_ok read, bind_ok (kind_again read)]

theorem peek_listSlice {r : Reader α}
    (read : kind s = (.ok a, m)) : decodeListSlice typ r m = decodeListSlice typ r s := by
  have same : list m = list s := peek read
  simp only [decodeListSlice, bind, Reader.mapError, same]

theorem encode_le_encodeAll (member : x ∈ xs) : (encode x).length ≤ (encodeAll xs).length := by
  obtain ⟨before, after, rfl⟩ := append_of_mem member
  simp only [encodeAll_eq_flatMap, flatMap_append, flatMap_cons, length_append]
  omega

theorem reads_decodeInterface (enough : (encode x).length < fuel) : Reads (decodeInterface fuel) x x := by
  induction fuel generalizing x with
  | zero => exact absurd enough (Nat.not_lt_zero _)
  | succ fuel ih =>
    intro s ready
    cases x with
    | str b =>
      have whole := reads_bytes b s ready
      obtain ⟨⟨k, z⟩, m, read, rest⟩ := bind_ok_iff.mp whole
      have again : bytes m = _ := (peek read).trans whole
      rw [decodeInterface, bind_ok read]
      rcases k with x | _ | _
      · exact bind_ok again
      · exact bind_ok again
      · nomatch rest
    | list xs =>
      obtain ⟨m, read⟩ := kind_list ready
      rw [encode] at enough
      have shorter := length_lt_wrapList (encodeAll xs)
      have each : List.Forall₂ (Reads (decodeInterface fuel)) xs xs := by
        refine List.forall₂_same.mpr fun y member => ih ?_
        have := encode_le_encodeAll member
        omega
      have ends : Ends (decodeInterface fuel) := by
        cases fuel with
        | zero => omega
        | succ fuel => exact ends_bind ends_kind
      rw [decodeInterface, bind_ok read]
      exact bind_ok ((peek_listSlice read).trans (reads_listSlice each ends s ready))

theorem beBytes_beNat (lead : b.head? ≠ some 0) : beBytes (beNat b) = b := by
  have len : beLen (beNat b) = b.length := by
    cases b with
    | nil => rfl
    | cons y rest =>
      have positive : 1 ≤ y.toNat := by
        rw [Nat.one_le_iff_ne_zero]
        intro zero
        exact lead (congrArg some (UInt8.toNat_inj.mp zero))
      refine beLen_eq ?_ (beNat_lt (y :: rest))
      rw [beNat_cons]
      exact (Nat.le_mul_of_pos_left _ positive).trans (Nat.le_add_right _ _)
  rw [beBytes, len, beFixed_beNat]

theorem longHeader_eq {kind : Kind} {count : Nat} {rest : Bytes} {y : UInt8} (smalltag : Nat)
    {largetag : Nat} (found : longHeader kind count rest = some (k, h, z)) (few : count ≤ 8)
    (tag : y.toNat = largetag + count) :
    k = kind ∧ z < 2 ^ 64 ∧ (y :: rest).take h = puthead smalltag largetag z := by
  simp only [longHeader] at found
  split at found
  · cases found
  · rename_i fine
    simp only [not_or] at fine
    simp only [Option.some.injEq, Prod.mk.injEq] at found
    obtain ⟨rfl, rfl, rfl⟩ := found
    have len : (rest.take count).length = count := length_take_of_le (Nat.not_lt.mp fine.1)
    have same := beBytes_beNat fine.2.1
    have size : beLen (beNat (rest.take count)) = count := by rw [← beBytes_length, same, len]
    refine ⟨rfl, ?_, ?_⟩
    · have bound := beNat_lt (rest.take count)
      rw [len] at bound
      exact bound.trans_le (Nat.pow_le_pow_right (by decide) few)
    · rw [puthead, if_neg fine.2.2, same, size, ← tag, UInt8.ofNat_toNat, Nat.add_comm, take_succ_cons]

theorem header_eq (found : header b = some (k, h, z)) : z < 2 ^ 64 ∧
    match k with
    | .byte x => x < 0x80 ∧ b.take h = [x]
    | .string => b.take h = puthead 0x80 0xB7 z
    | .list => b.take h = puthead 0xC0 0xF7 z := by
  cases b with
  | nil => nomatch found
  | cons y rest =>
    have byte := y.toNat_lt
    have short {tag size : Nat} (sum : y.toNat = tag + size) (small : size < 56) (large : Nat) :
        (y :: rest).take 1 = puthead tag large size := by
      rw [puthead, if_pos small, ← sum, UInt8.ofNat_toNat]
      rfl
    simp only [header] at found
    split_ifs at found with low middle long list
    · cases found
      exact ⟨by decide, UInt8.lt_iff_toNat_lt.mpr low, rfl⟩
    · simp only [Option.some.injEq, Prod.mk.injEq] at found
      obtain ⟨rfl, rfl, rfl⟩ := found
      exact ⟨by omega, short (by omega) (by omega) _⟩
    · obtain ⟨rfl, bound, same⟩ := longHeader_eq 0x80 found (by omega)
        (show y.toNat = 0xB7 + (y.toNat - 0xB7) by omega)
      exact ⟨bound, same⟩
    · simp only [Option.some.injEq, Prod.mk.injEq] at found
      obtain ⟨rfl, rfl, rfl⟩ := found
      exact ⟨by omega, short (by omega) (by omega) _⟩
    · obtain ⟨rfl, bound, same⟩ := longHeader_eq 0xC0 found (by omega)
        (show y.toNat = 0xF7 + (y.toNat - 0xF7) by omega)
      exact ⟨bound, same⟩

/-- The bytes that a reader has taken, also off the size of the list around them. -/
structure Consumed (s : Stream) (b : Bytes) (t : Stream) : Prop where
  input : s.input = b ++ t.input
  rearmed : t.ahead = none
  stack : ∀ limit outer, s.stack = limit :: outer →
    ∃ left, t.stack = left :: outer ∧ (left + b.length) % 2 ^ 64 = limit % 2 ^ 64

theorem Consumed.trans {a b : Bytes} (first : Consumed s a m) (second : Consumed m b t) :
    Consumed s (a ++ b) t where
  input := by rw [first.input, second.input, append_assoc]
  rearmed := second.rearmed
  stack limit outer known := by
    obtain ⟨left, between, charged⟩ := first.stack limit outer known
    obtain ⟨rest, after, further⟩ := second.stack left outer between
    refine ⟨rest, after, ?_⟩
    rw [length_append]
    omega

def Sound (r : Reader Item) : Prop :=
  ∀ s x t, s.ahead = none → s.input.length < 2 ^ 64 → r s = (.ok x, t) → Consumed s (encode x) t

def AtEnd (r : Reader Item) : Prop := ∀ s t, s.ahead = none → r s = (.error .eol, t) → t = s

theorem sliceElems_sound (sound : Sound r) (atEnd : AtEnd r) {i : Nat}
    (fresh : s.ahead = none) (small : s.input.length < 2 ^ 64)
    (read : decodeSliceElems r fuel i s = (.ok xs, t)) : Consumed s (encodeAll xs) t := by
  induction fuel generalizing s i xs with
  | zero => cases read
  | succ fuel ih =>
    rcases first : r s with ⟨e | x, m⟩
    · simp only [decodeSliceElems, first] at read
      split at read
      · rename_i same
        cases same
        cases read
        obtain rfl := atEnd s _ fresh first
        exact ⟨rfl, fresh, fun limit outer known => ⟨limit, known, rfl⟩⟩
      · cases read
      · rename_i same
        cases same
    · rw [sliceElems_cons first] at read
      obtain ⟨ys, m', rest, returned⟩ := bind_ok_iff.mp read
      cases returned
      have here := sound s x m fresh small first
      refine here.trans (ih here.rearmed ?_ rest)
      have := congrArg List.length here.input
      rw [length_append] at this
      omega

theorem kind_header (fresh : s.ahead = none) (read : kind s = (.ok (k, z), m)) :
    ∃ h, header s.input = some (k, h, z) ∧ s.Room h ∧
      m = { s.advance h with ahead := some (.ok (k, z)) } := by
  by_cases ended : s.stack.head? = some 0
  · rw [kind_eol fresh ended] at read
    nomatch read
  · rcases taken : readKind s with ⟨got, t⟩
    rw [kind_fresh fresh ended taken, Prod.mk.injEq] at read
    obtain ⟨rfl, -⟩ := checkSize_ok read.1
    obtain ⟨h, found, room, rfl⟩ := readKind_iff.mp taken
    exact ⟨h, found, room, by rw [← read.2, read.1]⟩

theorem listEnd_iff : listEnd s = (.ok (), t) ↔
    ∃ outer, s.stack = 0 :: outer ∧ t = { s with stack := outer, ahead := none } := by
  rcases s with ⟨input, remaining, _ | ⟨limit, outer⟩, ahead⟩
  · simp [listEnd]
  · simp only [listEnd]
    split_ifs with going
    · simp only [Prod.mk.injEq, reduceCtorEq, false_and, List.cons.injEq, false_iff, not_exists, not_and]
      omega
    · simp only [Prod.mk.injEq, true_and, List.cons.injEq, Nat.eq_zero_of_not_pos going]
      constructor
      · rintro rfl
        exact ⟨outer, rfl, rfl⟩
      · rintro ⟨_, rfl, rfl⟩
        rfl

theorem list_cached (ahead : m.ahead = some (.ok (.list, z))) : list m = (.ok z, m.enter z) :=
  bind_ok (show kind m = (.ok (.list, z), m) by simp only [kind, ahead])

theorem listSlice_sound (sound : Sound r) (atEnd : AtEnd r)
    (ahead : m.ahead = some (.ok (.list, z))) (sized : z < 2 ^ 64) (small : m.input.length < 2 ^ 64)
    (read : decodeListSlice typ r m = (.ok xs, t)) :
    m.input = encodeAll xs ++ t.input ∧ (encodeAll xs).length = z ∧ t.ahead = none ∧
      t.stack = m.stack.modifyHead (wrapSub · z) := by
  rw [decodeListSlice, bind_ok (mapError_ok (list_cached ahead))] at read
  split at read
  · rename_i empty
    subst empty
    obtain ⟨⟨⟩, after, left, returned⟩ := bind_ok_iff.mp read
    cases returned
    obtain ⟨outer, stack, rfl⟩ := listEnd_iff.mp left
    exact ⟨rfl, rfl, rfl, (List.cons.inj stack).2.symm⟩
  · obtain ⟨ys, inner, elems, rest⟩ := bind_ok_iff.mp read
    obtain ⟨⟨⟩, after, left, returned⟩ := bind_ok_iff.mp rest
    cases returned
    obtain ⟨outer, zero, rfl⟩ := listEnd_iff.mp left
    have taken : Consumed (m.enter z) (encodeAll xs) inner := sliceElems_sound sound atEnd rfl small elems
    obtain ⟨left, stack, charged⟩ := taken.stack z _ rfl
    rw [zero] at stack
    obtain ⟨rfl, rfl⟩ := List.cons.inj stack
    have input : m.input = encodeAll xs ++ inner.input := taken.input
    refine ⟨input, ?_, rfl, rfl⟩
    have := congrArg List.length input
    rw [length_append] at this
    omega

theorem consumed_take {n : Nat} (room : s.Room n) : Consumed s (s.input.take n) (s.advance n) where
  input := (take_append_drop n s.input).symm
  rearmed := rfl
  stack limit outer known := by
    have fits := room.inList limit (by rw [known]; rfl)
    refine ⟨limit - n, by rw [Stream.advance, known]; rfl, ?_⟩
    rw [length_take_of_le room.inInput, Nat.sub_add_cancel fits]

theorem bytes_sound (fresh : s.ahead = none) (read : bytes s = (.ok b, t)) :
    Consumed s (encode (.str b)) t := by
  obtain ⟨⟨k, z⟩, m, peeked, rest⟩ := bind_ok_iff.mp read
  obtain ⟨h, found, room, rfl⟩ := kind_header fresh peeked
  obtain ⟨-, shape⟩ := header_eq found
  rcases k with x | _ | _
  · cases rest
    have here := consumed_take room
    rw [shape.2] at here
    rw [encode, encodeStr, if_pos shape.1]
    exact here
  · obtain ⟨b, after, full, rest⟩ := bind_ok_iff.mp rest
    obtain ⟨more, taken, rfl⟩ := readFull_iff.mp full
    have len : b.length = z := by
      rw [taken]
      exact length_take_of_le more.inInput
    split at rest
    · nomatch rest
    · rename_i canonical
      cases rest
      have written : encode (.str b) = s.input.take (h + z) := by
        rcases encode_str_cases b with ⟨x, rfl, low, -⟩ | ⟨-, written⟩
        · refine absurd ⟨len.symm, ?_⟩ canonical
          simpa using low
        · rw [written, len, ← shape, take_add, taken]
          rfl
      rw [written]
      have whole := consumed_take (Stream.room_add.mpr ⟨room, more.inInput, more.inList, more.inLimit⟩)
      rw [← Stream.advance_advance] at whole
      exact whole
  · nomatch rest

theorem list_sound (sound : Sound r) (atEnd : AtEnd r)
    (fresh : s.ahead = none) (small : s.input.length < 2 ^ 64) (peeked : kind s = (.ok (.list, z), m))
    (read : decodeListSlice typ r m = (.ok xs, t)) : Consumed s (encode (.list xs)) t := by
  obtain ⟨h, found, room, rfl⟩ := kind_header fresh peeked
  obtain ⟨sized, shape⟩ := header_eq found
  have shorter : (s.input.drop h).length < 2 ^ 64 := by
    rw [length_drop]
    omega
  obtain ⟨input, len, rearmed, stack⟩ := listSlice_sound sound atEnd rfl sized shorter read
  have head : puthead 0xC0 0xF7 (encodeAll xs).length = s.input.take h := by rw [len, shape]
  refine ⟨?_, rearmed, fun limit outer known => ?_⟩
  · rw [encode, wrapList, head, append_assoc, ← input]
    exact (take_append_drop h s.input).symm
  · have fits := room.inList limit (by rw [known]; rfl)
    refine ⟨wrapSub (limit - h) z, ?_, ?_⟩
    · rw [stack]
      simp only [Stream.advance, known, modifyHead_cons]
    · rw [encode, wrapList, head, length_append, len, length_take_of_le room.inInput, wrapSub]
      split <;> omega

theorem kind_atEnd (fresh : s.ahead = none) (read : kind s = (.error .eol, t)) : t = s := by
  by_cases ended : s.stack.head? = some 0
  · rw [kind_eol fresh ended] at read
    exact (Prod.mk.inj read).2.symm
  · have quiet := (moving_readKind s).2
    rcases taken : readKind s with ⟨e | ⟨k, z⟩, m⟩ <;> rw [taken] at quiet
    · rw [kind_fresh fresh ended taken] at read
      exact absurd (Prod.mk.inj read).1 quiet
    · rw [kind_fresh fresh ended taken] at read
      simp only [checkSize] at read
      split_ifs at read <;> cases read

/-- No error of the reader is taken for the end of a list. -/
def QuietAt {α : Type} (r : Reader α) (s : Stream) : Prop := (r s).1 ≠ .error .eol

theorem quiet_bind {β : Type} {r : Reader α} {next : α → Reader β} (first : QuietAt r s)
    (rest : ∀ a m, QuietAt (next a) m) : QuietAt (r >>= next) s := by
  unfold QuietAt at first ⊢
  rcases read : r s with ⟨e | a, m⟩ <;> rw [read] at first
  · rw [bind_error read]
    exact fun same => first (congrArg Except.error (Except.error.inj same))
  · rw [bind_ok read]
    exact rest a m

theorem quiet_pure (a : α) (s : Stream) : QuietAt (pure a) s := nofun

theorem quiet_listEnd (s : Stream) : QuietAt listEnd s := by
  simp only [QuietAt, listEnd]
  split
  · rintro ⟨⟩
  · split <;> rintro ⟨⟩

theorem quiet_sliceElems (r : Reader Item) (fuel i : Nat) (s : Stream) :
    QuietAt (decodeSliceElems r fuel i) s := by
  induction fuel generalizing i s with
  | zero => nofun
  | succ fuel ih =>
    unfold QuietAt
    rcases first : r s with ⟨e | x, m⟩
    · cases e <;> simp [decodeSliceElems, first, addErrorContext]
    · rw [sliceElems_cons first]
      exact quiet_bind (ih (i + 1) m) fun _ => quiet_pure _

theorem quiet_listSlice (ahead : m.ahead = some (.ok (.list, z))) :
    QuietAt (decodeListSlice typ r) m := by
  unfold QuietAt
  rw [decodeListSlice, bind_ok (mapError_ok (list_cached ahead))]
  split
  · exact quiet_bind (quiet_listEnd _) fun _ => quiet_pure _
  · exact quiet_bind (quiet_sliceElems r _ 0 _) fun xs s => quiet_bind (quiet_listEnd s) fun _ => quiet_pure _

theorem quiet_bytes (peeked : kind s = (.ok a, m)) : QuietAt bytes m := by
  obtain ⟨next, same, moving⟩ := reading_bytes
  unfold QuietAt
  rw [same, bind_ok (kind_again peeked)]
  exact (moving a m).2

theorem decodeInterface_sound (fuel : Nat) : Sound (decodeInterface fuel) ∧ AtEnd (decodeInterface fuel) := by
  induction fuel with
  | zero => exact ⟨nofun, nofun⟩
  | succ fuel ih =>
    constructor
    · intro s x t fresh small read
      obtain ⟨⟨k, z⟩, m, peeked, rest⟩ := bind_ok_iff.mp read
      rcases k with y | _ | _
      all_goals
        obtain ⟨got, m', inner, returned⟩ := bind_ok_iff.mp rest
        cases returned
      · exact bytes_sound fresh ((peek peeked).symm.trans inner)
      · exact bytes_sound fresh ((peek peeked).symm.trans inner)
      · exact list_sound ih.1 ih.2 fresh small peeked inner
    · intro s t fresh read
      rcases peeked : kind s with ⟨e | ⟨k, z⟩, m⟩
      · rw [decodeInterface, bind_error peeked] at read
        cases read
        exact kind_atEnd fresh peeked
      · rw [decodeInterface, bind_ok peeked] at read
        refine absurd (congrArg Prod.fst read) ?_
        rcases k with y | _ | _
        · exact quiet_bind (quiet_bytes peeked) fun _ => quiet_pure _
        · exact quiet_bind (quiet_bytes peeked) fun _ => quiet_pure _
        · exact quiet_bind (quiet_listSlice (kind_ahead peeked)) fun _ => quiet_pure _

end Reading

theorem decode_sound {b : Bytes} {x : Item} (small : b.length < 2 ^ 64)
    (accepted : decodeBytesInterface b = .ok x) : b = encode x := by
  simp only [decodeBytesInterface, decodeBytes] at accepted
  split at accepted
  · rename_i val s read
    split at accepted
    · nomatch accepted
    · rename_i ended
      cases accepted
      have taken := (decodeInterface_sound _).1 _ _ _ rfl small (mapError_ok_iff.mp read)
      have input : b = encode x ++ s.input := taken.input
      rw [eq_nil_of_length_eq_zero (Nat.eq_zero_of_not_pos ended), append_nil] at input
      exact input
  · nomatch accepted

theorem decode_complete {x : Item} (small : (encode x).length < 2 ^ 64) :
    decodeBytesInterface (encode x) = .ok x := by
  have ready : (Stream.new (encode x)).Ready (encode x) :=
    ⟨rfl, prefix_rfl, nofun, fun r left => Option.some.inj left ▸ Nat.le_refl _, small⟩
  have read := reads_decodeInterface (Nat.lt_succ_self _) _ ready
  have whole : decodeInto "interface \x7b\x7d" (decodeInterface _) (.new (encode x)) = _ :=
    mapError_ok read
  rw [decodeBytesInterface, decodeBytes, whole]
  simp [Stream.advance, Stream.new]

/-- Every value is read back from its encoding, every accepted input is the encoding of the value
that is read, and so no two inputs lead to one value. -/
theorem rlp_canonical :
    (∀ x, ∃ b, encodeToBytes (goValue x) = .ok b ∧ (b.length < 2 ^ 64 → decodeBytesInterface b = .ok x)) ∧
      (∀ b x, b.length < 2 ^ 64 → decodeBytesInterface b = .ok x → encodeToBytes (goValue x) = .ok b) ∧
      ∀ a b x, a.length < 2 ^ 64 → b.length < 2 ^ 64 → decodeBytesInterface a = .ok x →
        decodeBytesInterface b = .ok x → a = b := by
  refine ⟨fun x => ⟨encode x, encode_goValue x, decode_complete⟩, fun b x small accepted => ?_,
    fun a b x sa sb first second => ?_⟩
  · rw [encode_goValue, decode_sound small accepted]
  · rw [decode_sound sa first, decode_sound sb second]

end Anduschain.RlpStream
