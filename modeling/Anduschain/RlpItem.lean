import Anduschain.ByteOrder

/-! Recursive length prefix items: the writer, the canonical reader and their
round trip. The reader takes structural fuel, and the length of its input is
always enough. Sizes are bounded by the 64-bit length field of the format. -/
namespace RlpItem
open ByteOrder List

inductive Item where
  | str (b : Bytes)
  | list (xs : List Item)

def puthead (smalltag largetag size : Nat) : Bytes :=
  if size < 56 then [UInt8.ofNat (smalltag + size)]
  else UInt8.ofNat (largetag + beLen size) :: beBytes size

def encodeStr : Bytes → Bytes
  | [x] => if x < 0x80 then [x] else [0x81, x]
  | b => puthead 0x80 0xB7 b.length ++ b

def wrapList (payload : Bytes) : Bytes := puthead 0xC0 0xF7 payload.length ++ payload

mutual
def encode : Item → Bytes
  | .str b => encodeStr b
  | .list xs => wrapList (encodeAll xs)
def encodeAll : List Item → Bytes
  | [] => []
  | x :: xs => encode x ++ encodeAll xs
end

inductive Kind where
  | str
  | list
  deriving DecidableEq, Repr

def takePayload (kind : Kind) (size : Nat) (rest : Bytes) : Option (Kind × Bytes × Bytes) :=
  if rest.length < size then none else some (kind, rest.take size, rest.drop size)

/-- The long form: `count` size bytes, no leading zero, and a size of at least 56. -/
def takeLong (kind : Kind) (count : Nat) (rest : Bytes) : Option (Kind × Bytes × Bytes) :=
  let digits := rest.take count
  if rest.length < count then none
  else if digits.head? = some 0 then none
  else if beNat digits < 56 then none
  else takePayload kind (beNat digits) (rest.drop count)

/-- A one-byte string below 0x80 must have been written as the byte itself. -/
def rejectShort : Kind × Bytes × Bytes → Option (Kind × Bytes × Bytes)
  | (.str, [x], rest) => if x < 0x80 then none else some (.str, [x], rest)
  | r => some r

def readHead : Bytes → Option (Kind × Bytes × Bytes)
  | [] => none
  | x :: rest =>
    let tag := x.toNat
    if tag < 0x80 then some (.str, [x], rest)
    else if tag < 0xB8 then (takePayload .str (tag - 0x80) rest).bind rejectShort
    else if tag < 0xC0 then takeLong .str (tag - 0xB7) rest
    else if tag < 0xF8 then takePayload .list (tag - 0xC0) rest
    else takeLong .list (tag - 0xF7) rest

def readAll : Nat → Bytes → Option (List Item)
  | 0, _ => none
  | _ + 1, [] => some []
  | fuel + 1, x :: b => do
      let (kind, payload, rest) ← readHead (x :: b)
      let item ← match kind with
        | .str => some (.str payload)
        | .list => (readAll fuel payload).map .list
      let items ← readAll fuel rest
      return item :: items

def decode (b : Bytes) : Option Item :=
  match readAll (b.length + 1) b with
  | some [item] => some item
  | _ => none

theorem puthead_ne_nil (s l n : Nat) : puthead s l n ≠ [] := by
  unfold puthead
  split <;> simp

theorem encodeStr_ne_nil (b : Bytes) : encodeStr b ≠ [] := by
  unfold encodeStr
  split
  · split <;> simp
  · simp [puthead_ne_nil]

theorem encode_ne_nil (x : Item) : encode x ≠ [] := by
  cases x with
  | str b => simp only [encode, encodeStr_ne_nil, ne_eq, not_false_eq_true]
  | list xs => simp [encode, wrapList, puthead_ne_nil]

theorem encodeAll_eq_flatMap (xs : List Item) : encodeAll xs = xs.flatMap encode := by
  induction xs with
  | nil => rfl
  | cons x xs ih => rw [encodeAll, flatMap_cons, ih]

variable {n : Nat} {k : Kind} {input s : Bytes} {xs : List Item}

theorem beLen_of_sized (h : n < 2 ^ 64) : beLen n ≤ 8 := by
  apply beLen_le
  simpa using h

theorem takePayload_append (kind : Kind) (payload rest : Bytes) :
    takePayload kind payload.length (payload ++ rest) = some (kind, payload, rest) := by
  unfold takePayload
  rw [if_neg (by simp)]
  simp

theorem takeLong_append (kind : Kind) (payload rest : Bytes) (big : 56 ≤ payload.length) :
    takeLong kind (beLen payload.length) (beBytes payload.length ++ (payload ++ rest)) =
      some (kind, payload, rest) := by
  have hlen : (beBytes payload.length).length = beLen payload.length := beBytes_length _
  have htake : (beBytes payload.length ++ (payload ++ rest)).take (beLen payload.length) =
      beBytes payload.length := by rw [← hlen, take_left]
  have hdrop : (beBytes payload.length ++ (payload ++ rest)).drop (beLen payload.length) =
      payload ++ rest := by rw [← hlen, drop_left]
  simp only [takeLong, htake, hdrop, beNat_beBytes]
  rw [if_neg (by simp [hlen]), if_neg (beBytes_head_ne _), if_neg (by omega), takePayload_append]

theorem tag_toNat (h : n < 256) : (UInt8.ofNat n).toNat = n := by
  rw [UInt8.toNat_ofNat']
  omega

variable {payload rest b : Bytes} {fuel : Nat} {kind : Kind}

theorem rejectShort_of_ne (h : payload.length ≠ 1) :
    rejectShort (.str, payload, rest) = some (.str, payload, rest) := by
  unfold rejectShort
  split
  · rename_i heq
    simp only [Prod.mk.injEq] at heq
    simp [heq.2.1] at h
  · rfl

theorem readHead_puthead_str (b rest : Bytes) (hb : b.length ≠ 1) (fits : b.length < 2 ^ 64) :
    readHead (puthead 0x80 0xB7 b.length ++ (b ++ rest)) = some (.str, b, rest) := by
  have h8 := beLen_of_sized fits
  unfold puthead
  split
  · rename_i small
    have htag := tag_toNat (n := 0x80 + b.length) (by omega)
    simp only [cons_append, nil_append, readHead, htag]
    rw [if_neg (by omega), if_pos (by omega), Nat.add_sub_cancel_left, takePayload_append]
    exact rejectShort_of_ne hb
  · rename_i large
    have hpos : 0 < beLen b.length := beLen_pos (by omega)
    have htag := tag_toNat (n := 0xB7 + beLen b.length) (by omega)
    simp only [cons_append, readHead, htag]
    rw [if_neg (by omega), if_neg (by omega), if_pos (by omega), Nat.add_sub_cancel_left]
    exact takeLong_append .str b rest (by omega)

theorem readHead_wrapList (p rest : Bytes) (fits : p.length < 2 ^ 64) :
    readHead (wrapList p ++ rest) = some (.list, p, rest) := by
  have h8 := beLen_of_sized fits
  rw [wrapList, append_assoc]
  unfold puthead
  split
  · have htag := tag_toNat (n := 0xC0 + p.length) (by omega)
    simp only [cons_append, nil_append, readHead, htag]
    rw [if_neg (by omega), if_neg (by omega), if_neg (by omega), if_pos (by omega),
      Nat.add_sub_cancel_left, takePayload_append]
  · rename_i large
    have hpos : 0 < beLen p.length := beLen_pos (by omega)
    have htag := tag_toNat (n := 0xF7 + beLen p.length) (by omega)
    simp only [cons_append, readHead, htag]
    rw [if_neg (by omega), if_neg (by omega), if_neg (by omega), if_neg (by omega),
      Nat.add_sub_cancel_left]
    exact takeLong_append .list p rest (by omega)

theorem readHead_encodeStr (b rest : Bytes) (fits : b.length < 2 ^ 64) :
    readHead (encodeStr b ++ rest) = some (.str, b, rest) := by
  by_cases one : b.length = 1
  · obtain ⟨x, rfl⟩ := length_eq_one_iff.mp one
    simp only [encodeStr]
    by_cases low : x < 0x80
    · have hx : x.toNat < 0x80 := UInt8.lt_iff_toNat_lt.mp low
      simp only [if_pos low, cons_append, nil_append, readHead, if_pos hx]
    · have h81 : (0x81 : UInt8).toNat = 0x81 := rfl
      simp only [if_neg low, cons_append, nil_append, readHead, h81]
      rw [if_neg (by decide), if_pos (by decide)]
      simp [takePayload, rejectShort, low]
  · have hne : encodeStr b = puthead 0x80 0xB7 b.length ++ b := by
      unfold encodeStr
      split
      · simp at one
      · rfl
    rw [hne, append_assoc]
    exact readHead_puthead_str b rest one fits

theorem length_lt_wrapList (p : Bytes) : p.length < (wrapList p).length := by
  have h := length_pos_iff.mpr (puthead_ne_nil 0xC0 0xF7 p.length)
  rw [wrapList, length_append]
  omega

theorem length_le_encodeStr (b : Bytes) : b.length ≤ (encodeStr b).length := by
  unfold encodeStr
  split
  · split <;> simp
  · rw [length_append]
    omega

theorem readAll_step (hne : b ≠ []) (h : readHead b = some (kind, payload, rest)) :
    readAll (fuel + 1) b = (do
      let item ← match kind with
        | .str => some (.str payload)
        | .list => (readAll fuel payload).map .list
      let items ← readAll fuel rest
      return item :: items) := by
  cases b with
  | nil => exact absurd rfl hne
  | cons x b =>
    rw [readAll, h]
    rfl

theorem readAll_encodeAll (fuel : Nat) (xs : List Item) (enough : (encodeAll xs).length < fuel)
    (fits : (encodeAll xs).length < 2 ^ 64) : readAll fuel (encodeAll xs) = some xs := by
  induction fuel generalizing xs with
  | zero => omega
  | succ fuel ih =>
    cases xs with
    | nil => rfl
    | cons x xs =>
      have hpos := length_pos_iff.mpr (encode_ne_nil x)
      have hne : encodeAll (x :: xs) ≠ [] := by simp [encodeAll, encode_ne_nil]
      simp only [encodeAll, length_append] at enough fits
      have htail := ih xs (by omega) (by omega)
      cases x with
      | str b =>
        simp only [encode] at enough fits hpos
        have hb := length_le_encodeStr b
        have hhead := readHead_encodeStr b (encodeAll xs) (by omega)
        rw [readAll_step hne (by simpa only [encodeAll, encode] using hhead)]
        simp [htail]
      | list ys =>
        simp only [encode] at enough fits hpos
        have hb := length_lt_wrapList (encodeAll ys)
        have hhead := readHead_wrapList (encodeAll ys) (encodeAll xs) (by omega)
        rw [readAll_step hne (by simpa only [encodeAll, encode] using hhead)]
        simp [htail, ih ys (by omega) (by omega)]

theorem decode_encode (x : Item) (fits : (encode x).length < 2 ^ 64) :
    decode (encode x) = some x := by
  have hall : encodeAll [x] = encode x := by simp [encodeAll]
  have h := readAll_encodeAll ((encode x).length + 1) [x] (by rw [hall]; omega) (by rw [hall]; omega)
  rw [hall] at h
  rw [decode, h]

theorem encode_inj {x y : Item} (fits : (encode x).length < 2 ^ 64) (h : encode x = encode y) :
    x = y := by
  have hx := decode_encode x fits
  have hy := decode_encode y (by rwa [← h])
  rw [h, hy] at hx
  exact (Option.some.inj hx).symm

theorem takePayload_parts {size : Nat}
    (h : takePayload kind size input = some (k, payload, rest)) : input = payload ++ rest := by
  unfold takePayload at h
  split at h
  · cases h
  · simp only [Option.some.injEq, Prod.mk.injEq] at h
    rw [← h.2.1, ← h.2.2, take_append_drop]

theorem takeLong_parts {count : Nat} (h : takeLong kind count input = some (k, payload, rest)) :
    ∃ digits, input = digits ++ (payload ++ rest) := by
  unfold takeLong at h
  dsimp only at h
  split at h
  · cases h
  · split at h
    · cases h
    · split at h
      · cases h
      · rw [← takePayload_parts h]
        exact ⟨_, (take_append_drop count input).symm⟩

theorem readHead_parts
    (h : readHead b = some (kind, payload, rest)) : ∃ head, b = head ++ (payload ++ rest) := by
  cases b with
  | nil => cases h
  | cons x input =>
    have short (k : Kind) (size : Nat)
        (taken : takePayload k size input = some (kind, payload, rest)) :
        ∃ head, x :: input = head ++ (payload ++ rest) :=
      ⟨[x], by rw [← takePayload_parts taken]; rfl⟩
    have long (k : Kind) (count : Nat) (taken : takeLong k count input = some (kind, payload, rest)) :
        ∃ head, x :: input = head ++ (payload ++ rest) := by
      obtain ⟨digits, parts⟩ := takeLong_parts taken
      exact ⟨x :: digits, by rw [parts]; rfl⟩
    simp only [readHead] at h
    split at h
    · simp only [Option.some.injEq, Prod.mk.injEq] at h
      exact ⟨[], by rw [← h.2.1, ← h.2.2]; rfl⟩
    · split at h
      · obtain ⟨⟨k, p, r⟩, taken, kept⟩ := Option.bind_eq_some_iff.mp h
        unfold rejectShort at kept
        split at kept
        · rename_i same
          cases same
          split at kept
          · cases kept
          · cases kept
            exact short _ _ taken
        · cases kept
          exact short _ _ taken
      · split at h
        · exact long _ _ h
        · split at h
          · exact short _ _ h
          · exact long _ _ h

theorem readAll_cons {item : Item} {items : List Item} (h : readAll fuel b = some (item :: items)) :
    ∃ n head payload rest, b = head ++ (payload ++ rest) ∧ readAll n rest = some items ∧
      (item = .str payload ∨ ∃ xs, item = .list xs ∧ readAll n payload = some xs) := by
  cases fuel with
  | zero => cases h
  | succ n =>
    cases b with
    | nil => simp [readAll] at h
    | cons x b =>
      simp only [readAll, bind, Option.bind_eq_some_iff] at h
      obtain ⟨⟨kind, payload, rest⟩, first, h⟩ := h
      obtain ⟨head, parts⟩ := readHead_parts first
      cases kind with
      | str =>
        obtain ⟨one, found, h⟩ := Option.bind_eq_some_iff.mp h
        obtain ⟨others, tail, built⟩ := Option.bind_eq_some_iff.mp h
        obtain ⟨rfl, rfl⟩ := List.cons.inj (Option.some.inj built)
        obtain rfl := Option.some.inj found
        exact ⟨n, head, payload, rest, parts, tail, .inl rfl⟩
      | list =>
        obtain ⟨one, found, h⟩ := Option.bind_eq_some_iff.mp h
        obtain ⟨others, tail, built⟩ := Option.bind_eq_some_iff.mp h
        obtain ⟨rfl, rfl⟩ := List.cons.inj (Option.some.inj built)
        obtain ⟨xs, inner, rfl⟩ := Option.map_eq_some_iff.mp found
        exact ⟨n, head, payload, rest, parts, tail, .inr ⟨xs, rfl, inner⟩⟩

theorem readAll_nil (h : readAll fuel b = some []) : b = [] := by
  cases fuel with
  | zero => cases h
  | succ n =>
    cases b with
    | nil => rfl
    | cons x b =>
      simp only [readAll, bind, Option.bind_eq_some_iff] at h
      obtain ⟨⟨kind, payload, rest⟩, -, h⟩ := h
      cases kind <;> simp [Option.bind_eq_some_iff] at h

theorem readAll_last (h : readAll fuel b = some (xs ++ [.str s])) : s <:+ b := by
  induction xs generalizing fuel b with
  | nil =>
    obtain ⟨n, head, payload, rest, rfl, tail, item⟩ := readAll_cons h
    obtain rfl : rest = [] := readAll_nil tail
    rcases item with same | ⟨ys, same, -⟩
    · obtain rfl : s = payload := by simpa using same
      exact ⟨head, by simp⟩
    · cases same
  | cons x xs ih =>
    obtain ⟨n, head, payload, rest, rfl, tail, -⟩ := readAll_cons h
    exact (ih tail).trans ⟨head ++ payload, by simp⟩

theorem decode_last (h : decode b = some (.list (xs ++ [.str s]))) : s <:+ b := by
  unfold decode at h
  split at h
  · rename_i item found
    obtain rfl := Option.some.inj h
    obtain ⟨n, head, payload, rest, rfl, tail, inner⟩ := readAll_cons found
    obtain rfl : rest = [] := readAll_nil tail
    rcases inner with same | ⟨ys, same, inner⟩
    · cases same
    · obtain rfl := Item.list.inj same
      exact (readAll_last inner).trans ⟨head, by simp⟩
  · cases h

end RlpItem
