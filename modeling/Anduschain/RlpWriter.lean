import Anduschain.RlpItem

/-! The reflection-driven RLP writer of package rlp. A value is written into a
buffer that keeps string data and list headers apart; the headers are merged
into the output at the end. The writer is related to plain RLP items. -/
namespace Anduschain
open ByteOrder RlpItem List

/-- A Go value as `makeWriter` sees it, one constructor for each writer it can choose. -/
inductive GoValue where
  | uint (i : UInt64)
  /-- Every signed kind; the enumerations of package protos are int32. -/
  | int (typ : String) (i : Int)
  | bool (b : Bool)
  | str (s : Bytes)
  | bytes (b : Bytes)
  | array (b : Bytes)
  | bigInt (i : Int)
  | nilBigInt
  | nilInterface
  /-- A slice or a struct; the elements of an interface slice stand for themselves. -/
  | list (xs : List GoValue)

inductive EncodeError where
  | negativeBigInt
  | notSerializable (typ : String)
  deriving DecidableEq, Repr

def EncodeError.msg : EncodeError → String
  | .negativeBigInt => "rlp: cannot encode negative big.Int"
  | .notSerializable typ => "rlp: type " ++ typ ++ " is not RLP-serializable"

structure ListHead where
  offset : Nat
  size : Nat

structure EncBuffer where
  str : Bytes
  lheads : List ListHead
  lhsize : Nat

namespace EncBuffer

def empty : EncBuffer := ⟨[], [], 0⟩

def size (buf : EncBuffer) : Nat := buf.str.length + buf.lhsize

def append (buf : EncBuffer) (b : Bytes) : EncBuffer := { buf with str := buf.str ++ b }

end EncBuffer

def headsize (size : Nat) : Nat := if size < 56 then 1 else 1 + beLen size

/-- The bytes of `i` from the first nonzero one on, chosen by magnitude. -/
def putint (i : UInt64) : Bytes :=
  let byte (shift : Nat) : UInt8 := UInt8.ofNat (i.toNat >>> shift)
  if i.toNat < 2 ^ 8 then [byte 0]
  else if i.toNat < 2 ^ 16 then [byte 8, byte 0]
  else if i.toNat < 2 ^ 24 then [byte 16, byte 8, byte 0]
  else if i.toNat < 2 ^ 32 then [byte 24, byte 16, byte 8, byte 0]
  else if i.toNat < 2 ^ 40 then [byte 32, byte 24, byte 16, byte 8, byte 0]
  else if i.toNat < 2 ^ 48 then [byte 40, byte 32, byte 24, byte 16, byte 8, byte 0]
  else if i.toNat < 2 ^ 56 then [byte 48, byte 40, byte 32, byte 24, byte 16, byte 8, byte 0]
  else [byte 56, byte 48, byte 40, byte 32, byte 24, byte 16, byte 8, byte 0]

namespace EncBuffer

variable (buf : EncBuffer)

def encodeStringHeader (size : Nat) : EncBuffer :=
  buf.append (puthead 0x80 0xB7 size)

def writeBool (b : Bool) : EncBuffer :=
  buf.append (if b then [0x01] else [0x80])

def writeUint64 (i : UInt64) : EncBuffer :=
  if i = 0 then buf.append [0x80]
  else if i < 128 then buf.append [UInt8.ofNat i.toNat]
  else buf.append (UInt8.ofNat (0x80 + (putint i).length) :: putint i)

def writeBytes (b : Bytes) : EncBuffer :=
  match b with
  | [x] => if x ≤ 0x7F then buf.append [x] else (buf.encodeStringHeader 1).append [x]
  | b => (buf.encodeStringHeader b.length).append b

def writeByteArray (b : Bytes) : EncBuffer :=
  match b with
  | [] => buf.append [0x80]
  | [x] => if x ≤ 0x7F then buf.append [x] else buf.append [0x81, x]
  | b => (buf.encodeStringHeader b.length).append b

/-- Up to 64 bits as an integer, else the words of the number from the top. -/
def writeBigInt (i : Nat) : EncBuffer :=
  if i < 2 ^ 64 then buf.writeUint64 (UInt64.ofNat i)
  else
    let length := (i.log2 + 1 + 7) / 8
    (buf.encodeStringHeader length).append (beFixed length i)

def list : Nat × EncBuffer :=
  (buf.lheads.length, { buf with lheads := buf.lheads ++ [⟨buf.str.length, buf.lhsize⟩] })

def listEnd (index : Nat) : EncBuffer :=
  match buf.lheads[index]? with
  | none => buf
  | some lh =>
    let size := buf.size - lh.offset - lh.size
    { buf with
      lheads := buf.lheads.set index ⟨lh.offset, size⟩
      lhsize := buf.lhsize + headsize size }

/-- String data up to each header, the header, and what is left after the last one. -/
def copyFrom (str : Bytes) : List ListHead → Nat → Bytes
  | [], strpos => str.drop strpos
  | head :: lheads, strpos =>
    (str.drop strpos).take (head.offset - strpos) ++ puthead 0xC0 0xF7 head.size ++
      copyFrom str lheads head.offset

def makeBytes : Bytes := copyFrom buf.str buf.lheads 0

end EncBuffer

mutual
def write : GoValue → EncBuffer → Except EncodeError EncBuffer
  | .uint i, w => .ok (w.writeUint64 i)
  | .int typ _, _ => .error (.notSerializable typ)
  | .bool b, w => .ok (w.writeBool b)
  | .str s, w => .ok (w.writeBytes s)
  | .bytes b, w => .ok (w.writeBytes b)
  | .array b, w => .ok (w.writeByteArray b)
  | .bigInt i, w => if i < 0 then .error .negativeBigInt else .ok (w.writeBigInt i.toNat)
  | .nilBigInt, w => .ok (w.append [0x80])
  | .nilInterface, w => .ok (w.append [0xC0])
  | .list xs, w =>
    if xs.isEmpty then .ok (w.append [0xC0])
    else
      match writeAll xs w.list.2 with
      | .ok w' => .ok (w'.listEnd w.list.1)
      | .error e => .error e
def writeAll : List GoValue → EncBuffer → Except EncodeError EncBuffer
  | [], w => .ok w
  | x :: xs, w =>
    match write x w with
    | .ok w' => writeAll xs w'
    | .error e => .error e
end

def encodeToBytes (v : GoValue) : Except EncodeError Bytes :=
  (write v .empty).map EncBuffer.makeBytes

mutual
/-- The RLP item a value stands for, or the error of the first field without a writer. -/
def toItem : GoValue → Except EncodeError Item
  | .uint i => .ok (.str (beBytes i.toNat))
  | .int typ _ => .error (.notSerializable typ)
  | .bool b => .ok (.str (if b then [1] else []))
  | .str s => .ok (.str s)
  | .bytes b => .ok (.str b)
  | .array b => .ok (.str b)
  | .bigInt i => if i < 0 then .error .negativeBigInt else .ok (.str (beBytes i.toNat))
  | .nilBigInt => .ok (.str [])
  | .nilInterface => .ok (.list [])
  | .list xs => (toItems xs).map .list
def toItems : List GoValue → Except EncodeError (List Item)
  | [] => .ok []
  | x :: xs =>
    match toItem x with
    | .ok item => (toItems xs).map (item :: ·)
    | .error e => .error e
end

mutual
/-- The string data of an item: its encoding without the headers of nonempty lists. -/
def flat : Item → Bytes
  | .str b => encodeStr b
  | .list xs => if xs.isEmpty then [0xC0] else flatAll xs
def flatAll : List Item → Bytes
  | [] => []
  | x :: xs => flat x ++ flatAll xs
end

mutual
/-- The headers of an item whose string data starts at `offset`, outermost first. -/
def heads (offset : Nat) : Item → List ListHead
  | .str _ => []
  | .list xs =>
    if xs.isEmpty then [] else ⟨offset, (encodeAll xs).length⟩ :: headsAll offset xs
def headsAll (offset : Nat) : List Item → List ListHead
  | [] => []
  | x :: xs => heads offset x ++ headsAll (offset + (flat x).length) xs
end

mutual
def headBytes : Item → Nat
  | .str _ => 0
  | .list xs => if xs.isEmpty then 0 else headsize (encodeAll xs).length + headBytesAll xs
def headBytesAll : List Item → Nat
  | [] => 0
  | x :: xs => headBytes x + headBytesAll xs
end

theorem puthead_length (s l size : Nat) : (puthead s l size).length = headsize size := by
  unfold puthead headsize
  split <;> simp [Nat.add_comm]

mutual
theorem encode_length : (x : Item) → (encode x).length = (flat x).length + headBytes x
  | .str b => by simp [encode, flat, headBytes]
  | .list [] => by simp [encode, flat, headBytes, encodeAll, wrapList, puthead]
  | .list (y :: ys) => by
      have h := encodeAll_length (y :: ys)
      simp only [encode, flat, headBytes, wrapList, length_append, puthead_length,
        isEmpty_cons, Bool.false_eq_true, if_false]
      omega
theorem encodeAll_length : (xs : List Item) →
    (encodeAll xs).length = (flatAll xs).length + headBytesAll xs
  | [] => rfl
  | x :: xs => by
      have hx := encode_length x
      have hxs := encodeAll_length xs
      simp only [encodeAll, flatAll, headBytesAll, length_append]
      omega
end

theorem putint_eq (i : UInt64) (pos : i ≠ 0) : putint i = beBytes i.toNat := by
  have hpos : i.toNat ≠ 0 := fun h => pos (UInt64.toNat_inj.mp (by simpa using h))
  have hi : i.toNat < 2 ^ 64 := i.toNat_lt
  unfold putint beBytes
  generalize i.toNat = n at *
  simp only [Nat.shiftRight_eq_div_pow]
  split_ifs with h1 h2 h3 h4 h5 h6 h7
  · rw [beLen_eq (k := 0) (by omega) (by omega)]; simp [beFixed, beFixedOnto]
  · rw [beLen_eq (k := 1) (by omega) (by omega)]; simp [beFixed, beFixedOnto]
  · rw [beLen_eq (k := 2) (by omega) (by omega)]; simp [beFixed, beFixedOnto, Nat.div_div_eq_div_mul]
  · rw [beLen_eq (k := 3) (by omega) (by omega)]; simp [beFixed, beFixedOnto, Nat.div_div_eq_div_mul]
  · rw [beLen_eq (k := 4) (by omega) (by omega)]; simp [beFixed, beFixedOnto, Nat.div_div_eq_div_mul]
  · rw [beLen_eq (k := 5) (by omega) (by omega)]; simp [beFixed, beFixedOnto, Nat.div_div_eq_div_mul]
  · rw [beLen_eq (k := 6) (by omega) (by omega)]; simp [beFixed, beFixedOnto, Nat.div_div_eq_div_mul]
  · rw [beLen_eq (k := 7) (by omega) (by omega)]; simp [beFixed, beFixedOnto, Nat.div_div_eq_div_mul]

namespace EncBuffer

variable (w : EncBuffer)

def put (x : Item) : EncBuffer :=
  ⟨w.str ++ flat x, w.lheads ++ heads w.str.length x, w.lhsize + headBytes x⟩

def putAll (xs : List Item) : EncBuffer :=
  ⟨w.str ++ flatAll xs, w.lheads ++ headsAll w.str.length xs, w.lhsize + headBytesAll xs⟩

theorem append_eq_put (b : Bytes) : w.append (encodeStr b) = w.put (.str b) := by
  simp [append, put, flat, heads, headBytes]

theorem putAll_nil : w.putAll [] = w := by
  simp [putAll, flatAll, headsAll, headBytesAll]

theorem putAll_cons (x : Item) (xs : List Item) : w.putAll (x :: xs) = (w.put x).putAll xs := by
  simp [putAll, put, flatAll, headsAll, headBytesAll, Nat.add_assoc]

theorem put_nil_list : w.append [0xC0] = w.put (.list []) := by
  simp [append, put, flat, heads, headBytes]

theorem listEnd_putAll (xs : List Item) (nonempty : xs ≠ []) :
    (w.list.2.putAll xs).listEnd w.list.1 = w.put (.list xs) := by
  have hempty : xs.isEmpty = false := by simpa using nonempty
  have hlen := encodeAll_length xs
  have hsize : w.str.length + (flatAll xs).length + (w.lhsize + headBytesAll xs) -
      w.str.length - w.lhsize = (encodeAll xs).length := by omega
  simp [list, listEnd, putAll, put, flat, heads, headBytes, size, hempty, hsize]
  omega

theorem encodeStr_of_length_ne {b : Bytes} (h : b.length ≠ 1) :
    encodeStr b = puthead 0x80 0xB7 b.length ++ b := by
  unfold encodeStr
  split
  · simp at h
  · rfl

theorem writeBytes_eq (b : Bytes) : w.writeBytes b = w.put (.str b) := by
  rw [← append_eq_put]
  unfold writeBytes
  split
  · rename_i x
    have : x ≤ 0x7F ↔ x < 0x80 := by simp only [UInt8.le_iff_toNat_le, UInt8.lt_iff_toNat_lt]; simp; omega
    simp only [encodeStr, this]
    split
    · rfl
    · simp [encodeStringHeader, append, puthead]
  · rename_i hne
    have hlen : b.length ≠ 1 := fun h => by
      obtain ⟨x, rfl⟩ := length_eq_one_iff.mp h
      exact hne x rfl
    rw [encodeStr_of_length_ne hlen]
    simp [encodeStringHeader, append]

theorem writeByteArray_eq (b : Bytes) : w.writeByteArray b = w.put (.str b) := by
  rw [← writeBytes_eq]
  unfold writeByteArray writeBytes
  split <;> simp [encodeStringHeader, append, puthead]

theorem writeUint64_eq (i : UInt64) : w.writeUint64 i = w.put (.str (beBytes i.toNat)) := by
  rw [← append_eq_put]
  unfold writeUint64
  split
  · rename_i zero
    simp [zero, encodeStr, puthead]
  · rename_i pos
    have hint := putint_eq i pos
    have hbound : (putint i).length ≤ 8 := by
      rw [hint, beBytes_length]
      exact beLen_of_sized i.toNat_lt
    rw [← hint]
    split
    · rename_i small
      have hlow : i.toNat < 128 := by simpa [UInt64.lt_iff_toNat_lt] using small
      have hone : putint i = [UInt8.ofNat i.toNat] := by simp [putint, show i.toNat < 256 by omega]
      have hbyte : UInt8.ofNat i.toNat < 0x80 := by
        rw [UInt8.lt_iff_toNat_lt, tag_toNat (by omega)]
        exact hlow
      rw [hone, encodeStr, if_pos hbyte]
    · rename_i large
      have hhigh : 128 ≤ i.toNat := by simpa [UInt64.lt_iff_toNat_lt] using large
      congr 1
      by_cases one : (putint i).length = 1
      · have hlt : i.toNat < 256 := by
          have := lt_beLen i.toNat
          rw [← beBytes_length, ← hint, one] at this
          simpa using this
        have hput : putint i = [UInt8.ofNat i.toNat] := by simp [putint, hlt]
        have hbyte : ¬ UInt8.ofNat i.toNat < 0x80 := by
          rw [UInt8.lt_iff_toNat_lt, tag_toNat (by omega)]
          exact Nat.not_lt.mpr hhigh
        rw [hput, encodeStr, if_neg hbyte]
        rfl
      · rw [encodeStr_of_length_ne one, puthead, if_pos (by omega)]
        rfl

theorem writeBigInt_eq (i : Nat) : w.writeBigInt i = w.put (.str (beBytes i)) := by
  unfold writeBigInt
  split
  · rename_i small
    rw [writeUint64_eq, UInt64.toNat_ofNat_of_lt' small]
  · rename_i large
    have hi : i ≠ 0 := by omega
    have hlen : (i.log2 + 1 + 7) / 8 = beLen i := by
      rw [beLen, if_neg hi]
      omega
    have hbig : ¬ beLen i = 1 := fun h => by
      have := lt_beLen i
      rw [h] at this
      omega
    rw [← append_eq_put, encodeStr_of_length_ne (by rwa [beBytes_length])]
    simp only [hlen, encodeStringHeader, append, beBytes_length, append_assoc]
    rfl

end EncBuffer

theorem isEmpty_toItems {xs : List GoValue} {items : List Item} (h : toItems xs = .ok items) :
    items.isEmpty = xs.isEmpty := by
  cases xs with
  | nil => simp_all [toItems]
  | cons x xs =>
    rw [toItems] at h
    split at h
    · cases hxs : toItems xs with
      | error e => simp [hxs, Except.map] at h
      | ok items' =>
        simp only [hxs, Except.map, Except.ok.injEq] at h
        simp [← h]
    · cases h

mutual
theorem write_eq : (v : GoValue) → (w : EncBuffer) → write v w = (toItem v).map w.put
  | .uint i, w => by simp [write, toItem, Except.map, EncBuffer.writeUint64_eq]
  | .int typ i, w => rfl
  | .bool b, w => by
      cases b <;> simp [write, toItem, Except.map, EncBuffer.writeBool, ← EncBuffer.append_eq_put,
        encodeStr, puthead]
  | .str s, w => by simp [write, toItem, Except.map, EncBuffer.writeBytes_eq]
  | .bytes b, w => by simp [write, toItem, Except.map, EncBuffer.writeBytes_eq]
  | .array b, w => by simp [write, toItem, Except.map, EncBuffer.writeByteArray_eq]
  | .bigInt i, w => by
      by_cases neg : i < 0
      · simp [write, toItem, Except.map, neg]
      · simp [write, toItem, Except.map, neg, EncBuffer.writeBigInt_eq]
  | .nilBigInt, w => by
      simp [write, toItem, Except.map, ← EncBuffer.append_eq_put, encodeStr, puthead]
  | .nilInterface, w => by simp [write, toItem, Except.map, EncBuffer.put_nil_list]
  | .list xs, w => by
      rw [write, toItem]
      split
      · rename_i empty
        obtain rfl : xs = [] := by simpa using empty
        simp [toItems, Except.map, EncBuffer.put_nil_list]
      · rename_i nonempty
        rw [writeAll_eq xs w.list.2]
        cases hxs : toItems xs with
        | error e => rfl
        | ok items =>
          have hne : items ≠ [] := by
            have := isEmpty_toItems hxs
            rintro rfl
            simp_all
          simp only [Except.map, EncBuffer.listEnd_putAll w items hne]
theorem writeAll_eq : (xs : List GoValue) → (w : EncBuffer) →
    writeAll xs w = (toItems xs).map w.putAll
  | [], w => by simp [writeAll, toItems, Except.map, EncBuffer.putAll_nil]
  | x :: xs, w => by
      rw [writeAll, write_eq x w, toItems]
      cases hx : toItem x with
      | error e => rfl
      | ok item =>
        simp only [Except.map, writeAll_eq xs]
        cases hxs : toItems xs with
        | error e => rfl
        | ok items => simp [EncBuffer.putAll_cons]
end

section Rendering

theorem copyFrom_skip (str : Bytes) (lheads : List ListHead) {p q : Nat} (hpq : p ≤ q)
    (later : ∀ head ∈ lheads, q ≤ head.offset) :
    EncBuffer.copyFrom str lheads p =
      (str.drop p).take (q - p) ++ EncBuffer.copyFrom str lheads q := by
  have split (n : Nat) : (str.drop p).take (q - p + n) =
      (str.drop p).take (q - p) ++ (str.drop q).take n := by
    rw [take_add, drop_drop, Nat.add_sub_cancel' hpq]
  cases lheads with
  | nil =>
    have hdrop := take_append_drop (q - p) (str.drop p)
    rw [drop_drop, Nat.add_sub_cancel' hpq] at hdrop
    simp only [EncBuffer.copyFrom, hdrop]
  | cons head lheads =>
    have hoff := later head (mem_cons_self)
    simp only [EncBuffer.copyFrom]
    rw [show head.offset - p = q - p + (head.offset - q) by omega, split]
    simp

mutual
theorem heads_offset : (x : Item) → (off : Nat) → ∀ head ∈ heads off x, off ≤ head.offset
  | .str b, off => by simp [heads]
  | .list xs, off => by
      intro head member
      rw [heads] at member
      split at member
      · simp at member
      · rcases mem_cons.mp member with rfl | later
        · exact Nat.le_refl _
        · exact headsAll_offset xs off head later
theorem headsAll_offset : (xs : List Item) → (off : Nat) →
    ∀ head ∈ headsAll off xs, off ≤ head.offset
  | [], off => by simp [headsAll]
  | x :: xs, off => by
      intro head member
      rcases mem_append.mp (by rwa [headsAll] at member) with here | later
      · exact heads_offset x off head here
      · exact Nat.le_of_add_right_le (headsAll_offset xs _ head later)
end

mutual
theorem copyFrom_heads : (x : Item) → (pre post : Bytes) → (rest : List ListHead) →
    (∀ head ∈ rest, (pre ++ flat x).length ≤ head.offset) →
    EncBuffer.copyFrom (pre ++ flat x ++ post) (heads pre.length x ++ rest) pre.length =
      encode x ++ EncBuffer.copyFrom (pre ++ flat x ++ post) rest (pre ++ flat x).length
  | .str b, pre, post, rest, later => by
      rw [heads, nil_append, copyFrom_skip _ rest (q := (pre ++ flat (.str b)).length)
        (by simp) later]
      simp [flat, encode]
  | .list [], pre, post, rest, later => by
      simp only [heads, isEmpty_nil, if_true, nil_append]
      rw [copyFrom_skip _ rest (q := (pre ++ flat (.list [])).length) (by simp) later]
      simp [flat, encode, encodeAll, wrapList, puthead]
  | .list (y :: ys), pre, post, rest, later => by
      have hflat : flat (.list (y :: ys)) = flatAll (y :: ys) := by simp [flat]
      have hheads : heads pre.length (.list (y :: ys)) =
          ⟨pre.length, (encodeAll (y :: ys)).length⟩ :: headsAll pre.length (y :: ys) := by
        simp [heads]
      rw [hflat] at later ⊢
      rw [hheads, cons_append, EncBuffer.copyFrom,
        copyFrom_headsAll (y :: ys) pre post rest later, encode, wrapList]
      simp
theorem copyFrom_headsAll : (xs : List Item) → (pre post : Bytes) → (rest : List ListHead) →
    (∀ head ∈ rest, (pre ++ flatAll xs).length ≤ head.offset) →
    EncBuffer.copyFrom (pre ++ flatAll xs ++ post) (headsAll pre.length xs ++ rest) pre.length =
      encodeAll xs ++ EncBuffer.copyFrom (pre ++ flatAll xs ++ post) rest (pre ++ flatAll xs).length
  | [], pre, post, rest, later => by simp [headsAll, flatAll, encodeAll]
  | x :: xs, pre, post, rest, later => by
      have hstr : pre ++ flatAll (x :: xs) = pre ++ flat x ++ flatAll xs := by simp [flatAll]
      have hoff : headsAll (pre.length + (flat x).length) xs = headsAll (pre ++ flat x).length xs := by
        rw [length_append]
      rw [hstr] at later
      have first := copyFrom_heads x pre (flatAll xs ++ post)
        (headsAll (pre ++ flat x).length xs ++ rest) (by
          intro head member
          rcases mem_append.mp member with inner | outer
          · exact headsAll_offset xs _ head inner
          · have := later head outer
            rw [length_append] at this
            omega)
      have others := copyFrom_headsAll xs (pre ++ flat x) post rest later
      rw [← append_assoc] at first
      rw [hstr, headsAll, hoff, append_assoc (heads _ x), first, others, encodeAll,
        append_assoc (encode x)]
end

end Rendering

theorem encodeToBytes_eq (v : GoValue) : encodeToBytes v = (toItem v).map encode := by
  rw [encodeToBytes, write_eq]
  cases toItem v with
  | error e => rfl
  | ok x =>
    have h := copyFrom_heads x [] [] [] (by simp)
    simp only [nil_append, append_nil, length_nil] at h
    simp only [Except.map, EncBuffer.makeBytes, EncBuffer.put, EncBuffer.empty, nil_append,
      length_nil]
    rw [h]
    simp [EncBuffer.copyFrom]

end Anduschain
