import Anduschain.ChainTypes

/-! The pull decoder of package rlp. A stream hands out the values of its input one by one,
keeps the sizes of the lists it is in and caches the header ahead; a failed read leaves the
stream where it stopped. Reading is related to the items that the writer stands for. -/
namespace Anduschain.RlpStream
open ByteOrder RlpItem List

inductive StreamError where
  | eol
  | eof
  | unexpectedEof
  | expectedString
  | expectedList
  | canonInt
  | canonSize
  | elemTooLarge
  | valueTooLarge
  | moreThanOneValue
  | notInList
  | notAtEol
  | uintOverflow
  | decodeError (msg typ : String) (ctx : List String)
  deriving DecidableEq

/-- The kind of the value ahead; a single byte is held in its tag. -/
inductive Kind where
  | byte (byteval : UInt8)
  | string
  | list
  deriving DecidableEq

/-- `remaining` is the input limit where there is one, `stack` holds what is left of the lists,
innermost first, and `ahead` is what `Kind` has cached. -/
structure Stream where
  input : Bytes
  remaining : Option Nat
  stack : List Nat
  ahead : Option (Except StreamError (Kind × Nat))

def Reader (α : Type) : Type := Stream → Except StreamError α × Stream

namespace Reader

/-- The stream that a failed read leaves behind is what the next read starts from. -/
instance : Monad Reader where
  pure a := fun s => (.ok a, s)
  bind r k := fun s =>
    match r s with
    | (.ok a, s) => k a s
    | (.error e, s) => (.error e, s)

variable {α β : Type}

theorem pure_apply (a : α) (s : Stream) : (pure a : Reader α) s = (.ok a, s) := rfl

variable {r : Reader α} {k : α → Reader β} {s s' : Stream} {a : α} {f : StreamError → StreamError}

theorem bind_ok (read : r s = (.ok a, s')) : (r >>= k) s = k a s' := by
  simp only [bind, read]

theorem bind_error {e : StreamError}
    (read : r s = (.error e, s')) : (r >>= k) s = (.error e, s') := by
  simp only [bind, read]

theorem bind_ok_iff {b : β} :
    (r >>= k) s = (.ok b, s') ↔ ∃ a m, r s = (.ok a, m) ∧ k a m = (.ok b, s') := by
  constructor
  · intro read
    rcases first : r s with ⟨e | a, m⟩
    · rw [bind_error first] at read
      nomatch read
    · rw [bind_ok first] at read
      exact ⟨a, m, rfl, read⟩
  · rintro ⟨a, m, first, read⟩
    rw [bind_ok first, read]

def fail (e : StreamError) : Reader α := fun s => (.error e, s)

def mapError (f : StreamError → StreamError) (r : Reader α) : Reader α := fun s =>
  match r s with
  | (.ok a, s) => (.ok a, s)
  | (.error e, s) => (.error (f e), s)

theorem mapError_ok (read : r s = (.ok a, s')) : r.mapError f s = (.ok a, s') := by
  simp only [mapError, read]

theorem mapError_ok_iff : r.mapError f s = (.ok a, s') ↔ r s = (.ok a, s') := by
  rw [mapError]
  rcases r s with ⟨e | b, m⟩ <;> simp

theorem mapError_error
    {e : StreamError} (read : r s = (.error e, s')) : r.mapError f s = (.error (f e), s') := by
  simp only [mapError, read]

end Reader

open Reader

def rearm : Reader Unit := fun s => (.ok (), { s with ahead := none })

def spend (n : Nat) : Reader Unit := fun s =>
  match s.remaining with
  | some remaining =>
    if remaining < n then (.error .valueTooLarge, s)
    else (.ok (), { s with remaining := some (remaining - n) })
  | none => (.ok (), s)

/-- What is left of the innermost list goes down before the input limit is looked at. -/
def spendInList (n : Nat) : Reader Unit := fun s =>
  match s.stack with
  | limit :: outer =>
    if limit < n then (.error .elemTooLarge, s)
    else spend n { s with stack := (limit - n) :: outer }
  | [] => spend n s

def willRead (n : Nat) : Reader Unit := do
  rearm
  spendInList n

def takeBytes (n : Nat) : Reader Bytes := fun s =>
  if s.input.length < n then (.error .unexpectedEof, { s with input := [] })
  else (.ok (s.input.take n), { s with input := s.input.drop n })

def readFull (n : Nat) : Reader Bytes := do
  willRead n
  takeBytes n

def takeByte : Reader UInt8 := fun s =>
  match s.input with
  | x :: rest => (.ok x, { s with input := rest })
  | [] => (.error .unexpectedEof, s)

def readByte : Reader UInt8 := do
  willRead 1
  takeByte

/-- Up to eight bytes. A single one is taken as it is, longer ones have no leading zero. -/
def readUint (size : Nat) : Reader Nat :=
  if size = 0 then do
    rearm
    return 0
  else if size = 1 then do
    let b ← readByte
    return b.toNat
  else do
    let buffer ← readFull size
    if buffer.head? = some 0 then fail .canonSize else return beNat buffer

/-- A size of fewer than 56 bytes has no separate size field. -/
def readSize (kind : Kind) (count : Nat) : Reader (Kind × Nat) := do
  let size ← readUint count
  if size < 56 then fail .canonSize else return (kind, size)

/-- At top level the end of the input is reported as such. -/
def eofAtTop (depth : Nat) (e : StreamError) : StreamError :=
  if depth = 0 ∧ (e = .unexpectedEof ∨ e = .valueTooLarge) then .eof else e

def readTag : Reader UInt8 := fun s => readByte.mapError (eofAtTop s.stack.length) s

def readAfterTag (b : UInt8) : Reader (Kind × Nat) :=
  if b.toNat < 0x80 then return (.byte b, 0)
  else if b.toNat < 0xB8 then return (.string, b.toNat - 0x80)
  else if b.toNat < 0xC0 then readSize .string (b.toNat - 0xB7)
  else if b.toNat < 0xF8 then return (.list, b.toNat - 0xC0)
  else readSize .list (b.toNat - 0xF7)

def readKind : Reader (Kind × Nat) := do
  let b ← readTag
  readAfterTag b

/-- The value ahead against the list as it was before its tag, and against the input. -/
def checkSize (limit : Option Nat) (read : Except StreamError (Kind × Nat)) (s : Stream) :
    Except StreamError (Kind × Nat) :=
  match read with
  | .ok (kind, size) =>
    if limit.any (· < size) then .error .elemTooLarge
    else if s.remaining.any (· < size) then .error .valueTooLarge
    else .ok (kind, size)
  | .error e => .error e

/-- Errors are cached like headers, but for the end of a list. -/
def kind : Reader (Kind × Nat) := fun s =>
  match s.ahead with
  | some cached => (cached, s)
  | none =>
    if s.stack.head? = some 0 then (.error .eol, s)
    else
      let (read, s') := readKind s
      let cached := checkSize s.stack.head? read s'
      (cached, { s' with ahead := some cached })

def bytes : Reader Bytes := do
  match ← kind with
  | (.byte x, _) =>
    rearm
    return [x]
  | (.string, size) =>
    let b ← readFull size
    if size = 1 ∧ b.head?.any (· < 128) then fail .canonSize else return b
  | (.list, _) => fail .expectedString

/-- `ErrCanonSize` of an integer's bytes means a leading zero. -/
def canonIntError : StreamError → StreamError
  | .canonSize => .canonInt
  | e => e

def uint (maxbits : Nat) : Reader Nat := do
  match ← kind with
  | (.byte x, _) =>
    if x = 0 then fail .canonInt
    else
      rearm
      return x.toNat
  | (.string, size) =>
    if maxbits / 8 < size then fail .uintOverflow
    else
      let v ← (readUint size).mapError canonIntError
      if 0 < size ∧ v < 128 then fail .canonSize else return v
  | (.list, _) => fail .expectedString

def bigIntBuffer : Reader Bytes := do
  match ← kind with
  | (.list, _) => fail .expectedString
  | (.byte x, _) =>
    rearm
    return [x]
  | (.string, size) =>
    if size = 0 then
      rearm
      return []
    else
      let buffer ← readFull size
      if size = 1 ∧ buffer.head?.any (· < 128) then fail .canonSize else return buffer

def bigInt : Reader Nat := do
  let buffer ← bigIntBuffer
  if buffer.head? = some 0 then fail .canonInt else return beNat buffer

def wrapSub (a b : Nat) : Nat := if b ≤ a then a - b else a + 2 ^ 64 - b

/-- The stream inside a list of `size` bytes, which are taken off the outer list in advance. -/
def Stream.enter (s : Stream) (size : Nat) : Stream :=
  { s with stack := size :: s.stack.modifyHead (wrapSub · size), ahead := none }

def pushList (size : Nat) : Reader Nat := fun s => (.ok size, s.enter size)

def list : Reader Nat := do
  match ← kind with
  | (.list, size) => pushList size
  | _ => fail .expectedList

def listEnd : Reader Unit := fun s =>
  match s.stack with
  | [] => (.error .notInList, s)
  | limit :: outer =>
    if 0 < limit then (.error .notAtEol, s)
    else (.ok (), { s with stack := outer, ahead := none })

def wrapStreamError (typ : String) : StreamError → StreamError
  | .canonInt => .decodeError "non-canonical integer (leading zero bytes)" typ []
  | .canonSize => .decodeError "non-canonical size information" typ []
  | .expectedList => .decodeError "expected input list" typ []
  | .expectedString => .decodeError "expected input string or byte" typ []
  | .uintOverflow => .decodeError "input string too long" typ []
  | .notAtEol => .decodeError "input list has too many elements" typ []
  | e => e

def addErrorContext (ctx : String) : StreamError → StreamError
  | .decodeError msg typ ctxs => .decodeError msg typ (ctxs ++ [ctx])
  | e => e

def decodeUint : Reader UInt64 := do
  let num ← (uint 64).mapError (wrapStreamError "uint64")
  return UInt64.ofNat num

def decodeBigInt : Reader Nat := bigInt.mapError (wrapStreamError "*big.Int")

def decodeByteSlice : Reader Bytes := bytes.mapError (wrapStreamError "[]uint8")

/-- An array of `width` bytes as the number they spell. -/
def decodeByteArray (typ : String) (width : Nat) : Reader Nat := do
  match ← kind with
  | (.byte x, _) =>
    if width = 0 then fail (.decodeError "input string too long" typ [])
    else if 1 < width then fail (.decodeError "input string too short" typ [])
    else
      rearm
      return x.toNat
  | (.string, size) =>
    if width < size then fail (.decodeError "input string too long" typ [])
    else if size < width then fail (.decodeError "input string too short" typ [])
    else
      let slice ← readFull width
      if size = 1 ∧ slice.head?.any (· < 128) then
        fail (wrapStreamError typ .canonSize)
      else return beNat slice
  | (.list, _) => fail (wrapStreamError typ .expectedString)

def decodeHash : Reader Hash := do
  return BitVec.ofNat 256 (← decodeByteArray "common.Hash" 32)

def decodeAddress : Reader Address := do
  return BitVec.ofNat 160 (← decodeByteArray "common.Address" 20)

/-- A pointer with the tag `nil`: the empty string stands for no address. -/
def decodeNilAddress : Reader (Option Address) := do
  match ← kind.mapError (wrapStreamError "*common.Address") with
  | (.string, 0) =>
    rearm
    return none
  | (.list, 0) =>
    fail (.decodeError "wrong kind of empty value (got List, want String)"
      "*common.Address" [])
  | _ => return some (← decodeAddress)

/-- One field of a struct: the end of the list comes too early for it. -/
def field {α : Type} (typ name : String) (decoder : Reader α) : Reader α :=
  decoder.mapError fun e =>
    if e = .eol then .decodeError "too few elements" typ [] else addErrorContext ("." ++ name) e

def decodeStruct {α : Type} (typ : String) (fields : Reader α) : Reader α := do
  let _ ← list.mapError (wrapStreamError typ)
  let val ← fields
  listEnd.mapError (wrapStreamError typ)
  return val

def decodeSliceElems {α : Type} (elemdec : Reader α) : Nat → Nat → Reader (List α)
  | 0, _ => fail .unexpectedEof
  | fuel + 1, i => fun s =>
    match elemdec s with
    | (.error .eol, s) => (.ok [], s)
    | (.error e, s) => (.error (addErrorContext ("[" ++ toString i ++ "]") e), s)
    | (.ok val, s) => (do return val :: (← decodeSliceElems elemdec fuel (i + 1)) : Reader _) s

/-- Each element takes a byte at least, so that a fuel of more than the input's length is enough. -/
def decodeSlice {α : Type} (elemdec : Reader α) : Reader (List α) := fun s =>
  decodeSliceElems elemdec (s.input.length + 1) 0 s

def decodeListSlice {α : Type} (typ : String) (elemdec : Reader α) : Reader (List α) := do
  let size ← list.mapError (wrapStreamError typ)
  if size = 0 then
    listEnd
    return []
  else
    let vals ← decodeSlice elemdec
    listEnd
    return vals

def addTarget (typ : String) : StreamError → StreamError
  | .decodeError msg t (c :: ctx) => .decodeError msg t (c :: ctx ++ ["(" ++ typ ++ ")"])
  | e => e

def decodeInto {α : Type} (typ : String) (decoder : Reader α) : Reader α :=
  decoder.mapError (addTarget typ)

def Stream.new (b : Bytes) : Stream := ⟨b, some b.length, [], none⟩

def decodeBytes {α : Type} (decoder : Reader α) (b : Bytes) : Except StreamError α :=
  match decoder (.new b) with
  | (.ok val, s) => if 0 < s.input.length then .error .moreThanOneValue else .ok val
  | (.error e, _) => .error e

namespace Stream

def advance (s : Stream) (n : Nat) : Stream where
  input := s.input.drop n
  remaining := s.remaining.map (· - n)
  stack := s.stack.modifyHead (· - n)
  ahead := none

def opened (s : Stream) (n : Nat) (kind : Kind) (size : Nat) : Stream :=
  { s.advance n with ahead := some (.ok (kind, size)) }

/-- The bytes `b` come next, and no limit is in their way. -/
structure Ready (s : Stream) (b : Bytes) : Prop where
  rearmed : s.ahead = none
  next : b <+: s.input
  inList : ∀ limit ∈ s.stack.head?, b.length ≤ limit
  inInput : ∀ remaining ∈ s.remaining, b.length ≤ remaining
  sized : b.length < 2 ^ 64

structure Room (s : Stream) (n : Nat) : Prop where
  inInput : n ≤ s.input.length
  inList : ∀ limit ∈ s.stack.head?, n ≤ limit
  inLimit : ∀ remaining ∈ s.remaining, n ≤ remaining

variable {s : Stream} {a b : Bytes}

theorem Ready.room (ready : s.Ready b) : s.Room b.length :=
  ⟨ready.next.length_le, ready.inList, ready.inInput⟩

theorem advance_advance (s : Stream) (m n : Nat) : (s.advance m).advance n = s.advance (m + n) := by
  cases s with
  | mk input remaining stack ahead =>
    simp only [advance, drop_drop, Option.map_map, mk.injEq, true_and, and_true]
    constructor
    · congr 1
      funext r
      simp only [Function.comp]
      omega
    · cases stack with
      | nil => rfl
      | cons limit outer =>
        simp only [modifyHead_cons, List.cons.injEq, and_true]
        omega

theorem Ready.left (ready : s.Ready (a ++ b)) : s.Ready a where
  rearmed := ready.rearmed
  next := (prefix_append a b).trans ready.next
  inList limit top := (prefix_append a b).length_le.trans (ready.inList limit top)
  inInput r left := (prefix_append a b).length_le.trans (ready.inInput r left)
  sized := (prefix_append a b).length_le.trans_lt ready.sized

theorem Ready.right (ready : s.Ready (a ++ b)) :
    (s.advance a.length).Ready b where
  rearmed := rfl
  next := by
    obtain ⟨rest, split⟩ := ready.next
    refine ⟨rest, ?_⟩
    simp [advance, ← split, append_assoc]
  inList limit top := by
    cases known : s.stack with
    | nil => simp [advance, known] at top
    | cons outer stack =>
      have := ready.inList outer (by simp [known])
      simp [advance, known] at top
      rw [length_append] at this
      omega
  inInput r left := by
    cases known : s.remaining with
    | none => simp [advance, known] at left
    | some room =>
      have := ready.inInput room known
      simp [advance, known] at left
      rw [length_append] at this
      omega
  sized := (suffix_append a b).length_le.trans_lt ready.sized

theorem Ready.take (ready : s.Ready b) : s.input.take b.length = b := by
  obtain ⟨rest, split⟩ := ready.next
  simp [← split]

theorem advance_zero (rearmed : s.ahead = none) : s.advance 0 = s := by
  cases s with
  | mk input remaining stack ahead =>
    cases rearmed
    cases stack <;> simp [advance]

end Stream

variable {s s' : Stream} {n size w : Nat} {b : Bytes} {x : UInt8} {k ahead : Kind}

theorem willRead_iff : willRead n s = (.ok (), s') ↔
    (∀ limit ∈ s.stack.head?, n ≤ limit) ∧ (∀ remaining ∈ s.remaining, n ≤ remaining) ∧
      s' = { s.advance n with input := s.input } := by
  cases s with
  | mk input remaining stack ahead =>
    rcases stack with _ | ⟨limit, outer⟩ <;> rcases remaining with _ | r <;>
      simp only [willRead, rearm, bind, spendInList, spend, Stream.advance, head?_nil,
        head?_cons, Option.mem_def, Option.some.injEq, forall_eq', reduceCtorEq, false_implies,
        implies_true, true_and, modifyHead_nil, modifyHead_cons, Option.map_none,
        Option.map_some] <;> grind

theorem readFull_iff : readFull n s = (.ok b, s') ↔
    s.Room n ∧ b = s.input.take n ∧ s' = s.advance n := by
  rw [readFull, bind_ok_iff]
  constructor
  · rintro ⟨⟨⟩, m, willing, taken⟩
    obtain ⟨inList, inLimit, rfl⟩ := willRead_iff.mp willing
    simp only [takeBytes] at taken
    split at taken
    · nomatch taken
    · rename_i long
      cases taken
      exact ⟨⟨Nat.not_lt.mp long, inList, inLimit⟩, rfl, rfl⟩
  · rintro ⟨room, rfl, rfl⟩
    refine ⟨(), _, willRead_iff.mpr ⟨room.inList, room.inLimit, rfl⟩, ?_⟩
    simp only [takeBytes, if_neg (Nat.not_lt.mpr room.inInput)]
    rfl

theorem readByte_iff : readByte s = (.ok x, s') ↔
    s.Room 1 ∧ s.input.head? = some x ∧ s' = s.advance 1 := by
  rw [readByte, bind_ok_iff]
  constructor
  · rintro ⟨⟨⟩, m, willing, taken⟩
    obtain ⟨inList, inLimit, rfl⟩ := willRead_iff.mp willing
    cases known : s.input with
    | nil => simp [takeByte, known] at taken
    | cons y rest =>
      simp only [takeByte, known] at taken
      cases taken
      exact ⟨⟨by simp [known], inList, inLimit⟩, rfl, by simp [Stream.advance, known]⟩
  · rintro ⟨room, first, rfl⟩
    refine ⟨(), _, willRead_iff.mpr ⟨room.inList, room.inLimit, rfl⟩, ?_⟩
    obtain ⟨rest, known⟩ := head?_eq_some_iff.mp first
    simp [takeByte, known, Stream.advance]

theorem readFull_ready (ready : s.Ready b) : readFull b.length s = (.ok b, s.advance b.length) :=
  readFull_iff.mpr ⟨ready.room, ready.take.symm, rfl⟩

theorem readByte_ready (ready : s.Ready [x]) : readByte s = (.ok x, s.advance 1) := by
  obtain ⟨rest, split⟩ := ready.next
  exact readByte_iff.mpr ⟨ready.room, by rw [← split]; rfl, rfl⟩

theorem readUint_ready (pos : n ≠ 0) (ready : s.Ready (beBytes n)) :
    readUint (beLen n) s = (.ok n, s.advance (beLen n)) := by
  have len : (beBytes n).length = beLen n := beBytes_length n
  unfold readUint
  rw [if_neg (Nat.ne_of_gt (beLen_pos pos))]
  split
  · rename_i one
    rw [one] at len
    obtain ⟨x, single⟩ := length_eq_one_iff.mp len
    have value : x.toNat = n := by rw [← beNat_beBytes n, single, beNat_single]
    rw [single] at ready
    rw [bind_ok (readByte_ready ready), pure_apply, value, one]
  · have read := readFull_ready ready
    rw [len] at read
    rw [bind_ok read, if_neg (beBytes_head_ne n), pure_apply, beNat_beBytes]

theorem readTag_ready (ready : s.Ready [x]) :
    readTag s = (.ok x, s.advance 1) := mapError_ok (readByte_ready ready)

theorem readSize_ready (k : Kind) (large : 56 ≤ n)
    (ready : s.Ready (beBytes n)) : readSize k (beLen n) s = (.ok (k, n), s.advance (beLen n)) := by
  rw [readSize, bind_ok (readUint_ready (by omega) ready), if_neg (by omega), pure_apply]

variable {smalltag largetag : Nat} {head payload : Bytes} {xs : List Item} {α : Type}

theorem readKind_puthead
    (tags : k = .string ∧ smalltag = 0x80 ∧ largetag = 0xB7 ∨
      k = .list ∧ smalltag = 0xC0 ∧ largetag = 0xF7)
    (fits : size < 2 ^ 64) (ready : s.Ready (puthead smalltag largetag size)) :
    readKind s = (.ok (k, size), s.advance (puthead smalltag largetag size).length) := by
  have short := beLen_of_sized fits
  by_cases small : size < 56
  · simp only [puthead, if_pos small] at ready ⊢
    have tag := tag_toNat (n := smalltag + size) (by omega)
    rw [readKind, bind_ok (readTag_ready ready), readAfterTag, tag, if_neg (by omega)]
    rcases tags with ⟨rfl, rfl, rfl⟩ | ⟨rfl, rfl, rfl⟩
    · rw [if_pos (by omega), Nat.add_sub_cancel_left]
      rfl
    · rw [if_neg (by omega), if_neg (by omega), if_pos (by omega), Nat.add_sub_cancel_left]
      rfl
  · simp only [puthead, if_neg small] at ready ⊢
    have pos := beLen_pos (n := size) (by omega)
    have tag := tag_toNat (n := largetag + beLen size) (by omega)
    have parts : s.Ready ([UInt8.ofNat (largetag + beLen size)] ++ beBytes size) := ready
    have sized := readSize_ready k (Nat.not_lt.mp small) parts.right
    rw [Stream.advance_advance] at sized
    rw [readKind, bind_ok (readTag_ready parts.left), readAfterTag, tag,
      if_neg (by omega), if_neg (by omega), length_cons, beBytes_length,
      Nat.add_comm (beLen size) 1]
    rcases tags with ⟨rfl, rfl, rfl⟩ | ⟨rfl, rfl, rfl⟩
    · rw [if_pos (by omega), Nat.add_sub_cancel_left]
      exact sized
    · rw [if_neg (by omega), if_neg (by omega), Nat.add_sub_cancel_left]
      exact sized

theorem kind_opened (ne : head ≠ [])
    (ready : s.Ready (head ++ payload)) (fits : size ≤ payload.length)
    (read : readKind s = (.ok (k, size), s.advance head.length)) :
    kind s = (.ok (k, size), s.opened head.length k size) := by
  have pos := length_pos_iff.mpr ne
  have rest := ready.right
  obtain ⟨rearmed, -, inList, -, -⟩ := ready
  rw [length_append] at inList
  have within : s.stack.head?.any (· < size) = false := by
    rw [Option.any_eq_false]
    intro limit top
    have := inList limit top
    exact decide_eq_false (by omega)
  have inInput : (s.advance head.length).remaining.any (· < size) = false := by
    rw [Option.any_eq_false]
    intro r left
    have := rest.inInput r left
    exact decide_eq_false (by omega)
  have going : s.stack.head? ≠ some 0 := by
    intro zero
    have := inList 0 zero
    omega
  simp only [kind, rearmed, if_neg going, read, checkSize, within, inInput, Bool.false_eq_true,
    if_false]
  rfl

theorem kind_cached (s : Stream) (n : Nat) (k : Kind) (size : Nat) :
    kind (s.opened n k size) = (.ok (k, size), s.opened n k size) := rfl

theorem kind_eol (rearmed : s.ahead = none) (ended : s.stack.head? = some 0) :
    kind s = (.error .eol, s) := by
  simp only [kind, rearmed, if_pos ended]

theorem kind_byte (low : x < 0x80) (ready : s.Ready [x]) :
    kind s = (.ok (.byte x, 0), s.opened 1 (.byte x) 0) := by
  have tag : x.toNat < 0x80 := UInt8.lt_iff_toNat_lt.mp low
  have read : readKind s = (.ok (.byte x, 0), s.advance [x].length) := by
    rw [readKind, bind_ok (readTag_ready ready), readAfterTag, if_pos tag]
    rfl
  have whole : s.Ready ([x] ++ []) := ready
  exact kind_opened (cons_ne_nil x []) whole (Nat.le_refl _) read

theorem kind_puthead
    (tags : k = .string ∧ smalltag = 0x80 ∧ largetag = 0xB7 ∨
      k = .list ∧ smalltag = 0xC0 ∧ largetag = 0xF7)
    (ready : s.Ready (puthead smalltag largetag payload.length ++ payload)) :
    kind s = (.ok (k, payload.length),
      s.opened (puthead smalltag largetag payload.length).length k payload.length) := by
  have fits : payload.length < 2 ^ 64 := ready.right.sized
  exact kind_opened (puthead_ne_nil _ _ _) ready (Nat.le_refl _)
    (readKind_puthead tags fits ready.left)

section Reading
variable {α β : Type} {r : Reader α} {k : α → Reader β} {x : Item} {xs : List Item} {a : α} {b : β}

def Reads (r : Reader α) (x : Item) (a : α) : Prop :=
  ∀ s : Stream, s.Ready (encode x) → r s = (.ok a, s.advance (encode x).length)

def Settles (r : Reader α) : Prop :=
  ∀ (s : Stream) (x : Item), s.Ready (encode x) →
    (∃ e s', r s = (.error e, s')) ∨ ∃ a, r s = (.ok a, s.advance (encode x).length)

structure Stream.Inside (s : Stream) (xs : List Item) : Prop where
  ready : s.Ready (encodeAll xs)
  last : s.stack.head? = some (encodeAll xs).length

def Drains (r : Reader α) (xs : List Item) (a : α) : Prop :=
  ∀ s : Stream, s.Inside xs → r s = (.ok a, s.advance (encodeAll xs).length)

def Fails (r : Reader α) (s : Stream) : Prop := ∃ e s', r s = (.error e, s') ∧ e ≠ .eol

def Rejects (r : Reader α) (x : Item) : Prop := ∀ s : Stream, s.Ready (encode x) → Fails r s

def Starves (r : Reader α) (xs : List Item) : Prop := ∀ s : Stream, s.Inside xs → Fails r s

variable {ys : List Item} {typ name : String} {fields : Reader α} {as : List α}

theorem Stream.Inside.tail (inside : s.Inside (x :: xs)) :
    (s.advance (encode x).length).Inside xs where
  ready := inside.ready.right
  last := by
    have last := inside.last
    cases known : s.stack with
    | nil => simp [known] at last
    | cons limit outer =>
      simp only [known, head?_cons, Option.some.injEq, encodeAll, length_append] at last
      simp only [Stream.advance, known, modifyHead_cons, head?_cons, last, Nat.add_sub_cancel_left]

theorem reads_mapError {f : StreamError → StreamError} (reads : Reads r x a) :
    Reads (r.mapError f) x a := fun s ready => mapError_ok (reads s ready)

theorem settles_mapError {f : StreamError → StreamError} (settles : Settles r) :
    Settles (r.mapError f) := by
  intro s x ready
  rcases settles s x ready with ⟨e, s', read⟩ | ⟨a, read⟩
  · exact .inl ⟨f e, s', mapError_error read⟩
  · exact .inr ⟨a, mapError_ok read⟩

theorem reads_map {f : α → β} (reads : Reads r x a) : Reads (do return f (← r)) x (f a) := by
  intro s ready
  rw [bind_ok (reads s ready), pure_apply]

theorem settles_map {f : α → β} (settles : Settles r) : Settles (do return f (← r)) := by
  intro s x ready
  rcases settles s x ready with ⟨e, s', read⟩ | ⟨a, read⟩
  · exact .inl ⟨e, s', bind_error read⟩
  · exact .inr ⟨f a, bind_ok read⟩

theorem drains_pure (a : α) : Drains (pure a) [] a := by
  intro s inside
  have here : s.advance 0 = s := Stream.advance_zero inside.ready.rearmed
  rw [pure_apply, encodeAll, length_nil, here]

theorem drains_bind (reads : Reads r x a) (drains : Drains (k a) xs b) :
    Drains (r >>= k) (x :: xs) b := by
  intro s inside
  rw [bind_ok (reads s inside.ready.left), drains _ inside.tail, Stream.advance_advance,
    encodeAll, length_append]

def Ends (r : Reader α) : Prop :=
  ∀ s : Stream, s.ahead = none → s.stack.head? = some 0 → r s = (.error .eol, s)

theorem ends_kind : Ends kind := fun _ rearmed ended => kind_eol rearmed ended

theorem ends_bind (ends : Ends r) : Ends (r >>= k) :=
  fun s rearmed ended => bind_error (ends s rearmed ended)

theorem ends_wrap (ends : Ends r) : Ends (r.mapError (wrapStreamError typ)) :=
  fun s rearmed ended => mapError_error (ends s rearmed ended)

theorem reads_field (reads : Reads r x a) : Reads (field typ name r) x a :=
  reads_mapError reads

theorem drains_field (reads : Reads r x a) (drains : Drains (k a) xs b) :
    Drains (field typ name r >>= k) (x :: xs) b :=
  drains_bind (reads_field reads) drains

theorem field_fails {e : StreamError}
    (failed : r s = (.error e, s')) : Fails (field typ name r >>= k) s := by
  refine ⟨_, s', bind_error (mapError_error failed), ?_⟩
  split
  · exact nofun
  · rename_i other
    cases e <;> simp_all [addErrorContext]

theorem starves_end (ends : Ends r) : Starves (field typ name r >>= k) [] :=
  fun s inside => field_fails (ends s inside.ready.rearmed inside.last)

theorem starves_rejects (rejects : Rejects r x) : Starves (field typ name r >>= k) (x :: xs) := by
  intro s inside
  obtain ⟨e, s', failed, -⟩ := rejects s inside.ready.left
  exact field_fails failed

theorem starves_bind (reads : Reads r x a) (starves : Starves (k a) xs) :
    Starves (r >>= k) (x :: xs) := by
  intro s inside
  obtain ⟨e, s', failed, proper⟩ := starves _ inside.tail
  exact ⟨e, s', by rw [bind_ok (reads s inside.ready.left), failed], proper⟩

/-- The reader fails on every list of at most `n` items. -/
def Wants (n : Nat) (r : Reader α) : Prop := ∀ xs : List Item, xs.length ≤ n → Starves r xs

theorem wants_last (ends : Ends r) : Wants 0 (field typ name r >>= k) := by
  intro xs none
  obtain rfl : xs = [] := length_eq_zero_iff.mp (Nat.le_zero.mp none)
  exact starves_end ends

theorem wants_field (settles : Settles r) (ends : Ends r)
    (wants : ∀ a, Wants n (k a)) : Wants (n + 1) (field typ name r >>= k) := by
  intro xs few
  cases xs with
  | nil => exact starves_end ends
  | cons x xs =>
    intro s inside
    rcases settles s x inside.ready.left with ⟨e, s', failed⟩ | ⟨a, read⟩
    · exact field_fails failed
    · have taken : field typ name r s = (.ok a, s.advance (encode x).length) :=
        mapError_ok read
      obtain ⟨e, s', failed, proper⟩ := wants a xs (Nat.le_of_succ_le_succ few) _ inside.tail
      exact ⟨e, s', by rw [bind_ok taken, failed], proper⟩

theorem fails_decodeInto (fails : Fails r s) : Fails (decodeInto typ r) s := by
  obtain ⟨e, s', failed, proper⟩ := fails
  refine ⟨addTarget typ e, s', mapError_error failed, ?_⟩
  unfold addTarget
  split
  · exact nofun
  · exact proper

theorem list_enter (ready : s.Ready (encode (.list xs))) :
    list s = (.ok (encodeAll xs).length,
      (s.advance (puthead 0xC0 0xF7 (encodeAll xs).length).length).enter (encodeAll xs).length) := by
  rw [encode, wrapList] at ready
  rw [list, bind_ok (kind_puthead (.inr ⟨rfl, rfl, rfl⟩) ready)]
  rfl

theorem enter_inside (ready : s.Ready (encodeAll xs)) :
    (s.enter (encodeAll xs).length).Inside xs where
  ready :=
    { rearmed := rfl
      next := ready.next
      inList := by
        intro limit top
        obtain rfl : (encodeAll xs).length = limit := by simpa [Stream.enter] using top
        exact Nat.le_refl _
      inInput := ready.inInput
      sized := ready.sized }
  last := rfl

theorem listEnd_left (room : ∀ limit ∈ s.stack.head?, n ≤ limit) :
    listEnd ((s.enter n).advance n) = (.ok (), s.advance n) := by
  cases known : s.stack with
  | nil => simp [listEnd, Stream.enter, Stream.advance, known]
  | cons limit outer =>
    have fits := room limit (by simp [known])
    simp [listEnd, Stream.enter, Stream.advance, known, wrapSub, fits]

theorem reads_struct (drains : Drains fields xs a) :
    Reads (decodeStruct typ fields) (.list xs) a := by
  intro s ready
  have entered := list_enter ready
  rw [encode, wrapList] at ready
  have body := drains _ (enter_inside ready.right)
  have left := listEnd_left ready.right.inList
  rw [decodeStruct, bind_ok (mapError_ok entered), bind_ok body,
    bind_ok (mapError_ok left), pure_apply, Stream.advance_advance, encode,
    wrapList, length_append]

theorem rejects_struct (starves : Starves fields xs) :
    Rejects (decodeStruct typ fields) (.list xs) := by
  intro s ready
  have entered := list_enter ready
  rw [encode, wrapList] at ready
  obtain ⟨e, s', failed, proper⟩ := starves _ (enter_inside ready.right)
  refine ⟨e, s', ?_, proper⟩
  rw [decodeStruct, bind_ok (mapError_ok entered), bind_error failed]

theorem ends_struct : Ends (decodeStruct typ fields) :=
  ends_bind (ends_wrap (ends_bind ends_kind))

theorem sliceElems_cons {fuel i : Nat} (read : r s = (.ok a, s')) :
    decodeSliceElems r (fuel + 1) i s =
      (do return a :: (← decodeSliceElems r fuel (i + 1)) : Reader (List α)) s' := by
  simp only [decodeSliceElems, read]

variable (each : List.Forall₂ (Reads r) xs as)
include each

theorem drains_sliceElems (ends : Ends r)
    (fuel i : Nat) (enough : (encodeAll xs).length ≤ fuel) :
    Drains (decodeSliceElems r (fuel + 1) i) xs as := by
  induction each generalizing fuel i with
  | nil =>
    intro s inside
    have ended := ends s inside.ready.rearmed inside.last
    have here : s.advance 0 = s := Stream.advance_zero inside.ready.rearmed
    simp only [decodeSliceElems, ended, encodeAll, length_nil, here]
  | @cons x a xs as reads _ ih =>
    intro s inside
    have some := length_pos_iff.mpr (encode_ne_nil x)
    rw [encodeAll, length_append] at enough ⊢
    obtain ⟨fuel, rfl⟩ : ∃ fewer, fuel = fewer + 1 := ⟨fuel - 1, by omega⟩
    have rest := ih fuel (i + 1) (by omega) _ inside.tail
    rw [sliceElems_cons (reads s inside.ready.left), bind_ok rest, pure_apply,
      Stream.advance_advance]

theorem starves_sliceElems (rejects : Rejects r x) (fuel i : Nat)
    (enough : (encodeAll (xs ++ x :: ys)).length ≤ fuel) :
    Starves (decodeSliceElems r (fuel + 1) i) (xs ++ x :: ys) := by
  induction each generalizing fuel i with
  | nil =>
    intro s inside
    obtain ⟨e, s', failed, proper⟩ := rejects s inside.ready.left
    refine ⟨addErrorContext ("[" ++ toString i ++ "]") e, s', ?_, ?_⟩
    · cases e <;> simp_all [decodeSliceElems]
    · cases e <;> simp_all [addErrorContext]
  | @cons y a xs as reads _ ih =>
    intro s inside
    have some := length_pos_iff.mpr (encode_ne_nil y)
    rw [cons_append, encodeAll, length_append] at enough
    obtain ⟨fuel, rfl⟩ : ∃ fewer, fuel = fewer + 1 := ⟨fuel - 1, by omega⟩
    obtain ⟨e, s', failed, proper⟩ := ih fuel (i + 1) (by omega) _ inside.tail
    refine ⟨e, s', ?_, proper⟩
    rw [sliceElems_cons (reads s inside.ready.left), bind_error failed]

theorem reads_listSlice (ends : Ends r) : Reads (decodeListSlice typ r) (.list xs) as := by
  intro s ready
  have entered := list_enter ready
  rw [encode, wrapList] at ready
  have left := listEnd_left ready.right.inList
  rw [decodeListSlice, bind_ok (mapError_ok entered), encode, wrapList,
    length_append, ← Stream.advance_advance]
  split
  · rename_i empty
    have none : xs = [] := by
      cases xs with
      | nil => rfl
      | cons x xs => simp [encodeAll, encode_ne_nil] at empty
    subst none
    cases each
    have here := Stream.advance_zero (s := ((s.advance (puthead 192 247 0).length).enter 0)) rfl
    rw [encodeAll, length_nil, here] at left
    rw [encodeAll, length_nil, bind_ok left, pure_apply]
  · have inside := enter_inside ready.right
    have body : decodeSlice r _ = _ :=
      drains_sliceElems each ends _ 0 inside.ready.next.length_le _ inside
    rw [bind_ok body, bind_ok left, pure_apply]

theorem rejects_listSlice (rejects : Rejects r x) :
    Rejects (decodeListSlice typ r) (.list (xs ++ x :: ys)) := by
  intro s ready
  have entered := list_enter ready
  rw [encode, wrapList] at ready
  have some : (encodeAll (xs ++ x :: ys)).length ≠ 0 := by
    simp [encodeAll_eq_flatMap, encode_ne_nil]
  have inside := enter_inside ready.right
  obtain ⟨e, s', failed, proper⟩ :=
    starves_sliceElems each rejects _ 0 inside.ready.next.length_le _ inside
  have stopped : decodeSlice r _ = _ := failed
  refine ⟨e, s', ?_, proper⟩
  rw [decodeListSlice, bind_ok (mapError_ok entered), if_neg some, bind_error stopped]

end Reading

theorem encode_str_cases (b : Bytes) :
    (∃ x, b = [x] ∧ x < 0x80 ∧ encode (.str b) = [x]) ∨
      ¬ (b.length = 1 ∧ b.head?.any (· < 128)) ∧
        encode (.str b) = puthead 0x80 0xB7 b.length ++ b := by
  by_cases low : b.length = 1 ∧ b.head?.any (· < 128)
  · obtain ⟨x, rfl⟩ := length_eq_one_iff.mp low.1
    have small : x < 0x80 := by simpa using low.2
    exact .inl ⟨x, rfl, small, by rw [encode, encodeStr, if_pos small]⟩
  · refine .inr ⟨low, ?_⟩
    rw [encode]
    by_cases one : b.length = 1
    · obtain ⟨x, rfl⟩ := length_eq_one_iff.mp one
      have high : ¬ x < 0x80 := fun small => low ⟨rfl, by simpa using small⟩
      rw [encodeStr, if_neg high]
      rfl
    · exact EncBuffer.encodeStr_of_length_ne one

theorem readFull_opened (s : Stream) (n m size : Nat) (k : Kind) :
    readFull n (s.opened m k size) = readFull n (s.advance m) := rfl

theorem readUint_opened (s : Stream) (n m size : Nat) (k : Kind) :
    readUint n (s.opened m k size) = readUint n (s.advance m) := by
  unfold readUint
  split_ifs <;> rfl

theorem rearm_opened (s : Stream) (m size : Nat) (k : Kind) :
    rearm (s.opened m k size) = (.ok (), s.advance m) := rfl

theorem readFull_payload (ready : s.Ready (head ++ b)) :
    readFull b.length (s.opened head.length k b.length) =
      (.ok b, s.advance (head ++ b).length) := by
  rw [readFull_opened, readFull_ready ready.right, Stream.advance_advance, length_append]

theorem reads_bytes (b : Bytes) : Reads bytes (.str b) b := by
  intro s ready
  rcases encode_str_cases b with ⟨x, rfl, low, written⟩ | ⟨canonical, written⟩
  · rw [written] at ready ⊢
    rw [bytes, bind_ok (kind_byte low ready)]
    rfl
  · rw [written] at ready ⊢
    rw [bytes, bind_ok (kind_puthead (.inl ⟨rfl, rfl, rfl⟩) ready)]
    simp only
    rw [bind_ok (readFull_payload ready), if_neg canonical, pure_apply]

theorem kind_list (ready : s.Ready (encode (.list xs))) :
    ∃ s', kind s = (.ok (.list, (encodeAll xs).length), s') := by
  rw [encode, wrapList] at ready
  exact ⟨_, kind_puthead (.inr ⟨rfl, rfl, rfl⟩) ready⟩

theorem settles_bytes : Settles bytes := by
  intro s x ready
  cases x with
  | str b => exact .inr ⟨b, reads_bytes b s ready⟩
  | list xs =>
    obtain ⟨s', ahead⟩ := kind_list ready
    exact .inl ⟨.expectedString, s', bind_ok ahead⟩

theorem reads_bigIntBuffer (b : Bytes) : Reads bigIntBuffer (.str b) b := by
  intro s ready
  rcases encode_str_cases b with ⟨x, rfl, low, written⟩ | ⟨canonical, written⟩
  · rw [written] at ready ⊢
    rw [bigIntBuffer, bind_ok (kind_byte low ready)]
    rfl
  · rw [written] at ready ⊢
    rw [bigIntBuffer, bind_ok (kind_puthead (.inl ⟨rfl, rfl, rfl⟩) ready)]
    simp only
    by_cases empty : b.length = 0
    · obtain rfl : b = [] := length_eq_zero_iff.mp empty
      rfl
    · rw [if_neg empty, bind_ok (readFull_payload ready), if_neg canonical, pure_apply]

theorem settles_bigInt : Settles bigInt := by
  intro s x ready
  cases x with
  | str b =>
    by_cases zero : b.head? = some 0
    · refine .inl ⟨.canonInt, s.advance (encode (.str b)).length, ?_⟩
      rw [bigInt, bind_ok (reads_bigIntBuffer b s ready), if_pos zero, fail]
    · refine .inr ⟨beNat b, ?_⟩
      rw [bigInt, bind_ok (reads_bigIntBuffer b s ready), if_neg zero, pure_apply]
  | list xs =>
    obtain ⟨s', ahead⟩ := kind_list ready
    exact .inl ⟨.expectedString, s', bind_error (bind_ok ahead)⟩

theorem reads_bigInt (n : Nat) : Reads bigInt (.str (beBytes n)) n := by
  intro s ready
  rw [bigInt, bind_ok (reads_bigIntBuffer _ s ready), if_neg (beBytes_head_ne n),
    pure_apply, beNat_beBytes]

theorem readUint_settles (ready : s.Ready b) :
    (∃ e s', readUint b.length s = (.error e, s')) ∨
      readUint b.length s = (.ok (beNat b), s.advance b.length) := by
  unfold readUint
  split
  · rename_i empty
    obtain rfl : b = [] := length_eq_zero_iff.mp empty
    have here : s.advance 0 = s := Stream.advance_zero ready.rearmed
    have still : rearm s = (.ok (), s) := by rw [rearm, ← ready.rearmed]
    rw [bind_ok still, length_nil, here]
    exact .inr rfl
  · split
    · rename_i one
      obtain ⟨x, rfl⟩ := length_eq_one_iff.mp one
      rw [bind_ok (readByte_ready ready), beNat_single]
      exact .inr rfl
    · rw [bind_ok (readFull_ready ready)]
      split
      · exact .inl ⟨_, _, rfl⟩
      · exact .inr rfl

theorem settles_uint (maxbits : Nat) : Settles (uint maxbits) := by
  intro s x ready
  cases x with
  | str b =>
    rcases encode_str_cases b with ⟨x, rfl, low, written⟩ | ⟨-, written⟩
    · rw [written] at ready ⊢
      rw [uint, bind_ok (kind_byte low ready)]
      simp only
      split
      · exact .inl ⟨_, _, rfl⟩
      · exact .inr ⟨_, rfl⟩
    · rw [written] at ready ⊢
      rw [uint, bind_ok (kind_puthead (.inl ⟨rfl, rfl, rfl⟩) ready)]
      simp only
      split
      · exact .inl ⟨_, _, rfl⟩
      · rcases readUint_settles ready.right with ⟨e, s', failed⟩ | read
        · rw [← readUint_opened _ _ _ b.length .string] at failed
          exact .inl ⟨_, _, bind_error (mapError_error failed)⟩
        · rw [← readUint_opened _ _ _ b.length .string, Stream.advance_advance,
            ← length_append] at read
          rw [bind_ok (mapError_ok read)]
          split
          · exact .inl ⟨_, _, rfl⟩
          · exact .inr ⟨_, rfl⟩
  | list xs =>
    obtain ⟨s', ahead⟩ := kind_list ready
    exact .inl ⟨.expectedString, s', bind_ok ahead⟩

theorem reads_uint (fits : n < 2 ^ 64) : Reads (uint 64) (.str (beBytes n)) n := by
  intro s ready
  rcases encode_str_cases (beBytes n) with ⟨x, single, low, written⟩ | ⟨canonical, written⟩
  · have value : x.toNat = n := by rw [← beNat_beBytes n, single, beNat_single]
    have pos : x ≠ 0 := by
      rintro rfl
      exact beBytes_head_ne n (by rw [single]; rfl)
    rw [written] at ready ⊢
    rw [uint, bind_ok (kind_byte low ready)]
    simp only
    rw [if_neg pos, bind_ok (rearm_opened s 1 0 (.byte x)), pure_apply, value]
    rfl
  · rw [written] at ready ⊢
    have short : ¬ 64 / 8 < (beBytes n).length := by
      have := beLen_of_sized fits
      rw [beBytes_length]
      omega
    rw [uint, bind_ok (kind_puthead (.inl ⟨rfl, rfl, rfl⟩) ready)]
    simp only
    rw [if_neg short]
    by_cases zero : n = 0
    · subst zero
      rfl
    · have read := readUint_ready zero ready.right
      rw [← beBytes_length, ← readUint_opened _ _ _ (beBytes n).length .string,
        Stream.advance_advance, ← length_append] at read
      rw [bind_ok (mapError_ok read), if_neg, pure_apply]
      rintro ⟨-, low⟩
      exact canonical (beBytes_low zero low)

theorem reads_decodeUint (i : UInt64) : Reads decodeUint (.str (beBytes i.toNat)) i := by
  have reads := reads_map (f := UInt64.ofNat) (reads_mapError (f := wrapStreamError "uint64")
    (reads_uint i.toNat_lt))
  rwa [UInt64.ofNat_toNat] at reads

theorem settles_decodeUint : Settles decodeUint := settles_map (settles_mapError (settles_uint 64))

theorem ends_decodeUint : Ends decodeUint := ends_bind (ends_wrap (ends_bind ends_kind))

theorem reads_decodeBigInt (n : Nat) : Reads decodeBigInt (.str (beBytes n)) n :=
  reads_mapError (reads_bigInt n)

theorem settles_decodeBigInt : Settles decodeBigInt := settles_mapError settles_bigInt

theorem ends_decodeBigInt : Ends decodeBigInt := ends_wrap (ends_bind (ends_bind ends_kind))

theorem reads_decodeByteSlice (b : Bytes) : Reads decodeByteSlice (.str b) b :=
  reads_mapError (reads_bytes b)

theorem settles_decodeByteSlice : Settles decodeByteSlice := settles_mapError settles_bytes

theorem ends_decodeByteSlice : Ends decodeByteSlice := ends_wrap (ends_bind ends_kind)

theorem reads_decodeByteArray (typ : String) (wide : 1 < b.length) :
    Reads (decodeByteArray typ b.length) (.str b) (beNat b) := by
  intro s ready
  rcases encode_str_cases b with ⟨x, rfl, -, -⟩ | ⟨canonical, written⟩
  · exact absurd wide (Nat.lt_irrefl 1)
  · rw [written] at ready ⊢
    rw [decodeByteArray, bind_ok (kind_puthead (.inl ⟨rfl, rfl, rfl⟩) ready)]
    simp only
    rw [if_neg (Nat.lt_irrefl _), if_neg (Nat.lt_irrefl _),
      bind_ok (readFull_payload ready), if_neg canonical, pure_apply]

theorem settles_decodeByteArray (typ : String) (wide : 1 < w) :
    Settles (decodeByteArray typ w) := by
  intro s x ready
  cases x with
  | str b =>
    rcases encode_str_cases b with ⟨x, rfl, low, written⟩ | ⟨-, written⟩
    · rw [written] at ready
      refine .inl ⟨.decodeError "input string too short" typ [], s.opened 1 (.byte x) 0, ?_⟩
      rw [decodeByteArray, bind_ok (kind_byte low ready)]
      simp only
      rw [if_neg (by omega), if_pos wide]
      rfl
    · by_cases fits : b.length = w
      · subst fits
        exact .inr ⟨_, reads_decodeByteArray typ wide s ready⟩
      · rw [written] at ready
        rw [decodeByteArray, bind_ok (kind_puthead (.inl ⟨rfl, rfl, rfl⟩) ready)]
        simp only
        split
        · exact .inl ⟨_, _, rfl⟩
        · rw [if_pos (by omega)]
          exact .inl ⟨_, _, rfl⟩
  | list xs =>
    obtain ⟨s', ahead⟩ := kind_list ready
    exact .inl ⟨_, s', bind_ok ahead⟩

theorem reads_fixed (typ : String) (wide : 1 < w) (fits : n < 256 ^ w) :
    Reads (decodeByteArray typ w) (.str (beFixed w n)) n := by
  have reads := reads_decodeByteArray typ (b := beFixed w n) (by rwa [beFixed_length])
  rwa [beFixed_length, beNat_beFixed_of_lt fits] at reads

theorem reads_bits (typ : String) (wide : 1 < w) (x : BitVec (8 * w)) :
    Reads (decodeByteArray typ w) (.str (beFixed w x.toNat)) x.toNat := by
  apply reads_fixed typ wide
  have bound : x.toNat < (2 ^ 8) ^ w := by
    rw [← pow_mul]
    exact x.isLt
  exact bound

theorem reads_decodeHash (h : Hash) : Reads decodeHash (.str (hashBytes h)) h := by
  have reads := reads_map (f := BitVec.ofNat 256) (reads_bits "common.Hash" (w := 32) (by decide) h)
  rwa [BitVec.ofNat_toNat, BitVec.setWidth_eq] at reads

theorem reads_decodeAddress (addr : Address) :
    Reads decodeAddress (.str (addressBytes addr)) addr := by
  have reads := reads_map (f := BitVec.ofNat 160)
    (reads_bits "common.Address" (w := 20) (by decide) addr)
  rwa [BitVec.ofNat_toNat, BitVec.setWidth_eq] at reads

theorem bind_kind_cached {k : Kind × Nat → Reader α}
    (read : kind s = (.ok (ahead, size), s.opened n ahead size)) :
    (kind >>= k) (s.opened n ahead size) = (kind >>= k) s := by
  rw [bind_ok read, bind_ok (kind_cached s n ahead size)]

theorem decodeStruct_peeked {typ : String} {fields : Reader α}
    (ready : s.Ready (encode (.list xs))) :
    decodeStruct typ fields (kind s).2 = decodeStruct typ fields s := by
  rw [encode, wrapList] at ready
  have ahead := kind_puthead (.inr ⟨rfl, rfl, rfl⟩) ready
  have cached : list (kind s).2 = list s := by
    rw [ahead]
    exact bind_kind_cached ahead
  simp only [decodeStruct, bind, Reader.mapError, cached]

theorem decodeAddress_cached (read : kind s = (.ok (ahead, size), s.opened n ahead size)) :
    decodeAddress (s.opened n ahead size) = decodeAddress s := by
  have cached : decodeByteArray "common.Address" 20 (s.opened n ahead size) =
      decodeByteArray "common.Address" 20 s := bind_kind_cached read
  simp only [decodeAddress, bind, cached]

theorem decodeNilAddress_content (read : kind s = (.ok (ahead, size), s.opened n ahead size))
    (content : size ≠ 0 ∨ ∃ x, ahead = .byte x) :
    decodeNilAddress s = (do return some (← decodeAddress) : Reader (Option Address)) s := by
  have skipped : decodeNilAddress s =
      (do return some (← decodeAddress) : Reader (Option Address)) (s.opened n ahead size) := by
    rw [decodeNilAddress, bind_ok (mapError_ok read)]
    cases ahead with
    | byte x => rfl
    | string =>
      cases size with
      | zero => simp at content
      | succ size => rfl
    | list =>
      cases size with
      | zero => simp at content
      | succ size => rfl
  rw [skipped]
  simp only [bind, decodeAddress_cached read]

theorem reads_decodeNilAddress (recipient : Option Address) :
    Reads decodeNilAddress (.str (recipient.elim [] addressBytes)) recipient := by
  intro s ready
  cases recipient with
  | none =>
    have written : s.Ready (puthead 0x80 0xB7 ([] : Bytes).length ++ []) := ready
    have ahead := kind_puthead (.inl ⟨rfl, rfl, rfl⟩) written
    rw [decodeNilAddress, bind_ok (mapError_ok ahead)]
    rfl
  | some addr =>
    have read := reads_decodeAddress addr s ready
    have width : (addressBytes addr).length = 20 := beFixed_length _ _
    rw [Option.elim_some] at ready ⊢
    rcases encode_str_cases (addressBytes addr) with ⟨x, single, -, -⟩ | ⟨-, written⟩
    · rw [single] at width
      exact absurd width (by simp)
    · rw [written] at ready
      have ahead := kind_puthead (.inl ⟨rfl, rfl, rfl⟩) ready
      rw [decodeNilAddress_content ahead (.inl (by omega)), bind_ok read, pure_apply]

theorem settles_decodeNilAddress : Settles decodeNilAddress := by
  intro s x ready
  have plain := settles_map (f := some) (settles_map (f := BitVec.ofNat 160)
    (settles_decodeByteArray "common.Address" (w := 20) (by decide))) s x ready
  cases x with
  | str b =>
    rcases encode_str_cases b with ⟨x, rfl, low, written⟩ | ⟨-, written⟩
    · rw [written] at ready
      rwa [decodeNilAddress_content (kind_byte low ready) (.inr ⟨x, rfl⟩)]
    · by_cases empty : b = []
      · subst empty
        exact .inr ⟨none, reads_decodeNilAddress none s ready⟩
      · rw [written] at ready
        have ahead := kind_puthead (.inl ⟨rfl, rfl, rfl⟩) ready
        rwa [decodeNilAddress_content ahead (.inl (mt length_eq_zero_iff.mp empty))]
  | list xs =>
    rw [encode, wrapList] at ready
    have ahead := kind_puthead (.inr ⟨rfl, rfl, rfl⟩) ready
    by_cases empty : (encodeAll xs).length = 0
    · rw [empty] at ahead
      exact .inl ⟨_, _, bind_ok (mapError_ok ahead)⟩
    · rwa [decodeNilAddress_content ahead (.inl empty)]

theorem ends_decodeNilAddress : Ends decodeNilAddress := ends_bind (ends_wrap ends_kind)

end Anduschain.RlpStream
