import Anduschain.BlockBody
import Anduschain.GoCall
import Anduschain.RlpStream

/-! Splitting encoded values in place (rlp/raw.go): the header of a value, the value with what
follows it, and the number of values in a buffer. Index and slice expressions are those of the
source; none of them is ever out of range. -/
namespace Anduschain.RlpRaw
open ByteOrder GoCall List
open RlpStream (StreamError wrapSub)
open RlpItem (tag_toNat encodeAll encodeStr puthead)

inductive Kind where
  | byte
  | string
  | list
  deriving DecidableEq

def slice {ε : Type} (b : Bytes) (low high : ℕ) : GoCall ε Bytes := orPanic (goSlice b low high)

/-- `slen` is at most eight, so the size fits in uint64. -/
def readSize (b : Bytes) (slen : ℕ) : GoCall StreamError ℕ :=
  if b.length < slen then .fails .unexpectedEof
  else if beNat (b.take slen) < 56 then .fails .canonSize
  else do
    let first ← orPanic b[0]?
    if first = 0 then .fails .canonSize else .returns (beNat (b.take slen))

def readTag (b : UInt8) (after : Bytes) : GoCall StreamError (Kind × ℕ × ℕ) :=
  if b < 0x80 then .returns (.byte, 0, 1)
  else if b < 0xB8 then
    -- a string that should have been a single byte
    if (b - 0x80).toNat = 1 ∧ after.head?.any (· < 128) then .fails .canonSize
    else .returns (.string, 1, (b - 0x80).toNat)
  else if b < 0xC0 then do
    let size ← readSize after (b - 0xB7).toNat
    return (.string, (b - 0xB7).toNat + 1, size)
  else if b < 0xF8 then .returns (.list, 1, (b - 0xC0).toNat)
  else do
    let size ← readSize after (b - 0xF7).toNat
    return (.list, (b - 0xF7).toNat + 1, size)

def readKind (buf : Bytes) : GoCall StreamError (Kind × ℕ × ℕ) :=
  match buf with
  | [] => .fails .unexpectedEof
  | b :: after => do
      let (k, tagsize, contentsize) ← readTag b after
      if wrapSub buf.length tagsize < contentsize then .fails .valueTooLarge
      else return (k, tagsize, contentsize)

def split (b : Bytes) : GoCall StreamError (Kind × Bytes × Bytes) := do
  let (k, ts, cs) ← readKind b
  let content ← slice b ts (ts + cs)
  let rest ← slice b (ts + cs) b.length
  return (k, content, rest)

def splitString (b : Bytes) : GoCall StreamError (Bytes × Bytes) := do
  let (k, content, rest) ← split b
  if k = .list then .fails .expectedString else return (content, rest)

def splitList (b : Bytes) : GoCall StreamError (Bytes × Bytes) := do
  let (k, content, rest) ← split b
  if k ≠ .list then .fails .expectedList else return (content, rest)

/-- The loop of `CountValues`, with a bound on its turns. -/
def countLoop : ℕ → Bytes → GoCall StreamError ℕ
  | _, [] => .returns 0
  | 0, _ :: _ => .runs
  | turns + 1, b => do
      let (_, tagsize, size) ← readKind b
      let rest ← slice b (tagsize + size) b.length
      let i ← countLoop turns rest
      return i + 1

def countValues (b : Bytes) : GoCall StreamError ℕ := countLoop b.length b

theorem readSize_returned (b : Bytes) {slen : ℕ} (some_bytes : 0 < slen) :
    (readSize b slen).Returned := by
  unfold readSize
  split_ifs with short small
  · trivial
  · trivial
  · cases b with
    | nil => exact absurd some_bytes (by simpa using short)
    | cons first b =>
      simp only [getElem?_cons_zero, orPanic, bind_returns]
      split_ifs
      · trivial
      · trivial

variable {b content rest : Bytes} {k : Kind} {n : ℕ}

theorem readSize_bound {slen s : ℕ} (read : readSize b slen = .returns s) : slen ≤ b.length := by
  unfold readSize at read
  split_ifs at read with short
  omega

theorem toNat_sub_pos {a b : UInt8} (above : a < b) : 0 < (b - a).toNat := by
  have apart := UInt8.lt_iff_toNat_lt.mp above
  rw [UInt8.toNat_sub_of_le _ _ (UInt8.le_of_lt above)]
  omega

theorem readTag_returned (b : UInt8) (after : Bytes) : (readTag b after).Returned := by
  unfold readTag
  split_ifs with single short bare long list
  · trivial
  · trivial
  · trivial
  · refine returned_bind (readSize_returned after (toNat_sub_pos ?_)) fun _ _ => trivial
    exact UInt8.lt_of_lt_of_le (by decide) (UInt8.not_lt.mp short)
  · trivial
  · refine returned_bind (readSize_returned after (toNat_sub_pos ?_)) fun _ _ => trivial
    exact UInt8.lt_of_lt_of_le (by decide) (UInt8.not_lt.mp list)

theorem readTag_bound {b : UInt8} {after : Bytes} {ts cs : ℕ}
    (read : readTag b after = .returns (k, ts, cs)) :
    ts ≤ after.length + 1 ∧ (k = .byte ∧ ts = 0 ∧ cs = 1 ∨ k ≠ .byte ∧ 1 ≤ ts) := by
  unfold readTag at read
  split_ifs at read with single short bare long list
  · cases read
    simp
  · cases read
    simp
  · obtain ⟨size, sized, same⟩ := bind_eq_returns.mp read
    cases same
    have bound := readSize_bound sized
    exact ⟨by omega, .inr ⟨by rintro ⟨⟩, by omega⟩⟩
  · cases read
    simp
  · obtain ⟨size, sized, same⟩ := bind_eq_returns.mp read
    cases same
    have bound := readSize_bound sized
    exact ⟨by omega, .inr ⟨by rintro ⟨⟩, by omega⟩⟩

theorem readKind_returned (buf : Bytes) : (readKind buf).Returned := by
  cases buf with
  | nil => trivial
  | cons b after =>
    refine returned_bind (readTag_returned b after) fun tag _ => ?_
    simp only
    split_ifs
    · trivial
    · trivial

theorem readKind_bound {buf : Bytes} {ts cs : ℕ} (read : readKind buf = .returns (k, ts, cs)) :
    ts + cs ≤ buf.length ∧ 1 ≤ ts + cs ∧ (k ≠ .byte → 1 ≤ ts) := by
  cases buf with
  | nil => cases read
  | cons b after =>
    obtain ⟨⟨k', ts', cs'⟩, tag, checked⟩ := bind_eq_returns.mp read
    simp only at checked
    split_ifs at checked with large
    cases checked
    obtain ⟨inside, shape⟩ := readTag_bound tag
    have room : wrapSub (b :: after).length ts = (b :: after).length - ts :=
      if_pos (by simpa using inside)
    rw [room, length_cons] at large
    rw [length_cons]
    rcases shape with ⟨rfl, rfl, rfl⟩ | ⟨tagged, some_tag⟩
    · simp
    · exact ⟨by omega, by omega, fun _ => some_tag⟩

theorem slice_of_bound {ε : Type} {low high : ℕ} (ordered : low ≤ high)
    (inside : high ≤ b.length) : (slice b low high : GoCall ε Bytes) =
      .returns ((b.take high).drop low) := by
  have bounds : (0 : ℤ) ≤ low ∧ (low : ℤ) ≤ high ∧ (high : ℤ) ≤ b.length := by omega
  rw [slice, goSlice, if_pos bounds]
  rfl

theorem split_cases (b : Bytes) : (∃ e, split b = .fails e) ∨
    ∃ k tag content rest, split b = .returns (k, content, rest) ∧ b = tag ++ content ++ rest ∧
      1 ≤ tag.length + content.length ∧ (k ≠ .byte → 1 ≤ tag.length) := by
  cases read : readKind b with
  | fails e => exact .inl ⟨e, by simp only [split, read]; rfl⟩
  | panics => exact absurd (readKind_returned b) (by simp [read, Returned])
  | runs => exact absurd (readKind_returned b) (by simp [read, Returned])
  | returns header =>
    obtain ⟨k, ts, cs⟩ := header
    obtain ⟨inside, some_byte, tagged⟩ := readKind_bound read
    refine .inr ⟨k, b.take ts, (b.take (ts + cs)).drop ts, (b.take b.length).drop (ts + cs),
      ?_, ?_, ?_, ?_⟩
    · simp only [split, read, bind_returns]
      rw [slice_of_bound (by omega) inside, bind_returns, slice_of_bound inside (le_refl _)]
      rfl
    · have front : b.take ts ++ (b.take (ts + cs)).drop ts = b.take (ts + cs) := by
        have split := take_append_drop ts (b.take (ts + cs))
        rwa [take_take, Nat.min_eq_left (by omega)] at split
      rw [front, take_length, take_append_drop]
    · simp only [length_take, length_drop]
      omega
    · intro other
      rw [length_take]
      have := tagged other
      omega

theorem split_length
    (done : split b = .returns (k, content, rest)) : content.length + rest.length ≤ b.length ∧
      (k = .list → content.length + rest.length < b.length) := by
  rcases split_cases b with ⟨e, failed⟩ | ⟨k', tag, content', rest', found, joined, -, tagged⟩
  · rw [failed] at done
    cases done
  · rw [found] at done
    cases done
    have lengths := congrArg List.length joined
    simp only [length_append] at lengths
    refine ⟨by omega, ?_⟩
    rintro rfl
    have some_tag := tagged (by decide)
    omega

theorem split_within
    (done : split b = .returns (k, content, rest)) : content <:+: b ∧ rest <:+: b := by
  rcases split_cases b with ⟨e, failed⟩ | ⟨k', tag, content', rest', found, joined, -⟩
  · rw [failed] at done
    cases done
  · rw [found] at done
    cases done
    exact ⟨⟨tag, rest, joined.symm⟩, ⟨tag ++ content, [], by rw [joined, append_nil]⟩⟩

theorem split_returned (b : Bytes) : (split b).Returned := by
  rcases split_cases b with ⟨e, failed⟩ | ⟨k, tag, content, rest, found, -⟩
  · rw [failed]
    trivial
  · rw [found]
    trivial

theorem splitString_eq_returns :
    splitString b = .returns (content, rest) ↔ ∃ k ≠ .list, split b = .returns (k, content, rest) := by
  rw [splitString, bind_eq_returns]
  constructor
  · rintro ⟨⟨k, content', rest'⟩, found, checked⟩
    simp only at checked
    split_ifs at checked with list
    cases checked
    exact ⟨k, list, found⟩
  · rintro ⟨k, string, found⟩
    exact ⟨_, found, if_neg string⟩

theorem splitList_eq_returns :
    splitList b = .returns (content, rest) ↔ split b = .returns (.list, content, rest) := by
  rw [splitList, bind_eq_returns]
  constructor
  · rintro ⟨⟨k, content', rest'⟩, found, checked⟩
    simp only at checked
    split_ifs at checked with other
    cases checked
    rw [found, not_not.mp other]
  · intro found
    exact ⟨_, found, if_neg (not_not.mpr rfl)⟩

theorem splitString_returned (b : Bytes) : (splitString b).Returned := by
  refine returned_bind (split_returned b) fun found _ => ?_
  simp only
  split_ifs
  · trivial
  · trivial

theorem splitList_returned (b : Bytes) : (splitList b).Returned := by
  refine returned_bind (split_returned b) fun found _ => ?_
  simp only
  split_ifs
  · trivial
  · trivial

theorem countLoop_returned : ∀ {turns : ℕ} {b : Bytes}, b.length ≤ turns → (countLoop turns b).Returned
  | turns, [], _ => by
      cases turns
      all_goals trivial
  | 0, _ :: _, enough => by simp at enough
  | turns + 1, x :: b, enough => by
      refine returned_bind (readKind_returned (x :: b)) fun header read => ?_
      obtain ⟨k, ts, cs⟩ := header
      obtain ⟨inside, some_byte, -⟩ := readKind_bound read
      simp only
      rw [slice_of_bound inside (le_refl _), bind_returns]
      refine returned_bind (countLoop_returned ?_) fun _ _ => trivial
      rw [take_length, length_drop]
      omega

theorem countValues_returned (b : Bytes) : (countValues b).Returned := countLoop_returned (le_refl _)

/-! What the writer wrote. -/

theorem split_tagged {x : UInt8} {after tag : Bytes}
    (read : readTag x after = .returns (k, tag.length, content.length))
    (parts : x :: after = tag ++ content ++ rest) :
    split (tag ++ content ++ rest) = .returns (k, content, rest) := by
  have length : (tag ++ content ++ rest).length = tag.length + content.length + rest.length := by
    simp only [length_append]
  have room : ¬wrapSub (tag ++ content ++ rest).length tag.length < content.length := by
    rw [wrapSub, if_pos (by omega)]
    omega
  have kind : readKind (tag ++ content ++ rest) = .returns (k, tag.length, content.length) := by
    rw [← parts, readKind, read, bind_returns]
    simp only [parts, if_neg room]
    rfl
  have whole : (tag ++ content).length = tag.length + content.length := length_append
  rw [split, kind, bind_returns]
  simp only
  rw [slice_of_bound (by omega) (by omega), bind_returns, slice_of_bound (by omega) le_rfl,
    bind_returns, ← whole, take_left, drop_left, take_length, drop_left]
  rfl

theorem toNat_tag {base : ℕ} (small : base + n < 256) :
    (UInt8.ofNat (base + n) - UInt8.ofNat base).toNat = n := by
  have total := tag_toNat small
  have first : (UInt8.ofNat base).toNat = base := tag_toNat (by omega)
  rw [UInt8.toNat_sub_of_le _ _ (by rw [UInt8.le_iff_toNat_le]; omega), total, first]
  omega

theorem readSize_beBytes (large : 56 ≤ n) (rest : Bytes) :
    readSize (beBytes n ++ rest) (beLen n) = .returns n := by
  have size : (beBytes n ++ rest).take (beLen n) = beBytes n := by
    rw [← beBytes_length, take_left]
  unfold readSize
  rw [if_neg (by simp), size, beNat_beBytes, if_neg (by omega)]
  cases spelled : beBytes n with
  | nil =>
    have lengths := congrArg List.length spelled
    have positive : 0 < beLen n := beLen_pos (by omega)
    rw [beBytes_length, length_nil] at lengths
    omega
  | cons first more => simp [orPanic, beBytes_head spelled]

theorem readTag_short (short : n < 56) (after : Bytes) :
    (n ≠ 1 → readTag (UInt8.ofNat (0x80 + n)) after = .returns (.string, 1, n)) ∧
    readTag (UInt8.ofNat (0xC0 + n)) after = .returns (.list, 1, n) := by
  have string := tag_toNat (n := 0x80 + n) (by omega)
  have list := tag_toNat (n := 0xC0 + n) (by omega)
  have string_size : (UInt8.ofNat (0x80 + n) - 0x80).toNat = n := toNat_tag (by omega)
  have list_size : (UInt8.ofNat (0xC0 + n) - 0xC0).toNat = n := toNat_tag (by omega)
  constructor
  · intro many
    simp only [readTag, UInt8.lt_iff_toNat_lt, string, UInt8.reduceToNat, string_size]
    rw [if_neg (by omega), if_pos (by omega), if_neg fun bare => many bare.1]
  · simp only [readTag, UInt8.lt_iff_toNat_lt, list, UInt8.reduceToNat, list_size]
    rw [if_neg (by omega), if_neg (by omega), if_neg (by omega), if_pos (by omega)]

theorem readTag_long (long : 56 ≤ n) (fits : n < 2 ^ 64) (rest : Bytes) :
    readTag (UInt8.ofNat (0xB7 + beLen n)) (beBytes n ++ rest) = .returns (.string, beLen n + 1, n) ∧
    readTag (UInt8.ofNat (0xF7 + beLen n)) (beBytes n ++ rest) = .returns (.list, beLen n + 1, n) := by
  have eight := RlpItem.beLen_of_sized fits
  have positive : 0 < beLen n := beLen_pos (by omega)
  have string := tag_toNat (n := 0xB7 + beLen n) (by omega)
  have list := tag_toNat (n := 0xF7 + beLen n) (by omega)
  have string_size : (UInt8.ofNat (0xB7 + beLen n) - 0xB7).toNat = beLen n := toNat_tag (by omega)
  have list_size : (UInt8.ofNat (0xF7 + beLen n) - 0xF7).toNat = beLen n := toNat_tag (by omega)
  constructor
  · simp only [readTag, UInt8.lt_iff_toNat_lt, string, UInt8.reduceToNat, string_size]
    rw [if_neg (by omega), if_neg (by omega), if_pos (by omega), readSize_beBytes long, bind_returns,
      pure_eq]
  · simp only [readTag, UInt8.lt_iff_toNat_lt, list, UInt8.reduceToNat, list_size]
    rw [if_neg (by omega), if_neg (by omega), if_neg (by omega), if_neg (by omega),
      readSize_beBytes long, bind_returns, pure_eq]

theorem split_wrapList (fits : content.length < 2 ^ 64) (rest : Bytes) :
    split (RlpItem.wrapList content ++ rest) = .returns (.list, content, rest) := by
  unfold RlpItem.wrapList puthead
  split_ifs with short
  · exact split_tagged (readTag_short short _).2 rfl
  · have read := (readTag_long (by omega) fits (content ++ rest)).2
    rw [← beBytes_length, ← length_cons] at read
    exact split_tagged read (by simp only [cons_append, append_assoc, beBytes_length])

theorem split_encodeStr (fits : content.length < 2 ^ 64) (rest : Bytes) :
    ∃ k ≠ .list, split (encodeStr content ++ rest) = .returns (k, content, rest) ∧
      (content.length ≠ 1 → k = .string) := by
  by_cases one : content.length = 1
  · obtain ⟨x, rfl⟩ := length_eq_one_iff.mp one
    rw [encodeStr]
    by_cases low : x < 0x80
    · refine ⟨.byte, nofun, ?_, fun many => absurd one many⟩
      rw [if_pos low]
      have read : readTag x rest = .returns (.byte, ([] : Bytes).length, [x].length) := by
        rw [readTag, if_pos low]
        rfl
      exact split_tagged read rfl
    · refine ⟨.string, nofun, ?_, fun many => absurd one many⟩
      rw [if_neg low]
      have read : readTag 0x81 (x :: rest) =
          .returns (.string, [(0x81 : UInt8)].length, [x].length) := by
        have high : ¬x < 128 := low
        simp [readTag, high]
      exact split_tagged read rfl
  · have form : encodeStr content =
        puthead 0x80 0xB7 content.length ++ content := by
      unfold encodeStr
      split
      · simp at one
      · rfl
    refine ⟨.string, nofun, ?_, fun _ => rfl⟩
    rw [form]
    unfold puthead
    split_ifs with short
    · exact split_tagged ((readTag_short short _).1 one) rfl
    · have read := (readTag_long (by omega) fits (content ++ rest)).1
      rw [← beBytes_length, ← length_cons] at read
      exact split_tagged read (by simp only [cons_append, append_assoc, beBytes_length])

theorem splitString_encodeStr (fits : content.length < 2 ^ 64) (rest : Bytes) :
    splitString (encodeStr content ++ rest) = .returns (content, rest) := by
  obtain ⟨k, string, found, -⟩ := split_encodeStr fits rest
  exact splitString_eq_returns.mpr ⟨k, string, found⟩

theorem split_encode {x : RlpItem.Item} (fits : (RlpItem.encode x).length < 2 ^ 64) (rest : Bytes) :
    ∃ k content, split (RlpItem.encode x ++ rest) = .returns (k, content, rest) := by
  cases x with
  | str b =>
    rw [RlpItem.encode] at fits ⊢
    obtain ⟨k, -, found, -⟩ := split_encodeStr ((RlpItem.length_le_encodeStr b).trans_lt fits) rest
    exact ⟨k, b, found⟩
  | list xs =>
    rw [RlpItem.encode] at fits ⊢
    exact ⟨.list, _, split_wrapList ((RlpItem.length_lt_wrapList _).trans fits) rest⟩

theorem countLoop_split {turns : ℕ} (found : split b = .returns (k, content, rest)) :
    countLoop (turns + 1) b = (do
      let i ← countLoop turns rest
      return i + 1) := by
  obtain ⟨⟨k', ts, cs⟩, read, more⟩ := bind_eq_returns.mp found
  obtain ⟨content', -, last⟩ := bind_eq_returns.mp more
  obtain ⟨rest', cut, same⟩ := bind_eq_returns.mp last
  cases same
  cases b with
  | nil => cases read
  | cons x b =>
    rw [countLoop, read, bind_returns]
    · simp only [cut, bind_returns]
    · nofun

theorem countValues_encodeAll {xs : List RlpItem.Item}
    (fits : (encodeAll xs).length < 2 ^ 64) : countValues (encodeAll xs) = .returns xs.length := by
  have loop (turns : ℕ) (enough : (encodeAll xs).length ≤ turns) :
      countLoop turns (encodeAll xs) = .returns xs.length := by
    induction xs generalizing turns with
    | nil => cases turns <;> rfl
    | cons x xs ih =>
      have some_byte := length_pos_iff.mpr (RlpItem.encode_ne_nil x)
      simp only [encodeAll, length_append] at fits enough ⊢
      obtain ⟨k, content, found⟩ := split_encode (x := x) (by omega) (encodeAll xs)
      cases turns with
      | zero => omega
      | succ turns =>
        rw [countLoop_split found, ih (by omega) turns (by omega)]
        rfl
  exact loop _ le_rfl

end Anduschain.RlpRaw
