import Anduschain.BinaryRounding
import Anduschain.ChainTypes

/-! The checks of package fairnode/verify: signatures over a digest, the join
lottery and the difficulty a header must carry. -/
namespace Anduschain
open ByteOrder BinaryRounding

inductive SignError where
  | sigToPub (msg : String)
  | notMatched (sAddr addr : Address)
  deriving DecidableEq

variable (crypto : Crypto)

def validationSignHash (sign : Bytes) (hash : Hash) (sAddr : Address) : Except SignError Unit :=
  match crypto.sigToAddr hash sign with
  | .error msg => .error (.sigToPub msg)
  | .ok addr => if addr ≠ sAddr then .error (.notMatched sAddr addr) else .ok ()

theorem validationSignHash_ok {crypto : Crypto} {sign : Bytes} {hash : Hash} {sAddr : Address} :
    validationSignHash crypto sign hash sAddr = .ok () ↔
      crypto.sigToAddr hash sign = .ok sAddr := by
  unfold validationSignHash
  split
  · rename_i recovered
    simp [recovered]
  · rename_i addr recovered
    by_cases same : addr = sAddr
    · simp [recovered, same]
    · simp [recovered, same]

/-- Reading of a `uint64` or of a hash's low word as an `int64`. -/
def asInt64 (n : Nat) : Int := (BitVec.ofNat 64 n).toInt

def makeSeed (rand addr : BitVec 160) : Int :=
  (((addressBytes (rand ^^^ addr)).map UInt8.toNat).sum : Nat)

/-- The conversion `uint64(div)` of a float; out of range it is the platform's, and amd64 yields
the sign bit. -/
def floatToUint64 (n : Nat) : Nat := if n < 2 ^ 64 then n else 2 ^ 63

/-- `math.Ceil(float64(cMiner) / float64(mMiner))` with its three roundings to 53 bits. -/
def lotteryDiv (cMiner mMiner : UInt64) : Nat :=
  ⌈roundTo 53 (roundTo 53 cMiner.toNat / roundTo 53 mMiner.toNat)⌉₊

/-- The join lottery. `int63` is the first draw of `math/rand` for a seed; `none` is
the panic of `Mod` by zero. -/
def isJoinOK (int63 : Int → Nat) (otprn : Otprn) (addr : Address) : Option Bool :=
  let cMiner := otprn.cminer
  let mMiner := otprn.data.mminer
  if 0 < mMiner then
    let div := lotteryDiv cMiner mMiner
    let rnd : Int := int63 (makeSeed otprn.rand addr)
    if asInt64 cMiner.toNat = 0 then none
    else
      let rand := rnd % asInt64 cMiner.toNat + 1
      if 0 < div then some (rand.toNat % 2 ^ 64 % floatToUint64 div = 0) else some true
  else some false

def itoa (n : Nat) : Bytes := (Nat.toDigits 10 n).map fun c => UInt8.ofNat c.toNat

def csprng (n : Nat) (otprn : Hash) (coinbase : Address) (pBlockHash : Hash) : Int :=
  asInt64 (crypto.keccak
    (itoa n ++ hashBytes otprn ++ hashBytes pBlockHash ++ addressBytes coinbase)).toNat

def makeRandLoop (crypto : Crypto) (otprn : Hash) (coinbase : Address) (pBlockHash : Hash) :
    Nat → Nat → Int → Int
  | 0, _, rand => rand
  | fuel + 1, i, rand =>
    let newRand := csprng crypto i otprn coinbase pBlockHash
    makeRandLoop crypto otprn coinbase pBlockHash fuel (i + 1)
      (if rand < newRand then newRand else rand)

def makeRand (joinNonce : UInt64) (otprn : Hash) (coinbase : Address)
    (pBlockHash : Hash) : Int :=
  let cnt := asInt64 joinNonce.toNat
  let cnt := if 1000 < cnt then 1000 else cnt
  let r := makeRandLoop crypto otprn coinbase pBlockHash (cnt + 1).toNat 0 0
  if r < 0 then -1 * r else r

/-- The sum is taken in `int64`, so the largest draw wraps to a negative difficulty. -/
def calcDifficultyDeb (joinNonce : UInt64) (otprn : Bytes) (coinbase : Address)
    (parentHash : Hash) : Int :=
  (BitVec.ofInt 64 (makeRand crypto joinNonce (bytesToHash otprn) coinbase parentHash + 1)).toInt

def Header.calcDifficulty (h : Header) : Int :=
  calcDifficultyDeb crypto h.nonce h.otprn h.coinbase h.parentHash

inductive DifficultyError where
  | invalid (computed : Int) (header : Nat)
  deriving DecidableEq

def validationDifficulty (header : Header) : Except DifficultyError Unit :=
  let diff := header.calcDifficulty crypto
  if diff ≠ header.difficulty then .error (.invalid diff header.difficulty) else .ok ()

end Anduschain
