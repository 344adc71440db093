import Anduschain.HexText
import Anduschain.LeagueMachine

/-! What a miner learns of a vote: `RequestVoteResult` checks and counts the stored
votes again, and the client checks every vote it is sent. Both spell the voter's
address their own way. -/
namespace Anduschain
open ByteOrder RlpItem CheckedSteps HexText List

/-- One character of an EIP55 text: a letter is raised where the digit of the hash is
above 7. -/
def raiseCase (hash : Bytes) (i : ℕ) (c : UInt8) : UInt8 :=
  let hashByte := hash.getD (i / 2) 0
  let nibble := if i % 2 = 0 then hashByte >>> 4 else hashByte &&& 0xf
  if 0x39 < c ∧ 7 < nibble then c - 32 else c

variable (crypto : Crypto)

/-- `Address.String`. -/
def addressText (a : Address) : Bytes :=
  let unchecksummed := encodePairs (addressBytes a)
  zeroX (unchecksummed.mapIdx (raiseCase (hashBytes (crypto.keccak unchecksummed))))

section Text

theorem hexDigit_raiseCase (hash : Bytes) (i : ℕ) {d : ℕ} (small : d < 16) :
    hexDigit (raiseCase hash i (hexChar d)) = hexDigit (hexChar d) := by
  have each : ∀ d : Fin 16, 0x39 < hexChar d → hexDigit (hexChar d - 32) = hexDigit (hexChar d) := by
    decide
  unfold raiseCase
  dsimp only
  by_cases letter : 0x39 < hexChar d
  · simp only [apply_ite hexDigit, each ⟨d, small⟩ letter, ite_self]
  · simp only [letter, false_and, if_false]

theorem encodePairs_digits {b : Bytes} {c : UInt8} (member : c ∈ encodePairs b) :
    ∃ d, d < 16 ∧ c = hexChar d := by
  obtain ⟨x, -, half⟩ := mem_flatMap.mp member
  have byte : x.toNat < 256 := x.toNat_lt
  rcases mem_cons.mp half with rfl | half
  · exact ⟨_, by omega, rfl⟩
  · obtain rfl : c = hexChar (x.toNat % 16) := by simpa using half
    exact ⟨_, by omega, rfl⟩

theorem hex2Bytes_congr : ∀ {a b : Bytes}, a.map hexDigit = b.map hexDigit → hex2Bytes a = hex2Bytes b
  | [], b, same => by
      obtain rfl : b = [] := by simpa using same.symm
      rfl
  | [x], b, same => by
      obtain ⟨y, -, rfl⟩ : ∃ y, hexDigit y = hexDigit x ∧ b = [y] := by
        simpa [map_eq_singleton_iff, and_comm] using same.symm
      rfl
  | hi :: lo :: rest, b, same => by
      match b, same with
      | [_], same => simp at same
      | hi' :: lo' :: rest', same =>
        simp only [map_cons, List.cons.injEq] at same
        rw [hex2Bytes, hex2Bytes, same.1, same.2.1, hex2Bytes_congr same.2.2]

theorem hex2Bytes_encodePairs (b : Bytes) : hex2Bytes (encodePairs b) = b := by
  induction b with
  | nil => rfl
  | cons x b ih =>
    obtain ⟨high, low, value⟩ := pair_digits x
    rw [encodePairs] at ih ⊢
    simp only [flatMap_cons, cons_append, nil_append, hex2Bytes, ih, high, low, value]

theorem hexToAddress_addressText (crypto : Crypto) (a : Address) :
    hexToAddress (addressText crypto a) = a := by
  have digits (hash : Bytes) : ((encodePairs (addressBytes a)).mapIdx (raiseCase hash)).map hexDigit =
      (encodePairs (addressBytes a)).map hexDigit := by
    apply ext_getElem
    · simp
    · intro i bound _
      obtain ⟨d, small, same⟩ := encodePairs_digits (getElem_mem (l := encodePairs (addressBytes a))
        (n := i) (by simpa using bound))
      simp only [getElem_map, getElem_mapIdx, same, hexDigit_raiseCase hash i small]
  have length (hash : Bytes) :
      ((encodePairs (addressBytes a)).mapIdx (raiseCase hash)).length = 40 := by
    rw [length_mapIdx, encodePairs_length, addressBytes, beFixed_length]
  have even (hash : Bytes) :
      ¬ ((encodePairs (addressBytes a)).mapIdx (raiseCase hash)).length % 2 = 1 := by
    rw [length]
    decide
  rw [hexToAddress, addressText, zeroX, fromHex]
  simp only [true_or, if_true, if_neg (even _)]
  rw [hex2Bytes_congr (digits _), hex2Bytes_encodePairs, bytesToAddress_addressBytes]

end Text

def voteDigest (header voterAddress : Bytes) : Hash :=
  rlpHash crypto (.list [.bytes header, .str voterAddress])

structure ReqVoteResult where
  otprnHash : Bytes
  address : Bytes
  sign : Bytes

inductive VoteResultError where
  | rpc (e : RpcError)
  | noVoters
  deriving DecidableEq

def VoteResultError.msg : VoteResultError → Option String
  | .rpc e => e.msg
  | .noVoters => some "voters count is zero"

structure VoteResult where
  blockHash : Hash
  voters : List VoteRequest

def Voter.message (v : Voter) : VoteRequest where
  header := v.header
  voterAddress := addressText crypto v.voter
  voterSign := v.voteSign

def revalidate (v : Voter) : Except SignError Unit :=
  validationSignHash crypto v.voteSign (voteDigest crypto v.header (addressText crypto v.voter)) v.voter

def clientVote (vote : VoteRequest) : Except SignError Voter := do
  validationSignHash crypto vote.voterSign (voteDigest crypto vote.header vote.voterAddress)
    (hexToAddress vote.voterAddress)
  pure { header := vote.header, voter := hexToAddress vote.voterAddress, voteSign := vote.voterSign }

def clientVotes (votes : List VoteRequest) : Except SignError (List Voter) :=
  votes.mapM (clientVote crypto)

/-- `RequestVoteResult`, for one iteration order of the tally's map. -/
def requestVoteResult (env : FairnodeEnv) (db : FairnodeDB) (find : Hash → Option League)
    (order : List (Header × ℕ)) (req : ReqVoteResult) : Except VoteResultError VoteResult := do
  rejectIf (req.address = []) (.rpc (.empty "address"))
  rejectIf (req.otprnHash = []) (.rpc (.empty "otprn hash"))
  rejectIf (req.sign = []) (.rpc (.empty "sign"))
  (checkSign env req.sign [.bytes req.otprnHash, .str req.address]
    (hexToAddress req.address)).mapError .rpc
  let otprnHash := bytesToHash req.otprnHash
  let clg ← orReject (find otprnHash) (.rpc (.noLeague otprnHash))
  let voters := db.getVoters (makeVoteKey otprnHash (clg.current + 1))
  rejectIf (voters = []) .noVoters
  voters.forM fun v => (revalidate env.crypto v).mapError fun e => .rpc (.signValidation e)
  let finalBlockHash ← orReject (validationFinalBlockHash env.crypto voters order) (.rpc .crash)
  pure { blockHash := finalBlockHash, voters := voters.map (Voter.message env.crypto) }

/-- A vote's signature leads back to the signer from one digest only, and Keccak does not map its
two spellings to one digest. -/
structure VoteSound (crypto : Crypto) (req : VoteRequest) : Prop where
  binds : ∀ h₁ h₂ addr, crypto.sigToAddr h₁ req.voterSign = .ok addr →
    crypto.sigToAddr h₂ req.voterSign = .ok addr → h₁ = h₂
  free : voteDigest crypto req.header req.voterAddress =
      voteDigest crypto req.header (addressText crypto (hexToAddress req.voterAddress)) →
    rlpFeed (.list [.bytes req.header, .str req.voterAddress]) =
      rlpFeed (.list [.bytes req.header, .str (addressText crypto (hexToAddress req.voterAddress))])

section Revalidation
variable {crypto : Crypto} {env : FairnodeEnv} {find : Hash → Option League}

theorem revalidate_ok {v : Voter} : revalidate crypto v = .ok () ↔
    crypto.sigToAddr (voteDigest crypto v.header (addressText crypto v.voter)) v.voteSign =
      .ok v.voter :=
  validationSignHash_ok

theorem clientVote_message {v : Voter} :
    clientVote crypto (v.message crypto) = .ok v ↔ revalidate crypto v = .ok () := by
  simp only [clientVote, Voter.message, hexToAddress_addressText, bind_eq_ok, exists_unit, revalidate]
  exact and_iff_left rfl

theorem vote_signed {req : VoteRequest} {otprnHash : Hash} {number : ℕ} {voter : Voter}
    (accepted : vote env find req = .ok (otprnHash, number, voter)) :
    env.crypto.sigToAddr (voteDigest env.crypto req.header req.voterAddress) req.voterSign =
      .ok (hexToAddress req.voterAddress) := by
  unfold vote at accepted
  simp only [bind_eq_ok, exists_unit, rejectIf_eq_ok, checkSign, mapError_eq_ok] at accepted
  exact validationSignHash_ok.mp accepted.2.2.2.1

theorem text_of_feed {header text₁ text₂ : Bytes}
    (fits : (rlpFeed (.list [.bytes header, .str text₁])).length < 2 ^ 64)
    (same : rlpFeed (.list [.bytes header, .str text₁]) = rlpFeed (.list [.bytes header, .str text₂])) :
    text₁ = text₂ := by
  have item (text : Bytes) : toItem (.list [.bytes header, .str text]) =
      .ok (.list [.str header, .str text]) := rfl
  rw [rlpFeed_of_toItem (item text₁)] at fits same
  rw [rlpFeed_of_toItem (item text₂)] at same
  have items := encode_inj fits same
  simpa using items

end Revalidation

/-- An accepted vote passes both later checks exactly when its address was spelled the way
`Address.String` spells it. -/
theorem accepted_vote_revalidates_iff (env : FairnodeEnv) (find : Hash → Option League)
    (req : VoteRequest) (otprnHash : Hash) (number : ℕ) (voter : Voter)
    (sound : VoteSound env.crypto req)
    (fits : (rlpFeed (.list [.bytes req.header, .str req.voterAddress])).length < 2 ^ 64)
    (accepted : vote env find req = .ok (otprnHash, number, voter)) :
    (revalidate env.crypto voter = .ok () ∧
        clientVote env.crypto (voter.message env.crypto) = .ok voter) ↔
      req.voterAddress = addressText env.crypto (hexToAddress req.voterAddress) := by
  obtain ⟨rfl, -⟩ := vote_ok accepted
  have signed := vote_signed accepted
  rw [clientVote_message, and_self, revalidate_ok]
  constructor
  · intro again
    exact text_of_feed fits (sound.free (sound.binds _ _ _ signed again))
  · intro canonical
    rw [← canonical]
    exact signed

def sampleVoted (text : Bytes) : VoteRequest :=
  let header := (sampleBlock (sampleLeague 7 1 sampleConfig) []).byte
  { header, voterAddress := text
    voterSign := sampleSign (voteDigest sampleCrypto header text) (hexToAddress text) }

def sampleFind (_ : Hash) : Option League :=
  some { otprn := sampleLeague 7 1 sampleConfig, status := .voteStart, current := 0, blockHash := none,
         votehash := none }

theorem sampleCrypto_binds (sign : Bytes) (h₁ h₂ : Hash) (addr : Address)
    (first : sampleCrypto.sigToAddr h₁ sign = .ok addr)
    (second : sampleCrypto.sigToAddr h₂ sign = .ok addr) : h₁ = h₂ := by
  simp only [sampleCrypto] at first second
  split at first
  · rename_i start₁
    split at second
    · rename_i start₂
      exact hashBytes_inj (start₁.symm.trans start₂)
    · cases second
  · cases first

theorem sampleVoted_revalidates :
    ∃ otprnHash number voter,
      vote (sampleNode .mongo) sampleFind (sampleVoted (addressText sampleCrypto 5)) =
        .ok (otprnHash, number, voter) ∧
      revalidate sampleCrypto voter = .ok () ∧
      clientVote sampleCrypto (voter.message sampleCrypto) = .ok voter := by
  obtain ⟨⟨otprnHash, number, voter⟩, accepted⟩ := exists_ok_of_toBool
    (x := vote (sampleNode .mongo) sampleFind (sampleVoted (addressText sampleCrypto 5)))
    (by decide +kernel)
  have spelled : addressText sampleCrypto (hexToAddress (addressText sampleCrypto 5)) =
      addressText sampleCrypto 5 := by
    rw [hexToAddress_addressText]
  have sound : VoteSound sampleCrypto (sampleVoted (addressText sampleCrypto 5)) :=
    ⟨sampleCrypto_binds _, fun _ => by rw [sampleVoted, spelled]⟩
  exact ⟨otprnHash, number, voter, accepted, (accepted_vote_revalidates_iff (sampleNode .mongo)
    sampleFind (sampleVoted (addressText sampleCrypto 5)) otprnHash number voter sound
    (by decide +kernel) accepted).mpr spelled.symm⟩

/-- The same vote with the address spelled as the one digit "5" is accepted, and stops every
request for the result. -/
theorem sampleVoted_blocks_result :
    ∃ otprnHash number voter,
      vote (sampleNode .mongo) sampleFind (sampleVoted (sampleText 5)) =
        .ok (otprnHash, number, voter) ∧
      revalidate sampleCrypto voter ≠ .ok () ∧
      clientVote sampleCrypto (voter.message sampleCrypto) ≠ .ok voter := by
  obtain ⟨⟨otprnHash, number, voter⟩, accepted⟩ := exists_ok_of_toBool
    (x := vote (sampleNode .mongo) sampleFind (sampleVoted (sampleText 5))) (by decide +kernel)
  have refused : revalidate sampleCrypto voter ≠ .ok () := by
    obtain ⟨rfl, -⟩ := vote_ok accepted
    decide +kernel
  exact ⟨otprnHash, number, voter, accepted, refused, fun taken => refused (clientVote_message.mp taken)⟩

end Anduschain
