import Anduschain.FairnodeVerify

/-! Messages the fairnode signs for its clients (protos/common), the value each
digest is taken of, and what the reflection-driven encoder makes of it. -/
namespace Anduschain
open ByteOrder RlpItem List

/-- `common.Status`, an int32 in the generated code. -/
inductive Status where
  | success
  | fail
  deriving DecidableEq, Repr

def Status.code : Status → Int
  | .success => 0
  | .fail => 1

/-- `common.ProcessStatus`, an int32 in the generated code. -/
inductive ProcessStatus where
  | wait
  | makeLeague
  | makeJoinTx
  | makeBlock
  | leagueBroadcasting
  | voteStart
  | voteComplete
  | reject
  | sendBlock
  | sendBlockWait
  | reqFairnodeSign
  | finalize
  | voteCounting
  deriving DecidableEq, Repr

def ProcessStatus.code : ProcessStatus → Int
  | .wait => 0
  | .makeLeague => 1
  | .makeJoinTx => 2
  | .makeBlock => 3
  | .leagueBroadcasting => 4
  | .voteStart => 5
  | .voteComplete => 6
  | .reject => 7
  | .sendBlock => 8
  | .sendBlockWait => 9
  | .reqFairnodeSign => 10
  | .finalize => 11
  | .voteCounting => 12

def Status.goValue (s : Status) : GoValue := .int "common.Status" s.code

def ProcessStatus.goValue (s : ProcessStatus) : GoValue := .int "common.ProcessStatus" s.code

structure VoteMessage where
  header : Bytes
  voterAddress : Bytes
  voterSign : Bytes
  deriving DecidableEq

def VoteMessage.goValue (v : VoteMessage) : GoValue :=
  .list [.bytes v.header, .str v.voterAddress, .bytes v.voterSign]

structure ProcessMessage where
  code : ProcessStatus
  currentBlockNum : Bytes
  deriving DecidableEq

structure ResConfirmSeal where
  code : ProcessStatus
  deriving DecidableEq

structure ResVoteResult where
  result : Status
  blockHash : Bytes
  voters : List VoteMessage
  deriving DecidableEq

inductive FairnodeMessage where
  | process (m : ProcessMessage)
  | confirmSeal (m : ResConfirmSeal)
  | voteResult (m : ResVoteResult)
  deriving DecidableEq

def FairnodeMessage.content : FairnodeMessage → GoValue
  | .process m => .list [m.code.goValue, .bytes m.currentBlockNum]
  | .confirmSeal m => .list [m.code.goValue]
  | .voteResult m => .list [m.result.goValue, .str m.blockHash, .list (m.voters.map (·.goValue))]

def FairnodeMessage.digest (crypto : Crypto) (m : FairnodeMessage) : Hash :=
  rlpHash crypto m.content

def FairnodeMessage.verify (crypto : Crypto) (fnAddress : Address) (m : FairnodeMessage)
    (sign : Bytes) : Except SignError Unit :=
  validationSignHash crypto sign (m.digest crypto) fnAddress

theorem toItems_error_of_int {xs : List GoValue} {typ : String} {i : Int}
    (member : .int typ i ∈ xs) : ∃ e, toItems xs = .error e := by
  induction xs with
  | nil => simp at member
  | cons x xs ih =>
    rw [toItems]
    rcases mem_cons.mp member with rfl | later
    · exact ⟨.notSerializable typ, rfl⟩
    · obtain ⟨e, failed⟩ := ih later
      cases toItem x with
      | error e' => exact ⟨e', rfl⟩
      | ok item => exact ⟨e, by simp [failed, Except.map]⟩

theorem rlpFeed_of_int {xs : List GoValue} {typ : String} {i : Int} (member : .int typ i ∈ xs) :
    rlpFeed (.list xs) = [] := by
  obtain ⟨e, failed⟩ := toItems_error_of_int member
  rw [rlpFeed, encodeToBytes_eq, toItem, failed]
  rfl

theorem FairnodeMessage.feed_eq_nil (m : FairnodeMessage) : rlpFeed m.content = [] := by
  cases m with
  | process m => exact rlpFeed_of_int (mem_cons_self)
  | confirmSeal m => exact rlpFeed_of_int (mem_cons_self)
  | voteResult m => exact rlpFeed_of_int (mem_cons_self)

/-- No digest depends on its message: every two messages, of one kind or of
different kinds, feed the same bytes to Keccak, so a signature made for one
verifies for the other. -/
theorem fairnodeMessage_digest_binds_nothing (m₁ m₂ : FairnodeMessage) :
    rlpFeed m₁.content = rlpFeed m₂.content ∧
      ∀ (crypto : Crypto) (fnAddress : Address) (sign : Bytes),
        m₁.verify crypto fnAddress sign = m₂.verify crypto fnAddress sign := by
  have same : rlpFeed m₁.content = rlpFeed m₂.content := by rw [m₁.feed_eq_nil, m₂.feed_eq_nil]
  refine ⟨same, ?_⟩
  intro crypto fnAddress sign
  have digest : m₁.digest crypto = m₂.digest crypto := congrArg crypto.keccak same
  rw [FairnodeMessage.verify, digest, FairnodeMessage.verify]

/-- A signed FINALIZE at block 5 is also a signed REJECT at block 9. -/
theorem finalize_verifies_as_reject :
    (FairnodeMessage.process ⟨.finalize, [5]⟩) ≠ .process ⟨.reject, [9]⟩ ∧
      rlpFeed (FairnodeMessage.process ⟨.finalize, [5]⟩).content =
        rlpFeed (FairnodeMessage.process ⟨.reject, [9]⟩).content := by
  decide +kernel

end Anduschain
