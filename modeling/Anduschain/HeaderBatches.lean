import Anduschain.HeaderVerification
import Mathlib.Data.List.Chain

/-! Batches of headers before the Deb engine: each header is checked against the one in front of
it in the batch, or one by one against a database that holds the headers in front of it. -/
namespace Anduschain
open CheckedSteps List

section Batches
variable (crypto : Crypto) (coinbase : Address) (now : Nat)

def verifyHeadersAfter (chain : ChainReader) (before : List Header) :
    List Header → List (Except VerifyError Unit)
  | [] => []
  | header :: headers =>
    verifyHeader crypto coinbase now chain header before true ::
      verifyHeadersAfter chain (before ++ [header]) headers

def verifyHeaders (chain : ChainReader) (headers : List Header) : List (Except VerifyError Unit) :=
  verifyHeadersAfter crypto coinbase now chain [] headers

/-- The database keys a header by its hash and the low word of its number. -/
def ChainReader.store (chain : ChainReader) (header : Header) : ChainReader :=
  { chain with
    getHeader := fun hash number =>
      if hash = header.hash crypto ∧ number = header.number % 2 ^ 64 then some header
      else chain.getHeader hash number }

def verifyStored (chain : ChainReader) : List Header → List (Except VerifyError Unit)
  | [] => []
  | header :: headers =>
    verifyHeader crypto coinbase now chain header [] true ::
      verifyStored (chain.store crypto header) headers

def Linked (headers : List Header) : Prop :=
  headers.IsChain fun parent header => header.parentHash = parent.hash crypto

structure HashesApart (chain : ChainReader) (headers : List Header) : Prop where
  within : ∀ p ∈ headers, ∀ q ∈ headers, p.hash crypto = q.hash crypto → p.number = q.number
  stored : ∀ p ∈ headers, ∀ number h, chain.getHeader (p.hash crypto) number = some h →
    h.hash crypto = p.hash crypto → h.number = p.number

def parentOf (chain : ChainReader) (before : List Header) (header : Header) : Option Header :=
  if before.isEmpty then chain.getHeader header.parentHash ((header.number + (2 ^ 64 - 1)) % 2 ^ 64)
  else before.getLast?

/-- The parts of the two numbers that the engine does not look at are those of consecutive ones. -/
def WordsFit (parent header : Header) : Prop :=
  if header.number % 2 ^ 64 = 0 then
    parent.number % 2 ^ 64 = 2 ^ 64 - 1 ∧ parent.number / 2 ^ 64 + 1 = header.number / 2 ^ 64
  else parent.number / 2 ^ 64 = header.number / 2 ^ 64

variable {crypto coinbase now} {chain chain' : ChainReader} {headers : List Header}
  {header parent : Header} {parents before : List Header}

theorem verifyHeader_congr {parents' : List Header} (config : chain'.config = chain.config)
    (same : verifyCascadingFields crypto chain' header parents' true =
      verifyCascadingFields crypto chain header parents true) :
    verifyHeader crypto coinbase now chain' header parents' true =
      verifyHeader crypto coinbase now chain header parents true := by
  simp only [verifyHeader, same, config]

theorem verifyCascadingFields_eq (nonzero : header.number % 2 ^ 64 ≠ 0) :
    verifyCascadingFields crypto chain header parents true = (do
      let parent ← orReject (parentOf chain parents header) .unknownAncestor
      rejectIf (parent.number % 2 ^ 64 ≠ header.number % 2 ^ 64 - 1 ∨
        parent.hash crypto ≠ header.parentHash) .unknownAncestor
      verifySeal crypto header) := by
  have word : (header.number + (2 ^ 64 - 1)) % 2 ^ 64 = header.number % 2 ^ 64 - 1 := by omega
  unfold verifyCascadingFields
  dsimp only
  rw [if_neg nonzero, parentOf, word]
  rfl

theorem verifyCascadingFields_zero (zero : header.number % 2 ^ 64 = 0) :
    verifyCascadingFields crypto chain header parents true = .ok () := if_pos zero

-- Where the lookup misses the parent, it may find a header of another hash: both are refused.
theorem verifyCascadingFields_stored (link : header.parentHash = parent.hash crypto)
    (holds : chain'.getHeader (parent.hash crypto) (parent.number % 2 ^ 64) = some parent)
    (only : ∀ number h, chain'.getHeader (parent.hash crypto) number = some h →
      h.hash crypto = parent.hash crypto → h.number = parent.number) :
    verifyCascadingFields crypto chain' header [] true =
      verifyCascadingFields crypto chain header (before ++ [parent]) true := by
  by_cases zero : header.number % 2 ^ 64 = 0
  · rw [verifyCascadingFields_zero zero, verifyCascadingFields_zero zero]
  have batch : parentOf chain (before ++ [parent]) header = some parent := by simp [parentOf]
  have word : (header.number + (2 ^ 64 - 1)) % 2 ^ 64 = header.number % 2 ^ 64 - 1 := by omega
  rw [verifyCascadingFields_eq zero, verifyCascadingFields_eq zero, batch, parentOf,
    isEmpty_nil, if_pos rfl, link, word]
  by_cases next : parent.number % 2 ^ 64 = header.number % 2 ^ 64 - 1
  · rw [← next, holds]
  · dsimp only [orReject, bind, Except.bind]
    rw [rejectIf, if_pos (.inl next)]
    cases found : chain'.getHeader (parent.hash crypto) (header.number % 2 ^ 64 - 1) with
    | none => rfl
    | some h =>
      have refused : h.number % 2 ^ 64 ≠ header.number % 2 ^ 64 - 1 ∨
          h.hash crypto ≠ parent.hash crypto := by
        by_cases same : h.hash crypto = parent.hash crypto
        · exact .inl (only _ h found same ▸ next)
        · exact .inr same
      dsimp only
      rw [rejectIf, if_pos refused]

theorem store_getHeader {hash : Hash} {number : Nat} {h : Header}
    (found : (chain.store crypto header).getHeader hash number = some h) :
    h = header ∨ chain.getHeader hash number = some h := by
  rw [ChainReader.store] at found
  dsimp only at found
  split_ifs at found with here
  · exact .inl (Option.some.inj found).symm
  · exact .inr found

theorem HashesApart.store (apart : HashesApart crypto chain headers)
    (member : header ∈ headers) : HashesApart crypto (chain.store crypto header) headers := by
  refine ⟨apart.within, fun p listed number h found same => ?_⟩
  rcases store_getHeader found with rfl | before
  · exact apart.within h member p listed same
  · exact apart.stored p listed number h before same

theorem verifyHeadersAfter_stored (config : chain'.config = chain.config)
    (apart : HashesApart crypto chain' (parent :: headers))
    (holds : chain'.getHeader (parent.hash crypto) (parent.number % 2 ^ 64) = some parent)
    (linked : Linked crypto (parent :: headers)) :
    verifyStored crypto coinbase now chain' headers =
      verifyHeadersAfter crypto coinbase now chain (before ++ [parent]) headers := by
  induction headers generalizing before parent chain' with
  | nil => rfl
  | cons header headers ih =>
    obtain ⟨link, rest⟩ := isChain_cons_cons.mp linked
    rw [verifyStored, verifyHeadersAfter]
    congr 1
    · exact verifyHeader_congr config
        (verifyCascadingFields_stored link holds (apart.stored parent mem_cons_self))
    · have later := apart.store (mem_cons_of_mem _ mem_cons_self)
      refine ih config ⟨?_, ?_⟩ (if_pos ⟨rfl, rfl⟩) rest
      · exact fun p hp q hq => later.within p (mem_cons_of_mem _ hp) q (mem_cons_of_mem _ hq)
      · exact fun p hp => later.stored p (mem_cons_of_mem _ hp)

theorem verifyStored_eq (linked : Linked crypto headers) (apart : HashesApart crypto chain headers) :
    verifyStored crypto coinbase now chain headers =
      verifyHeaders crypto coinbase now chain headers := by
  cases headers with
  | nil => rfl
  | cons header headers =>
    rw [verifyStored, verifyHeaders, verifyHeadersAfter]
    exact congrArg _ (verifyHeadersAfter_stored rfl (apart.store mem_cons_self)
      (if_pos ⟨rfl, rfl⟩) linked)

theorem parent_of_accepted
    (accepted : verifyHeader crypto coinbase now chain header before true = .ok ())
    (nonzero : header.number % 2 ^ 64 ≠ 0) : ∃ parent, parentOf chain before header = some parent ∧
      parent.number % 2 ^ 64 = header.number % 2 ^ 64 - 1 := by
  simp only [verifyHeader, bind_eq_ok, exists_unit, verifyCascadingFields_eq nonzero,
    orReject_eq_ok, rejectIf_eq_ok] at accepted
  obtain ⟨-, -, -, -, -, -, -, -, -, parent, found, good, -⟩ := accepted
  exact ⟨parent, found, by tauto⟩

theorem follows_iff (accepted : verifyHeader crypto coinbase now chain header before true = .ok ())
    (found : parentOf chain before header = some parent) :
    header.number = parent.number + 1 ↔ WordsFit parent header := by
  unfold WordsFit
  split_ifs with zero
  · omega
  · obtain ⟨parent', found', next⟩ := parent_of_accepted accepted zero
    obtain rfl := Option.some.inj (found.symm.trans found')
    omega

end Batches

/-- A batch goes through exactly if its headers go through one by one; an accepted header has the
number after its parent's exactly if what lies beyond the low words is in order, too. -/
theorem header_linkage_iff (crypto : Crypto) (coinbase : Address) (now : Nat) (chain : ChainReader)
    (headers : List Header) (linked : Linked crypto headers)
    (apart : HashesApart crypto chain headers) :
    ((∀ report ∈ verifyHeaders crypto coinbase now chain headers, report = .ok ()) ↔
      ∀ report ∈ verifyStored crypto coinbase now chain headers, report = .ok ()) ∧
    ∀ before header after, headers = before ++ header :: after →
      verifyHeader crypto coinbase now chain header before true = .ok () → header.number ≠ 0 →
      ((∃ parent, parentOf chain before header = some parent ∧ header.number = parent.number + 1) ↔
        ∃ parent, parentOf chain before header = some parent ∧ WordsFit parent header) := by
  refine ⟨by rw [verifyStored_eq linked apart], fun before header _ _ accepted _ => ?_⟩
  exact exists_congr fun parent => and_congr_right fun found => follows_iff accepted found

def sampleLinked : Header := sampleSealed sampleHeader 0xfa

def sampleLinkedNext : Header := sampleSealed sampleLinked 0xfa

theorem sampleBatch_linked : Linked sampleCrypto [sampleLinked, sampleLinkedNext] := by
  refine isChain_cons_cons.mpr ⟨?_, isChain_singleton _⟩
  decide +kernel

theorem sampleBatch_apart : HashesApart sampleCrypto sampleChain [sampleLinked, sampleLinkedNext] := by
  have base : sampleHeader.hash sampleCrypto ≠ sampleLinked.hash sampleCrypto ∧
      sampleHeader.hash sampleCrypto ≠ sampleLinkedNext.hash sampleCrypto := by decide +kernel
  refine ⟨by decide +kernel, fun p listed number h found same => ?_⟩
  obtain rfl : sampleHeader = h := Option.some.inj found
  simp only [mem_cons, not_mem_nil, or_false] at listed
  rcases listed with rfl | rfl
  · exact absurd same base.1
  · exact absurd same base.2

theorem sampleBatch_accepted :
    verifyHeaders sampleCrypto 0 0 sampleChain [sampleLinked, sampleLinkedNext] = [.ok (), .ok ()] ∧
    (∀ report ∈ verifyStored sampleCrypto 0 0 sampleChain [sampleLinked, sampleLinkedNext],
      report = .ok ()) := by
  have reports : verifyHeaders sampleCrypto 0 0 sampleChain [sampleLinked, sampleLinkedNext] =
      [.ok (), .ok ()] := by decide +kernel
  refine ⟨reports, (header_linkage_iff _ _ _ _ _ sampleBatch_linked sampleBatch_apart).1.mp ?_⟩
  rw [reports]
  simp

def sampleBeyond : Header :=
  let h := { sampleLinked with number := 2 ^ 64 + 1 }
  { h with fairnodeSign := sampleSign (sealDigest sampleCrypto (h.hash sampleCrypto) h.voteHash) 0xfa }

theorem sampleBeyond_accepted :
    verifyHeaders sampleCrypto 0 0 sampleChain [sampleBeyond] = [.ok ()] ∧
    parentOf sampleChain [] sampleBeyond = some sampleHeader ∧
    sampleBeyond.number ≠ sampleHeader.number + 1 :=
  ⟨by decide +kernel, rfl, by decide⟩

end Anduschain
