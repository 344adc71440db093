import Anduschain.LeagueFaults

/-! The change of leagues. `makeOtprn` looks at the number of each finalized block:
a multiple of half the epoch makes a pending league, unless it is a multiple of the
epoch, at which the current league is rejected. The halves are taken in integers,
so an odd epoch does not reject where it should, and a league that begins late in
an epoch is rejected with none to follow. -/
namespace Anduschain
open ByteOrder FiniteRun List
open Option (map_eq_some_iff bind_eq_some_iff)

variable (epoch : UInt64) (number : ℕ)

def MakesPending (k : ℕ) : Prop :=
  halfEpoch epoch ∣ k ∧ ¬ epoch.toNat ∣ k ∧ k % 2 ^ 64 ≠ 0

def PendingReady (s : Fairnode) : Prop :=
  ∃ cur p r, s.currentLeague = some cur ∧ s.pendingLeague = some p ∧
    (s.leagues.erase cur).lookup p = some r

def MakerPoint.decides : MakerPoint → Bool
  | .handling | .writing _ _ _ => true
  | _ => false

def MakerPoint.makes : MakerPoint → Bool
  | .preparing false | .assigning false _ => true
  | _ => false

open MakerPoint (makes decides)

def Unanswered (s : Fairnode) : Prop := s.loop = .sending ∨ s.maker.decides = true

structure TermStart (s : Fairnode) (ref : ℕ) (l : League) : Prop where
  active : s.active = some ref
  found : s.heap[ref]? = some l
  pending : s.pendingLeague = none
  loop : s.loop = .idle
  maker : s.maker = .idle
  last : (s.lastBlock.map Header.number).getD l.current = l.current

section Guard
variable (env : FairnodeEnv) (s : Fairnode)

/-- Consecutive blocks: each is finalized under the next number, and after the signal of the
block before it was answered. -/
def Consecutive : Prop :=
  s.loop = .idle → ∀ ref ∈ s.active, ∀ l ∈ s.heap[ref]?, l.status = .finalize →
    s.maker.decides = false ∧ ∀ block ∈ s.db.currentBlock env.backend, block.number = l.current + 1

instance : Decidable (Consecutive env s) :=
  inferInstanceAs (Decidable (s.loop = .idle → ∀ ref ∈ s.active, ∀ l ∈ s.heap[ref]?,
    l.status = .finalize → _ ∧ ∀ block ∈ s.db.currentBlock env.backend, block.number = l.current + 1))

/-- Active nodes suffice, and the random bytes of a new OTPRN are not those of the current one. -/
def Supplied : MakerPoint → Prop
  | .preparing _ => ∀ config ∈ s.db.getChainConfig env.crypto env.backend,
      config.minMiner ≤ UInt64.ofNat s.db.getActiveNode.length
  | .adding otprn => s.currentLeague ≠ some (otprn.hashOtprn env.crypto)
  | _ => True

instance : ∀ point, Decidable (Supplied env s point)
  | .preparing _ => inferInstanceAs (Decidable (∀ config ∈ s.db.getChainConfig env.crypto env.backend,
      config.minMiner ≤ UInt64.ofNat s.db.getActiveNode.length))
  | .adding otprn => inferInstanceAs (Decidable (s.currentLeague ≠ some (otprn.hashOtprn env.crypto)))
  | .idle | .assigning _ _ | .saving _ | .handling | .writing _ _ _ => inferInstanceAs (Decidable True)

def TermGuard : Action → Prop
  | .tick _ => Consecutive env s
  | .resume => s.loop ≠ .rejecting
  | .makeOtprn _ => Supplied env s s.maker
  | _ => True

instance : ∀ a, Decidable (TermGuard env s a)
  | .tick _ => inferInstanceAs (Decidable (Consecutive env s))
  | .resume => inferInstanceAs (Decidable (s.loop ≠ .rejecting))
  | .makeOtprn _ => inferInstanceAs (Decidable (Supplied env s s.maker))
  | .call _ _ | .perform _ | .removeActiveNode _ => inferInstanceAs (Decidable True)

end Guard

/-- The numbers of the term, up to the last answered one, that make a pending league. -/
def Due (l₀ : League) (s : Fairnode) (l : League) (k : ℕ) : Prop :=
  l₀.current < k ∧ (k < l.current ∨ k = l.current ∧ ¬ Unanswered s) ∧
    MakesPending l₀.otprn.data.epoch k

structure OnTerm (env : FairnodeEnv) (ref : ℕ) (l₀ : League) (s : Fairnode) (l : League) : Prop where
  active : s.active = some ref
  found : s.heap[ref]? = some l
  otprn : l.otprn = l₀.otprn
  last : (s.lastBlock.map Header.number).getD l.current = l.current
  began : l₀.current ≤ l.current
  advanced : Unanswered s → l₀.current < l.current
  decided : ∀ r status pend, s.maker = .writing r status pend →
    r = ref ∧ epochStatus l = some (status, pend)
  due : (∃ k, Due l₀ s l k) ↔ s.pendingLeague ≠ none ∨ s.maker.makes = true
  ready : ∀ p, s.pendingLeague = some p →
    (∃ otprn, s.maker = .adding otprn ∧ otprn.hashOtprn env.crypto = p) ∨
      ∃ cur r, s.currentLeague = some cur ∧ (s.leagues.erase cur).lookup p = some r
  apart : s.loop = .sending → s.maker.decides = false
  quiet : s.loop ≠ .refreshing
  noCurrent : s.maker ≠ .preparing true ∧ ∀ otprn, s.maker ≠ .assigning true otprn

section Arithmetic

theorem epochStatus_some {l : League} {status : FnStatus} {pend : Bool}
    (positive : l.otprn.data.epoch ≠ 0) (decided : epochStatus l = some (status, pend)) :
    (status = .reject ↔ l.current % 2 ^ 64 ≠ 0 ∧ halfEpoch l.otprn.data.epoch ∣ l.current ∧
        l.otprn.data.epoch.toNat ∣ l.current) ∧
      (pend = true ↔ MakesPending l.otprn.data.epoch l.current) := by
  rw [epochStatus_eq] at decided
  unfold MakesPending
  generalize l.current % 2 ^ 64 = word at decided ⊢
  split at decided
  · rename_i early
    have zero : word = 0 := early.resolve_left positive
    cases decided
    simp [zero]
  · rename_i late
    obtain ⟨-, nonzero⟩ := not_or.mp late
    split at decided
    · cases decided
    · split at decided
      · rename_i half
        split at decided
        · rename_i whole
          cases decided
          simp [nonzero, half, whole]
        · rename_i whole
          cases decided
          simp [nonzero, half, whole]
      · rename_i half
        cases decided
        simp [half]

end Arithmetic

section Term
variable {env : FairnodeEnv} {ref : ℕ} {l₀ l l' : League} {s t : Fairnode}

theorem epochStatus_congr (otprn : l'.otprn = l.otprn) (current : l'.current = l.current) :
    epochStatus l' = epochStatus l := by
  unfold epochStatus
  rw [otprn, current]

theorem OnTerm.carry (on : OnTerm env ref l₀ s l) (found : t.heap[ref]? = some l')
    (otprn : l'.otprn = l.otprn) (current : l'.current = l.current)
    (leagues : t.leagues = s.leagues) (currentLeague : t.currentLeague = s.currentLeague)
    (pendingLeague : t.pendingLeague = s.pendingLeague) (lastBlock : t.lastBlock = s.lastBlock)
    (maker : t.maker = s.maker) (sending : t.loop = .sending ↔ s.loop = .sending)
    (quiet : t.loop ≠ .refreshing) : OnTerm env ref l₀ t l' := by
  have unanswered : Unanswered t ↔ Unanswered s := by rw [Unanswered, Unanswered, sending, maker]
  refine ⟨?_, found, otprn.trans on.otprn, ?_, ?_, ?_, ?_, ?_, ?_, ?_, quiet, ?_⟩
  · rw [Fairnode.active, leagues, currentLeague]
    exact on.active
  · rw [lastBlock, current]
    exact on.last
  · rw [current]
    exact on.began
  · rw [unanswered, current]
    exact on.advanced
  · rw [maker, epochStatus_congr otprn current]
    exact on.decided
  · simp only [Due, unanswered, current, pendingLeague, maker]
    exact on.due
  · rw [pendingLeague, maker, leagues, currentLeague]
    exact on.ready
  · rw [sending, maker]
    exact on.apart
  · rw [maker]
    exact on.noCurrent

theorem OnTerm.maker_moves (on : OnTerm env ref l₀ s l) {point : MakerPoint} {otprnList : List Otprn}
    (decides : point.decides = s.maker.decides)
    (makes : s.pendingLeague = none → point.makes = s.maker.makes)
    (decided : ∀ r status pend, point = .writing r status pend →
      r = ref ∧ epochStatus l = some (status, pend)) (adding : ∀ otprn, s.maker ≠ .adding otprn)
    (noCurrent : point ≠ .preparing true ∧ ∀ otprn, point ≠ .assigning true otprn) :
    OnTerm env ref l₀ { s with maker := point, db := { s.db with otprnList } } l := by
  have unanswered : Unanswered { s with maker := point, db := { s.db with otprnList } } ↔
      Unanswered s := by
    simp only [Unanswered, decides]
  refine ⟨on.active, on.found, on.otprn, on.last, on.began, ?_, decided, ?_, ?_, ?_, on.quiet, noCurrent⟩
  · rw [unanswered]
    exact on.advanced
  · have due := on.due
    simp only [Due, unanswered] at due ⊢
    rw [due]
    by_cases none : s.pendingLeague = none
    · simp only [none, ne_eq, not_true, false_or, makes none]
    · simp only [none, ne_eq, not_false_eq_true, true_or]
  · intro p isPending
    rcases on.ready p isPending with ⟨otprn, isAdding, -⟩ | ready
    · exact absurd isAdding (adding otprn)
    · exact .inr ready
  · rw [decides]
    exact on.apart

variable {r : ℕ} {x : League} {order : List (Header × ℕ)}

theorem finalizeRound_lastBlock (isIdle : s.loop = .idle)
    (next : finalizeRound env s r x = some t) :
    if t.loop = .sending then t.lastBlock = s.db.currentBlock env.backend
    else t.lastBlock = s.lastBlock := by
  unfold finalizeRound at next
  split at next
  · rename_i block current
    cases next
    exact current.symm
  · obtain ⟨hash, -, rfl⟩ := map_eq_some_iff.mp next
    simp [Fairnode.setLeague, isIdle]

theorem manage_lastBlock {cur : Hash}
    (isIdle : s.loop = .idle) (next : manage env s cur r x order = some t) :
    if t.loop = .sending then t.lastBlock = s.db.currentBlock env.backend
    else t.lastBlock = s.lastBlock := by
  unfold manage at next
  cases status : x.status with
  | finalize =>
    rw [status] at next
    exact finalizeRound_lastBlock isIdle next
  | pending =>
    rw [status] at next
    cases next
    unfold awaitNodes
    dsimp only
    split
    · simp [Fairnode.setLeague, isIdle]
    · split <;> simp [Fairnode.setLeague, isIdle]
  | voteCounting =>
    rw [status] at next
    simp only [countVotes] at next
    split at next
    · cases next
    · split at next
      · cases next
        simp [Fairnode.setLeague, isIdle]
      · split at next
        · obtain ⟨hash, -, rfl⟩ := map_eq_some_iff.mp next
          simp [Fairnode.setLeague]
        · cases next
  | sendBlock =>
    rw [status] at next
    simp only [awaitBlock] at next
    split at next
    · cases next
    · split at next
      · cases next
        simp [Fairnode.setLeague, isIdle]
      · split at next <;> cases next <;> simp [Fairnode.setLeague, isIdle]
  | saveOtprn | makeLeague | makeJoinTx | makeBlock | leagueBroadcasting | voteStart | voteComplete
  | makePendingLeague | sendBlockWait | reqFairnodeSign | reject =>
    rw [status] at next
    cases next
    simp [makeJoinTx, Fairnode.setLeague, isIdle]

theorem tick_lastBlock (next : tick env s order = some t) :
    if t.loop = .sending then t.lastBlock = s.db.currentBlock env.backend
    else t.lastBlock = s.lastBlock := by
  unfold tick at next
  split at next
  · rename_i isIdle
    split at next
    · cases next
      simp [isIdle]
    · split at next
      · cases next
        simp [isIdle]
      · obtain ⟨x, -, next⟩ := bind_eq_some_iff.mp next
        exact manage_lastBlock isIdle next
  · cases next

variable (on : OnTerm env ref l₀ s l)
include on

theorem OnTerm.ticked {x' : League}
    (next : tick env s order = some t) (guard : Consecutive env s) (isIdle : s.loop = .idle)
    (isActive : s.active = some r) (was : s.heap[r]? = some x) (ticked : Ticked env s t r x x') :
    OnTerm env ref l₀ t x' := by
  cases on.active.symm.trans isActive
  cases on.found.symm.trans was
  have found : t.heap[ref]? = some x' := by
    rw [ticked.heap, getElem?_set_self (List.getElem?_eq_some_iff.mp was).1]
  have turn := ticked.turn
  have lastBlock := tick_lastBlock next
  have same {point : LoopPoint} (loop : t.loop = point) (awake : point ≠ .sending)
      (quiet : point ≠ .refreshing) (current : x'.current = l.current) : OnTerm env ref l₀ t x' := by
    rw [loop, if_neg awake] at lastBlock
    exact on.carry found turn.otprn current ticked.leagues ticked.currentLeague ticked.pendingLeague
      lastBlock ticked.maker (by rw [loop, isIdle]; simp [awake]) (by rwa [loop])
  generalize point : t.loop = after at turn
  cases turn with
  | wait | gather | reject | sleep | count | store | leave => exact same point (by simp) (by simp) rfl
  | join status last => exact same point (by simp) (by simp) (last.trans on.last)
  | @finish block status isBlock =>
    obtain ⟨answered, consecutive⟩ := guard isIdle ref on.active l on.found status
    have number := consecutive block isBlock
    have before : ¬ Unanswered s := by simp [Unanswered, isIdle, answered]
    have after : Unanswered t := .inl point
    rw [if_pos point, isBlock] at lastBlock
    refine ⟨?_, found, on.otprn, ?_, ?_, ?_, ?_, ?_, ?_, ?_, by simp [point], ?_⟩
    · rw [Fairnode.active, ticked.leagues, ticked.currentLeague]
      exact on.active
    · rw [lastBlock]
      rfl
    · have began := on.began
      dsimp only
      omega
    · intro _
      have began := on.began
      dsimp only
      omega
    · intro r status pend writing
      rw [ticked.maker] at writing
      rw [writing] at answered
      cases answered
    · have due := on.due
      -- what was answered up to the last number is what lies below the new one
      simp only [Due, before, after, not_true, not_false_eq_true, and_true, and_false, or_false,
        number, ticked.pendingLeague, ticked.maker, Nat.lt_succ_iff, ← Nat.le_iff_lt_or_eq] at due ⊢
      exact due
    · rw [ticked.pendingLeague, ticked.maker, ticked.leagues, ticked.currentLeague]
      exact on.ready
    · rw [ticked.maker]
      exact fun _ => answered
    · rw [ticked.maker]
      exact on.noCurrent

theorem OnTerm.resumed (guard : s.loop ≠ .rejecting)
    (resumed : Resumed env s t) : ∃ l', OnTerm env ref l₀ t l' := by
  cases resumed with
  | @wake r next x loop was built =>
    subst built
    have carry {l' : League} (found : (s.heap.set r { x with status := next })[ref]? = some l')
        (otprn : l'.otprn = l.otprn) (current : l'.current = l.current) :
        ∃ l', OnTerm env ref l₀ { s.setLeague r { x with status := next } with loop := .idle } l' :=
      ⟨l', on.carry found otprn current rfl rfl rfl rfl rfl (by simp [loop]) (by simp)⟩
    by_cases same : r = ref
    · subst same
      cases on.found.symm.trans was
      exact carry (getElem?_set_self (List.getElem?_eq_some_iff.mp was).1) rfl rfl
    · exact carry ((getElem?_set_ne same).trans on.found) rfl rfl
  | signal loop idle built =>
    subst built
    have before : Unanswered s := .inl loop
    have after : Unanswered { s with loop := .idle, maker := .handling } := .inr rfl
    refine ⟨l, on.active, on.found, on.otprn, on.last, on.began, fun _ => on.advanced before,
      by simp, ?_, ?_, by simp, by simp, by simp⟩
    · have due := on.due
      simp only [Due, before, after, idle, makes] at due ⊢
      exact due
    · intro p isPending
      rcases on.ready p isPending with ⟨otprn, isAdding, -⟩ | ready
      · cases idle.symm.trans isAdding
      · exact .inr ready
  | change loop => exact absurd loop guard
  | refresh loop => exact absurd loop on.quiet

theorem OnTerm.outside (outside : Outside s t) : OnTerm env ref l₀ t l :=
  on.carry (by rw [outside.heap]; exact on.found) rfl rfl outside.leagues outside.currentLeague
    outside.pendingLeague outside.lastBlock outside.maker (by rw [outside.loop])
    (by rw [outside.loop]; exact on.quiet)

theorem OnTerm.written (positive : l₀.otprn.data.epoch ≠ 0)
    {status : FnStatus} {pend : Bool} (point : s.maker = .writing r status pend)
    (was : s.heap[r]? = some x) : ∃ l', OnTerm env ref l₀ { s.setLeague r { x with status } with
      maker := if pend then .preparing false else .idle } l' := by
  obtain ⟨rfl, decided⟩ := on.decided r status pend point
  cases on.found.symm.trans was
  have before : Unanswered s := .inr (by rw [point]; rfl)
  have awake : s.loop ≠ .sending := by
    intro sending
    have answered := on.apart sending
    rw [point] at answered
    cases answered
  have after : ¬ Unanswered { s.setLeague r { l with status } with
      maker := if pend then .preparing false else .idle } := by
    cases pend <;> simp [Unanswered, decides, Fairnode.setLeague, awake]
  have makes : (if pend then MakerPoint.preparing false else .idle).makes = pend := by
    cases pend <;> rfl
  have asks : pend = true ↔ MakesPending l₀.otprn.data.epoch l.current := by
    have some := (epochStatus_some (by rwa [on.otprn]) decided).2
    rwa [on.otprn] at some
  refine ⟨{ l with status }, on.active, getElem?_set_self (List.getElem?_eq_some_iff.mp was).1,
    on.otprn, on.last, on.began, fun unanswered => absurd unanswered after, ?_, ?_, ?_, ?_, on.quiet, ?_⟩
  · cases pend <;> simp
  · have due := on.due
    have advanced := on.advanced before
    simp only [Due, before, point, MakerPoint.makes, not_true, and_false, or_false,
      Bool.false_eq_true] at due
    simp only [Due, after, makes, asks, not_false_eq_true, and_true]
    change _ ↔ s.pendingLeague ≠ none ∨ _
    rw [← due]
    constructor
    · rintro ⟨k, later, below | rfl, number⟩
      · exact .inl ⟨k, later, below, number⟩
      · exact .inr number
    · rintro (⟨k, later, below, number⟩ | number)
      · exact ⟨k, later, .inl below, number⟩
      · exact ⟨l.current, advanced, .inr rfl, number⟩
  · intro p isPending
    rcases on.ready p isPending with ⟨otprn, isAdding, -⟩ | ready
    · cases point.symm.trans isAdding
    · exact .inr ready
  · intro sending
    exact absurd sending awake
  · cases pend <;> simp

theorem OnTerm.added {otprn : Otprn} (point : s.maker = .adding otprn)
    (other : s.currentLeague ≠ some (otprn.hashOtprn env.crypto)) :
    OnTerm env ref l₀ { addLeague env s otprn with maker := .saving otprn } l := by
  obtain ⟨cur, isCurrent, lookup⟩ := bind_eq_some_iff.mp on.active
  have apart : cur ≠ otprn.hashOtprn env.crypto := by
    rintro rfl
    exact other isCurrent
  have unanswered : Unanswered { addLeague env s otprn with maker := .saving otprn } ↔
      Unanswered s := by
    simp [Unanswered, addLeague, point, decides]
  have bound := (List.getElem?_eq_some_iff.mp on.found).1
  refine ⟨?_, ?_, on.otprn, on.last, on.began, fun waits => on.advanced (unanswered.mp waits), by simp,
    ?_, ?_, fun _ => rfl, on.quiet, by simp⟩
  · rw [Fairnode.active]
    refine bind_eq_some_iff.mpr ⟨cur, isCurrent, ?_⟩
    exact (AList.lookup_insert_ne apart).trans lookup
  · exact (getElem?_append_left bound).trans on.found
  · have due := on.due
    rw [point] at due
    simp only [Due, unanswered] at due ⊢
    exact due
  · intro p isPending
    refine .inr ⟨cur, ?_⟩
    by_cases own : p = otprn.hashOtprn env.crypto
    · refine ⟨s.heap.length, isCurrent, ?_⟩
      rw [own, AList.lookup_erase_ne apart.symm]
      exact AList.lookup_insert _
    · rcases on.ready p isPending with ⟨otprn', isAdding, rfl⟩ | ⟨cur', r, isCurrent', found⟩
      · cases point.symm.trans isAdding
        exact absurd rfl own
      · cases isCurrent.symm.trans isCurrent'
        obtain ⟨notCur, found⟩ := lookup_of_erase found
        refine ⟨r, isCurrent, ?_⟩
        rw [AList.lookup_erase_ne notCur]
        exact (AList.lookup_insert_ne own).trans found

theorem OnTerm.made (positive : l₀.otprn.data.epoch ≠ 0)
    (guard : Supplied env s s.maker) (made : Made env s t) : ∃ l', OnTerm env ref l₀ t l' := by
  obtain ⟨cur, isCurrent, -⟩ := bind_eq_some_iff.mp on.active
  cases made with
  | rest idle built => exact ⟨l, built ▸ on⟩
  | begin idle none => cases isCurrent.symm.trans none
  | @prepare isCur config otprn point stored fresh built =>
    subst built
    cases isCur with
    | true => exact absurd point on.noCurrent.1
    | false =>
      exact ⟨l, on.maker_moves (by rw [point]; rfl) (fun _ => by rw [point]; rfl) (by simp)
        (by simp [point]) (by simp)⟩
  | scarce point stored few =>
    rw [point] at guard
    exact absurd (guard _ stored) few
  | current point => exact absurd point (on.noCurrent.2 _)
  | @pending otprn point none built =>
    subst built
    have unanswered : Unanswered { s with
        pendingLeague := some (otprn.hashOtprn env.crypto), maker := .adding otprn } ↔
        Unanswered s := by
      simp [Unanswered, point, decides]
    refine ⟨l, on.active, on.found, on.otprn, on.last, on.began,
      fun waits => on.advanced (unanswered.mp waits), by simp, ?_, ?_, fun _ => rfl, on.quiet, by simp⟩
    · have due := on.due
      simp only [Due, unanswered, point, makes, or_true, iff_true] at due ⊢
      simpa using due
    · rintro p ⟨⟩
      exact .inl ⟨otprn, rfl, rfl⟩
  | @taken isCur otprn point exist built =>
    subst built
    cases isCur with
    | true => exact absurd point (on.noCurrent.2 otprn)
    | false =>
      exact ⟨l, on.maker_moves (by rw [point]; rfl) (fun none => absurd none (exist rfl)) (by simp)
        (by simp [point]) (by simp)⟩
  | add point built =>
    subst built
    rw [point] at guard
    exact ⟨l, on.added point guard⟩
  | @save otprn point built =>
    subst built
    obtain ⟨otprnList, frame⟩ := s.db.saveOtprn_frame env.crypto env.backend otprn
    rw [frame]
    exact ⟨l, on.maker_moves (by rw [point]; rfl) (fun _ => by rw [point]; rfl) (by simp)
      (by simp [point]) (by simp)⟩
  | ignore point none => cases on.active.symm.trans none
  | decide point isActive was decided built =>
    subst built
    cases on.active.symm.trans isActive
    cases on.found.symm.trans was
    refine ⟨l, on.maker_moves (by rw [point]; rfl) (fun _ => by rw [point]; rfl) ?_
      (by simp [point]) (by simp)⟩
    rintro _ _ _ ⟨⟩
    exact ⟨rfl, decided⟩
  | write point was built =>
    subst built
    exact on.written positive point was

theorem OnTerm.step (positive : l₀.otprn.data.epoch ≠ 0) {a : Action}
    (guard : TermGuard env s a) (next : step env s a = some t) : ∃ l', OnTerm env ref l₀ t l' := by
  cases a with
  | tick order =>
    rcases tick_turn next with rfl | ⟨r, x, x', isIdle, isActive, was, ticked⟩
    · exact ⟨l, on⟩
    · exact ⟨x', on.ticked next guard isIdle isActive was ticked⟩
  | resume => exact on.resumed guard (resume_cases next)
  | makeOtprn fresh => exact on.made positive guard (makeOtprn_cases next)
  | call r req => exact ⟨l, on.outside (call_outside next)⟩
  | perform i =>
    obtain ⟨w, -, rfl⟩ := map_eq_some_iff.mp next
    exact ⟨l, on.outside (perform_outside s i w)⟩
  | removeActiveNode enode =>
    cases next
    exact ⟨l, on.carry on.found rfl rfl rfl rfl rfl rfl rfl Iff.rfl on.quiet⟩

end Term

theorem onTerm_start {env : FairnodeEnv} {s : Fairnode} {ref : ℕ} {l : League}
    (start : TermStart s ref l) : OnTerm env ref l s l := by
  have answered : ¬ Unanswered s := by simp [Unanswered, start.loop, start.maker, decides]
  refine ⟨start.active, start.found, rfl, start.last, le_rfl, fun waits => absurd waits answered,
    by simp [start.maker], ?_, by simp [start.pending], ?_, by simp [start.loop], by simp [start.maker]⟩
  · simp only [Due, start.pending, start.maker, makes, ne_eq, not_true, or_self,
      Bool.false_eq_true, iff_false]
    rintro ⟨k, later, below | ⟨same, -⟩, -⟩
    · omega
    · omega
  · simp [start.loop]

/-- In a run of consecutive finalized blocks, from the start of a league's term, with active
nodes enough: each answer rejects the league exactly at the multiples of its epoch, with a
league ready to follow, if and only if at such a multiple half the epoch divides the number
too and an earlier number of the term has made a pending league. -/
theorem league_rotates_iff (env : FairnodeEnv) (s₀ : Fairnode) (ref : ℕ) (l₀ : League)
    (start : TermStart s₀ ref l₀) (epoch : 2 ≤ l₀.otprn.data.epoch.toNat) (acts : List Action)
    (guarded : Guarded (step env) (TermGuard env) s₀ acts) (s : Fairnode)
    (ran : run (step env) s₀ acts = some s) (r : ℕ) (status : FnStatus) (pend : Bool)
    (decided : s.maker = .writing r status pend) :
    r = ref ∧ ∃ l : League, s.heap[ref]? = some l ∧ l₀.current < l.current ∧
      (((status = .reject ↔ l₀.otprn.data.epoch.toNat ∣ l.current) ∧
          (status = .reject → PendingReady s)) ↔
        (l₀.otprn.data.epoch.toNat ∣ l.current →
          l.current % 2 ^ 64 ≠ 0 ∧ halfEpoch l₀.otprn.data.epoch ∣ l.current ∧
          ∃ k, l₀.current < k ∧ k < l.current ∧ MakesPending l₀.otprn.data.epoch k)) := by
  have positive : l₀.otprn.data.epoch ≠ 0 := by
    intro zero
    rw [zero] at epoch
    cases epoch
  have kept (s : Fairnode) (a : Action) (t : Fairnode) (on : ∃ l, OnTerm env ref l₀ s l)
      (guard : TermGuard env s a) (next : step env s a = some t) : ∃ l, OnTerm env ref l₀ t l := by
    obtain ⟨l, on⟩ := on
    exact on.step positive guard next
  obtain ⟨l, on⟩ := run_keeps kept ⟨l₀, onTerm_start start⟩ guarded ran
  obtain ⟨own, answer⟩ := on.decided r status pend decided
  have waits : Unanswered s := .inr (by rw [decided]; rfl)
  refine ⟨own, l, on.found, on.advanced waits, ?_⟩
  have rejects := (epochStatus_some (by rwa [on.otprn]) answer).1
  rw [on.otprn] at rejects
  have ready : PendingReady s ↔
      ∃ k, l₀.current < k ∧ k < l.current ∧ MakesPending l₀.otprn.data.epoch k := by
    have due := on.due
    simp only [Due, waits, decided, makes, not_true, and_false, or_false,
      Bool.false_eq_true] at due
    rw [due]
    constructor
    · rintro ⟨cur, p, r, -, isPending, -⟩ none
      cases none.symm.trans isPending
    · intro some
      obtain ⟨p, isPending⟩ := Option.ne_none_iff_exists'.mp some
      rcases on.ready p isPending with ⟨otprn, isAdding, -⟩ | ⟨cur, r, isCurrent, found⟩
      · cases decided.symm.trans isAdding
      · exact ⟨cur, p, r, isCurrent, isPending, found⟩
  rw [rejects, ready]
  by_cases whole : l₀.otprn.data.epoch.toNat ∣ l.current
  · simp only [whole, and_true, iff_true, true_implies]
    tauto
  · simp [whole]

theorem even_epoch_rotates {epoch : UInt64} {n₀ n : ℕ} (even : 2 ∣ epoch.toNat)
    (positive : epoch ≠ 0) (small : epoch.toNat < 2 ^ 63) (regular : epoch.toNat ∣ n₀)
    (later : n₀ < n) (fits : n < 2 ^ 64) (whole : epoch.toNat ∣ n) :
    n % 2 ^ 64 ≠ 0 ∧ halfEpoch epoch ∣ n ∧ ∃ k, n₀ < k ∧ k < n ∧ MakesPending epoch k := by
  have half : halfEpoch epoch = epoch.toNat / 2 := by rw [halfEpoch_eq, if_pos small]
  obtain ⟨h, twice⟩ := even
  have pos : 0 < h := by
    rcases Nat.eq_zero_or_pos h with rfl | pos
    · exact absurd (UInt64.toNat_inj.mp twice) positive
    · exact pos
  have isHalf : halfEpoch epoch = h := by
    rw [half, twice]
    omega
  obtain ⟨i, rfl⟩ := regular
  obtain ⟨j, rfl⟩ := whole
  have apart : i < j := Nat.lt_of_mul_lt_mul_left later
  have step : epoch.toNat * i + epoch.toNat ≤ epoch.toNat * j := by
    rw [← Nat.mul_succ]
    exact Nat.mul_le_mul_left _ apart
  rw [isHalf, Nat.mod_eq_of_lt fits]
  refine ⟨by omega, ⟨2 * j, by rw [twice]; ring⟩, epoch.toNat * i + h, by omega, by omega, ?_, ?_, ?_⟩
  · rw [isHalf]
    exact ⟨2 * i + 1, by rw [twice]; ring⟩
  · intro divides
    have rest := (Nat.dvd_add_right ⟨i, rfl⟩).mp divides
    have bound := Nat.le_of_dvd pos rest
    omega
  · rw [Nat.mod_eq_of_lt (by omega)]
    omega

/-! Rounds of the first league, with a new league of its own random bytes to follow. -/

def sampleTerm (rand : BitVec 160) : Otprn := sampleLeague rand 1 (samplePeriod epoch)

def sampleBlockAt (otprn : Otprn) (number : ℕ) : Header :=
  let h : Header := { sampleHeader with number, otprn := otprn.encodeOtprn }
  { h with difficulty := (h.calcDifficulty sampleCrypto).toNat }

def sampleHeight : FairnodeDB :=
  { (FairnodeDB.new [samplePeriod epoch]).saveActiveNode
      { HeartBeat.zero with enode := [1], minerAddress := sampleText 5 } with
    blockChain := if number = 0 then [] else [{ sampleHeader with number }] }

def sampleTermStart : Option Fairnode :=
  run (step (sampleNode .mongo)) (.start .mongo (sampleHeight epoch number))
    (sampleMake (sampleTerm epoch 7))

def sampleFinish (block : Header) : List Action :=
  sampleCall 0 (sampleVote block 5) ++ [.tick [(block, 1)], .resume, .tick [], .resume] ++
    sampleCall 0 (sampleSend block 5) ++
    [.tick [], .tick [], .resume, .tick [], .resume, .makeOtprn (sampleTerm 0 0)]

def sampleOpening : List Action :=
  sampleCall 0 (sampleJoin [1] 5) ++ sampleRound ++
    sampleFinish (sampleBlockAt (sampleTerm epoch 7) number)

def sampleSecond : List Action :=
  List.replicate 5 (.makeOtprn (sampleTerm epoch 8)) ++
    (List.replicate 4 [.tick [], .resume]).flatten ++
    sampleFinish (sampleBlockAt (sampleTerm epoch 7) number)

def sampleRotation (acts : List Action) : Option (Fairnode × League × Fairnode × League) :=
  (sampleTermStart epoch number).bind fun s₀ => (s₀.heap[0]?).bind fun l₀ =>
    (run (step (sampleNode .mongo)) s₀ acts).bind fun s => (s.heap[0]?).map fun l => (s₀, l₀, s, l)

theorem sampleRotation_some {epoch : UInt64} {number : ℕ} {acts : List Action} {s₀ s : Fairnode}
    {l₀ l : League} (rotation : sampleRotation epoch number acts = some (s₀, l₀, s, l)) :
    s₀.heap[0]? = some l₀ ∧ run (step (sampleNode .mongo)) s₀ acts = some s ∧ s.heap[0]? = some l := by
  obtain ⟨s₀', -, rotation⟩ := bind_eq_some_iff.mp rotation
  obtain ⟨l₀', found₀, rotation⟩ := bind_eq_some_iff.mp rotation
  obtain ⟨s', ran, rotation⟩ := bind_eq_some_iff.mp rotation
  obtain ⟨l', found, same⟩ := map_eq_some_iff.mp rotation
  cases same
  exact ⟨found₀, ran, found⟩

/-- An epoch of two: the first block makes a pending league, the second rejects the current one. -/
theorem sampleRotation_even : ∃ s₀ l₀ s l,
    sampleRotation 2 0 (sampleOpening 2 1 ++ sampleSecond 2 2) = some (s₀, l₀, s, l) ∧
      s.maker = .writing 0 .reject false ∧ l.current = 2 ∧ PendingReady s := by
  have facts : (sampleRotation 2 0 (sampleOpening 2 1 ++ sampleSecond 2 2)).map (fun x =>
      decide (x.1.active = some 0 ∧ x.1.pendingLeague = none ∧ x.1.loop = .idle ∧ x.1.maker = .idle ∧
        (x.1.lastBlock.map Header.number).getD x.2.1.current = x.2.1.current ∧
        x.2.1.otprn.data.epoch = 2 ∧ x.2.1.current = 0 ∧
        Guarded (step (sampleNode .mongo)) (TermGuard (sampleNode .mongo)) x.1
          (sampleOpening 2 1 ++ sampleSecond 2 2) ∧
        x.2.2.1.maker = .writing 0 .reject false ∧ x.2.2.2.current = 2)) = some true := by
    decide +kernel
  obtain ⟨⟨s₀, l₀, s, l⟩, rotation, facts⟩ := map_eq_some_iff.mp facts
  obtain ⟨active, pending, loop, maker, last, epoch, zero, guarded, decided, two⟩ :=
    of_decide_eq_true facts
  obtain ⟨found₀, ran, found⟩ := sampleRotation_some rotation
  have start : TermStart s₀ 0 l₀ := ⟨active, found₀, pending, loop, maker, last⟩
  obtain ⟨-, l', found', -, rotates⟩ := league_rotates_iff (sampleNode .mongo) s₀ 0 l₀ start
    (by rw [epoch]; decide) _ guarded s ran 0 .reject false decided
  cases found.symm.trans found'
  have ready := rotates.mpr fun whole => by
    rw [two, epoch] at whole ⊢
    rw [zero]
    exact even_epoch_rotates (by decide) (by decide) (by decide) (by decide) (by decide) (by decide)
      whole
  exact ⟨s₀, l₀, s, l, rotation, decided, two, ready.2 rfl⟩

/-- An epoch of five is not rejected at the block five, and an epoch of ten whose league
begins at nine is rejected at ten with no league to follow. -/
theorem sampleRotation_odd_or_late :
    (sampleRotation 5 4 (sampleOpening 5 5)).map (fun x => (x.2.2.2.current, x.2.2.1.maker)) =
        some (5, .writing 0 .makeJoinTx false) ∧
      (sampleRotation 10 9 (sampleOpening 10 10)).map (fun x =>
          (x.2.2.2.current, x.2.2.1.maker, x.2.2.1.pendingLeague)) =
        some (10, .writing 0 .reject false, none) := by
  exact ⟨by decide +kernel, by decide +kernel⟩

end Anduschain
