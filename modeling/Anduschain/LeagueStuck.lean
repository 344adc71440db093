import Anduschain.LeagueRotation

/-! Whether the leader's current league is one that it still has. The REJECT branch deletes the
league and moves on to the pending one, and `makeOtprn` announces a pending league before it adds
it. -/
namespace Anduschain
open FiniteRun

def MakerPoint.announced (crypto : Crypto) : MakerPoint → Option Hash
  | .adding otprn => some (otprn.hashOtprn crypto)
  | _ => none

section Keys
variable (env : FairnodeEnv)

/-- The current league is a key of `leagues`, unless the step that adds it is in progress. -/
def Keyed (s : Fairnode) : Prop :=
  ∀ cur, s.currentLeague = some cur →
    (s.leagues.lookup cur).isSome ∨ s.maker.announced env.crypto = some cur

/-- A league change finds the announced league: it has been added, under another key than the
current one. -/
def ChangeGuard (s : Fairnode) (a : Action) : Prop :=
  a = .resume → s.loop = .rejecting → ∀ cur, s.currentLeague = some cur →
    ∀ pending, s.pendingLeague = some pending →
      ((s.leagues.erase cur).lookup pending).isSome ∨ s.maker.announced env.crypto = some cur

instance (s : Fairnode) (a : Action) : Decidable (ChangeGuard env s a) :=
  match a with
  | .resume => decidable_of_iff (s.loop = .rejecting → ∀ cur ∈ s.currentLeague,
      ∀ pending ∈ s.pendingLeague, ((s.leagues.erase cur).lookup pending).isSome ∨
        s.maker.announced env.crypto = some cur) ⟨fun holds _ => holds, fun holds => holds rfl⟩
  | .tick _ | .makeOtprn _ | .call .. | .perform _ | .removeActiveNode _ =>
    .isTrue fun impossible => nomatch impossible

variable {env} {s t : Fairnode}

theorem changeLeague_keyed_iff {u : Fairnode} (changed : changeLeague env s = some u) :
    Keyed env u ↔ ∀ cur, s.currentLeague = some cur → ∀ pending, s.pendingLeague = some pending →
      ((s.leagues.erase cur).lookup pending).isSome ∨ s.maker.announced env.crypto = some cur := by
  unfold changeLeague at changed
  obtain ⟨cur, isCurrent, changed⟩ := Option.bind_eq_some_iff.mp changed
  dsimp only at changed
  have only (P : Hash → Prop) : (∀ c, s.currentLeague = some c → P c) ↔ P cur := by
    rw [isCurrent]
    exact ⟨fun all => all cur rfl, fun here c same => Option.some.inj same ▸ here⟩
  rw [only]
  split at changed
  · rename_i none
    cases changed
    simp [Keyed, none]
  · rename_i pending isPending
    rw [isPending]
    simp only [Option.some.injEq, forall_eq']
    split at changed
    · rename_i missing
      cases changed
      rw [Keyed, only, AList.lookup_erase, missing]
    · rename_i ref found
      obtain ⟨pl, -, changed⟩ := Option.bind_eq_some_iff.mp changed
      obtain ⟨info, -, rfl⟩ := Option.map_eq_some_iff.mp changed
      simp [Keyed, found]

theorem Keyed.of_same (keyed : Keyed env s) (leagues : t.leagues = s.leagues)
    (current : t.currentLeague = s.currentLeague)
    (announced : s.maker.announced env.crypto = none ∨ t.maker = s.maker) : Keyed env t := by
  intro cur isCurrent
  rw [current] at isCurrent
  rw [leagues]
  rcases announced with none | maker
  · refine .inl ((keyed cur isCurrent).resolve_right fun some => ?_)
    rw [none] at some
    cases some
  · rw [maker]
    exact keyed cur isCurrent

theorem Made.keyed (made : Made env s t) (keyed : Keyed env s) : Keyed env t := by
  cases made with
  | current point none built =>
    subst built
    intro cur isCurrent
    exact .inr isCurrent
  | @add otprn point built =>
    subst built
    intro cur isCurrent
    left
    change ((s.leagues.insert (otprn.hashOtprn env.crypto) s.heap.length).lookup cur).isSome
    by_cases own : cur = otprn.hashOtprn env.crypto
    · rw [own, AList.lookup_insert]
      rfl
    · rw [AList.lookup_insert_ne own]
      refine (keyed cur isCurrent).resolve_right fun announced => ?_
      rw [point] at announced
      exact own (Option.some.inj announced).symm
  | rest idle built | begin idle none built =>
    exact keyed.of_same (by rw [built]) (by rw [built]) (.inl (by rw [idle]; rfl))
  | prepare point _ _ built | scarce point _ _ built | taken point _ built | save point built
  | ignore point _ built | decide point _ _ _ built | pending point _ built =>
    exact keyed.of_same (by rw [built]) (by rw [built]) (.inl (by rw [point]; rfl))
  | write point _ built =>
    exact keyed.of_same (by rw [built]; rfl) (by rw [built]; rfl) (.inl (by rw [point]; rfl))

theorem resume_keyed_iff (keyed : Keyed env s) (next : resume env s = some t) :
    Keyed env t ↔ ChangeGuard env s .resume := by
  have other (loop : s.loop ≠ .rejecting) (kept : Keyed env t) :
      Keyed env t ↔ ChangeGuard env s .resume :=
    iff_of_true kept fun _ rejecting => absurd rejecting loop
  cases resume_cases next with
  | wake loop was built =>
    refine other (by rw [loop]; simp) (keyed.of_same (by rw [built]; rfl) (by rw [built]; rfl) ?_)
    exact .inr (by rw [built]; rfl)
  | signal loop idle built =>
    refine other (by rw [loop]; simp) (keyed.of_same (by rw [built]) (by rw [built]) ?_)
    exact .inl (by rw [idle]; rfl)
  | @change u loop changed built =>
    have same : Keyed env t ↔ Keyed env u := by
      rw [built]
      exact Iff.rfl
    rw [same, changeLeague_keyed_iff changed]
    exact ⟨fun holds _ _ => holds, fun guard => guard rfl loop⟩
  | refresh loop built =>
    refine other (by rw [loop]; simp) (keyed.of_same (by rw [built]) (by rw [built]) ?_)
    exact .inr (by rw [built])

theorem step_keyed_iff {a : Action} (keyed : Keyed env s) (next : step env s a = some t) :
    Keyed env t ↔ ChangeGuard env s a := by
  have outside (outside : Outside s t) : Keyed env t :=
    keyed.of_same outside.leagues outside.currentLeague (.inr outside.maker)
  cases a with
  | resume => exact resume_keyed_iff keyed next
  | tick order =>
    refine iff_of_true ?_ (by rintro ⟨⟩)
    rcases tick_turn next with rfl | ⟨ref, l, l', -, -, -, ticked⟩
    · exact keyed
    · exact keyed.of_same ticked.leagues ticked.currentLeague (.inr ticked.maker)
  | makeOtprn fresh => exact iff_of_true ((makeOtprn_cases next).keyed keyed) (by rintro ⟨⟩)
  | call ref req => exact iff_of_true (outside (call_outside next)) (by rintro ⟨⟩)
  | perform i =>
    obtain ⟨w, -, rfl⟩ := Option.map_eq_some_iff.mp next
    exact iff_of_true (outside (perform_outside s i w)) (by rintro ⟨⟩)
  | removeActiveNode enode =>
    cases next
    exact iff_of_true (keyed.of_same rfl rfl (.inr rfl)) (by rintro ⟨⟩)

theorem keyed_start (backend : Backend) (db : FairnodeDB) : Keyed env (.start backend db) := by
  rintro cur ⟨⟩

end Keys

/-- Along a run the current league is always one that the leader has, or is just adding, exactly
when every league change finds the pending league that was announced. -/
theorem leader_keyed_iff (env : FairnodeEnv) (db : FairnodeDB) (acts : List Action) :
    Always (step env) (Keyed env) (.start env.backend db) acts ↔
      Guarded (step env) (ChangeGuard env) (.start env.backend db) acts :=
  always_iff_guarded (fun _ _ _ keyed _ next => step_keyed_iff keyed next)
    (keyed_start env.backend db) (guarded_true _ acts)

/-! Two nodes and an epoch of two: the first block makes a pending league. -/

def sampleDuo : ChainConfig := { sampleConfig with epoch := 2, minMiner := 2 }

def sampleDuoLeague (rand : BitVec 160) : Otprn := sampleLeague rand 2 sampleDuo

def sampleDuoStart : Fairnode :=
  let node (enode d : UInt8) : HeartBeat :=
    { HeartBeat.zero with enode := [enode], minerAddress := sampleText d }
  .start .mongo (((FairnodeDB.new [sampleDuo]).saveActiveNode (node 1 5)).saveActiveNode (node 2 6))

def sampleDuoOpening : List Action :=
  sampleMake (sampleDuoLeague 7) ++ sampleCall 0 (sampleJoin [1] 5) ++
    sampleCall 0 (sampleJoin [2] 6) ++ sampleRound ++
    sampleFinish (sampleBlockAt (sampleDuoLeague 7) 1) ++
    List.replicate 2 (.makeOtprn (sampleDuoLeague 8))

def sampleSilence : List Action :=
  (List.replicate 4 [.tick [], .resume]).flatten ++ [.tick [], .tick [], .resume, .resume]

/-- If the round fails after the pending league is announced and before it is added, the leader
keeps the deleted league: both loops rest, no tick finds the league and no other one is made. -/
theorem sampleSilence_leaves_deleted_league : ∃ s cur,
    run (step (sampleNode .mongo)) sampleDuoStart (sampleDuoOpening ++
      [.makeOtprn (sampleDuoLeague 8)] ++ sampleSilence ++
      List.replicate 2 (.makeOtprn (sampleDuoLeague 8))) = some s ∧
      s.loop = .idle ∧ s.maker = .idle ∧ s.currentLeague = some cur ∧ s.leagues.lookup cur = none ∧
      (∀ order, step (sampleNode .mongo) s (.tick order) = some s) ∧
      ∀ fresh, step (sampleNode .mongo) s (.makeOtprn fresh) = some s := by
  have checked : ((run (step (sampleNode .mongo)) sampleDuoStart (sampleDuoOpening ++
      [.makeOtprn (sampleDuoLeague 8)] ++ sampleSilence ++
      List.replicate 2 (.makeOtprn (sampleDuoLeague 8)))).any fun s =>
        s.loop = .idle && s.maker = .idle && s.currentLeague.any fun cur =>
          (s.leagues.lookup cur).isNone) = true := by
    decide +kernel
  obtain ⟨s, ran, holds⟩ := (Option.any_eq_true _ _).mp checked
  simp only [Bool.and_eq_true, decide_eq_true_eq] at holds
  obtain ⟨⟨loop, maker⟩, deleted⟩ := holds
  obtain ⟨cur, isCurrent, none⟩ := (Option.any_eq_true _ _).mp deleted
  have missing := Option.isNone_iff_eq_none.mp none
  refine ⟨s, cur, ran, loop, maker, isCurrent, missing, fun order => ?_, fun fresh => ?_⟩
  · simp [step, tick, loop, isCurrent, missing]
  · simp [step, makeOtprn, maker, isCurrent]

/-- If the pending league is added first, the leader moves on to it. -/
example : (run (step (sampleNode .mongo)) sampleDuoStart (sampleDuoOpening ++
    List.replicate 3 (.makeOtprn (sampleDuoLeague 8)) ++ sampleSilence)).any (fun s =>
      s.currentLeague = some ((sampleDuoLeague 8).hashOtprn sampleCrypto) &&
        (s.leagues.lookup ((sampleDuoLeague 8).hashOtprn sampleCrypto)).isSome) = true := by
  decide +kernel

end Anduschain
