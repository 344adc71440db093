import Anduschain.ChainTypes
import Anduschain.FiniteRun
import Mathlib.Data.List.AList

/-! The fairnodes that share a database (fairnode/fairsync): each registers, reads the active
list, takes a role and writes it back, and does so again when it loses its leader. Every database
operation is one step, and the fairnodes' steps interleave freely. -/
namespace Anduschain
open FiniteRun List

/-- `FnType`; `other` stands for what `strToFnType` does not know. -/
inductive FnType where
  | pending
  | leader
  | follower
  | other
  deriving DecidableEq

/-- `stType.String`, the text that `UpdateActiveFairnode` stores. -/
def FnType.text : FnType → String
  | .pending => "PENDING"
  | .leader => "LEADER"
  | .follower => "FOLLOWER"
  | .other => "UNKNOWN"

def strToFnType (t : String) : FnType :=
  if t = "PENDING" then .pending
  else if t = "LEADER" then .leader
  else if t = "FOLLOWER" then .follower
  else .other

theorem strToFnType_text (role : FnType) : strToFnType role.text = role := by
  cases role <;> decide

structure ActiveFairnode where
  address : String
  status : String
  deriving DecidableEq

abbrev ActiveStore := AList fun _ : Hash => ActiveFairnode

namespace ActiveStore

variable (store : ActiveStore) (nodeKey : Hash)

/-- A key that is in use is left as it is. -/
def insertActiveFairnode (address : String) : ActiveStore :=
  if (store.lookup nodeKey).isSome then store
  else store.insert nodeKey { address, status := FnType.text .pending }

def removeActiveFairnode : ActiveStore := store.erase nodeKey

/-- Without a document of the key nothing happens. -/
def updateActiveFairnode (status : FnType) : ActiveStore :=
  (store.lookup nodeKey).elim store fun node => store.insert nodeKey { node with status := status.text }

end ActiveStore

structure FnNode where
  address : String
  status : FnType

def parseNode (node : ActiveFairnode) : FnNode := ⟨node.address, strToFnType node.status⟩

inductive SyncPoint where
  | inserting
  | reading
  /-- The active list is read, and the role is not decided. -/
  | checking
  /-- The role is decided, and not stored. -/
  | updating
  | running
  /-- The leader's document is removed, and its own is still as it was. -/
  | demoting
  | gone
  deriving DecidableEq

structure FnSyncer where
  id : Hash
  address : String
  curRole : FnType
  leager : Option Hash
  /-- The active list as it was read; it is parsed where it is used. -/
  nodes : ActiveStore
  point : SyncPoint
  started : Bool
  stopping : Bool

namespace FnSyncer

def fresh (id : Hash) (address : String) : FnSyncer where
  id
  address
  curRole := .pending
  leager := none
  nodes := ∅
  point := .inserting
  started := false
  stopping := false

/-- The loop of `checkRole` over the parsed list: a leader that it meets, or the highest key. -/
def topNode : Hash → List (Sigma fun _ : Hash => ActiveFairnode) → Except Hash Hash
  | top, [] => .ok top
  | top, node :: rest =>
    if (parseNode node.2).status = .leader then .error node.1
    else
      let top := if top = 0 then node.1 else top
      topNode (if top < node.1 then node.1 else top) rest

/-- `checkRole`, for one order in which the map is visited. -/
def checkRole (x : FnSyncer) (order : List (Sigma fun _ : Hash => ActiveFairnode)) : FnSyncer :=
  if order.length = 0 then { x with curRole := .leader, leager := some x.id }
  else if order.length = 1 then
    if (x.nodes.lookup x.id).isSome then { x with curRole := .leader, leager := some x.id }
    else { x with curRole := .follower }
  else
    match topNode 0 order with
    | .error leader => { x with curRole := .follower, leager := some leader }
    | .ok top =>
      if top = x.id then { x with curRole := .leader, leager := some x.id }
      else { x with curRole := .follower, leager := some top }

inductive Act where
  /-- The next statement of `Start` or of the branch for a lost leader. -/
  | advance (order : List (Sigma fun _ : Hash => ActiveFairnode))
  /-- The connection to the leader breaks. -/
  | syncErr
  | stop
  | crash

def advance (store : ActiveStore) (x : FnSyncer)
    (order : List (Sigma fun _ : Hash => ActiveFairnode)) : Option (ActiveStore × FnSyncer) :=
  match x.point with
  | .inserting => some (store.insertActiveFairnode x.id x.address, { x with point := .reading })
  | .reading => some (store, { x with nodes := store, point := .checking })
  | .checking =>
    if order.Perm x.nodes.entries then some (store, { x.checkRole order with point := .updating })
    else none
  | .updating =>
    some (store.updateActiveFairnode x.id x.curRole, { x with point := .running, started := true })
  | .demoting => some (store.updateActiveFairnode x.id .pending, { x with point := .reading })
  | .running =>
    if x.stopping then some (store.removeActiveFairnode x.id, { x with point := .gone }) else none
  | .gone => none

/-- One step of a fairnode; a follower without a leader panics when the connection breaks. -/
def act (store : ActiveStore) (x : FnSyncer) : Act → Option (ActiveStore × FnSyncer)
  | .advance order => x.advance store order
  | .syncErr =>
    if x.point = .running ∧ x.curRole = .follower then
      x.leager.map fun leader => (store.removeActiveFairnode leader,
        { x with curRole := .pending, point := .demoting })
    else none
  | .stop =>
    if x.started ∧ ¬ x.stopping ∧ x.point ≠ .gone then
      some (store.removeActiveFairnode x.id, { x with stopping := true })
    else none
  | .crash => some (store, { x with point := .gone })

def Leads (x : FnSyncer) : Prop := x.point ≠ .gone ∧ x.curRole = .leader

def Electing (x : FnSyncer) : Prop := x.point = .checking ∨ x.point = .updating

instance (x : FnSyncer) : Decidable x.Leads := inferInstanceAs (Decidable (_ ∧ _))

instance (x : FnSyncer) : Decidable x.Electing := inferInstanceAs (Decidable (_ ∨ _))

end FnSyncer

structure SyncWorld where
  store : ActiveStore
  syncers : List FnSyncer

inductive SyncAction where
  | launch (id : Hash) (address : String)
  | act (i : ℕ) (a : FnSyncer.Act)

namespace SyncWorld

def step (w : SyncWorld) : SyncAction → Option SyncWorld
  | .launch id address => some { w with syncers := w.syncers ++ [.fresh id address] }
  | .act i a =>
    (w.syncers[i]?).bind fun x => (x.act w.store a).map fun next =>
      { store := next.1, syncers := w.syncers.set i next.2 }

def OneLeader (w : SyncWorld) : Prop :=
  ∀ (i j : ℕ) (x y : FnSyncer), w.syncers[i]? = some x → w.syncers[j]? = some y → x.Leads →
    y.Leads → i = j

/-- A fairnode reads the active list only while no other one decides on its role or stops, and a
connection breaks only after the leader is gone. -/
def ActGuard (w : SyncWorld) (i : ℕ) (x : FnSyncer) : FnSyncer.Act → Prop
  | .advance _ => x.point = .reading →
      ∀ y ∈ w.syncers.eraseIdx i, y.point ≠ .gone → ¬ y.Electing ∧ y.stopping = false
  | .syncErr => ∀ leader ∈ x.leager, ∀ y ∈ w.syncers, y.point ≠ .gone → y.id ≠ leader
  | .stop => True
  | .crash => True

/-- The condition on a step; a new fairnode has a key of its own. -/
def SyncGuard (w : SyncWorld) : SyncAction → Prop
  | .launch id _ => ∀ y ∈ w.syncers, y.point ≠ .gone → y.id ≠ id
  | .act i a => ∀ x ∈ w.syncers[i]?, w.ActGuard i x a

instance (w : SyncWorld) (i : ℕ) (x : FnSyncer) : ∀ a, Decidable (w.ActGuard i x a)
  | .advance _ => inferInstanceAs (Decidable (x.point = .reading →
      ∀ y ∈ w.syncers.eraseIdx i, y.point ≠ .gone → ¬ y.Electing ∧ y.stopping = false))
  | .syncErr => inferInstanceAs (Decidable (∀ leader ∈ x.leager, ∀ y ∈ w.syncers,
      y.point ≠ .gone → y.id ≠ leader))
  | .stop | .crash => inferInstanceAs (Decidable True)

instance (w : SyncWorld) : ∀ a, Decidable (w.SyncGuard a)
  | .launch id _ => inferInstanceAs (Decidable (∀ y ∈ w.syncers, y.point ≠ .gone → y.id ≠ id))
  | .act i a => inferInstanceAs (Decidable (∀ x ∈ w.syncers[i]?, w.ActGuard i x a))

end SyncWorld

section Store
variable {store : ActiveStore} {key other : Hash}

theorem lookup_insertActive (store : ActiveStore) (key : Hash) (address : String) :
    ((store.insertActiveFairnode key address).lookup key).isSome := by
  unfold ActiveStore.insertActiveFairnode
  split
  · assumption
  · rw [AList.lookup_insert]
    rfl

theorem lookup_insertActive_of_some {node : ActiveFairnode} (found : store.lookup other = some node)
    (key : Hash) (address : String) :
    (store.insertActiveFairnode key address).lookup other = some node := by
  unfold ActiveStore.insertActiveFairnode
  split
  · exact found
  · rename_i absent
    rw [AList.lookup_insert_ne, found]
    rintro rfl
    rw [found] at absent
    exact absent rfl

theorem lookup_update_ne (differ : other ≠ key) (status : FnType) :
    (store.updateActiveFairnode key status).lookup other = store.lookup other := by
  unfold ActiveStore.updateActiveFairnode
  cases store.lookup key with
  | none => rfl
  | some node => exact AList.lookup_insert_ne differ

theorem lookup_update_self {node : ActiveFairnode} (found : store.lookup key = some node)
    (status : FnType) : (store.updateActiveFairnode key status).lookup key =
      some { node with status := status.text } := by
  rw [ActiveStore.updateActiveFairnode, found]
  exact AList.lookup_insert _

theorem lookup_remove_ne (differ : other ≠ key) :
    (store.removeActiveFairnode key).lookup other = store.lookup other := AList.lookup_erase_ne differ

end Store

namespace FnSyncer
variable {store store' : ActiveStore} {x x' y : FnSyncer}

theorem topNode_of_leader {nodes : List (Sigma fun _ : Hash => ActiveFairnode)} (top : Hash)
    (shown : ∃ node ∈ nodes, (parseNode node.2).status = .leader) :
    ∃ leader, topNode top nodes = .error leader := by
  induction nodes generalizing top with
  | nil =>
    obtain ⟨node, member, -⟩ := shown
    cases member
  | cons first rest ih =>
    rw [topNode]
    by_cases here : (parseNode first.2).status = .leader
    · rw [if_pos here]
      exact ⟨_, rfl⟩
    · rw [if_neg here]
      obtain ⟨node, member, leads⟩ := shown
      rcases mem_cons.mp member with rfl | later
      · exact absurd leads here
      · exact ih _ ⟨node, later, leads⟩

def Sees (x : FnSyncer) (key : Hash) : Prop :=
  ∃ node, x.nodes.lookup key = some node ∧ strToFnType node.status = .leader

theorem checkRole_of_sees {order : List (Sigma fun _ : Hash => ActiveFairnode)} {key : Hash}
    (iter : order.Perm x.nodes.entries) (sees : x.Sees key) (other : key ≠ x.id) :
    (x.checkRole order).curRole = .follower := by
  obtain ⟨node, found, leads⟩ := sees
  have member : ⟨key, node⟩ ∈ order := iter.mem_iff.mpr (AList.mem_lookup_iff.mp found)
  unfold checkRole
  split
  · rename_i none
    rw [length_eq_zero_iff.mp none] at member
    cases member
  · split
    · rename_i one
      obtain ⟨only, single⟩ := length_eq_one_iff.mp one
      rw [single, mem_singleton] at member
      cases own : x.nodes.lookup x.id with
      | none => rfl
      | some mine =>
        have same := iter.mem_iff.mpr (AList.mem_lookup_iff.mp own)
        rw [single, mem_singleton, ← member] at same
        cases same
        exact absurd rfl other
    · obtain ⟨leader, top⟩ := topNode_of_leader 0 ⟨_, member, leads⟩
      rw [top]

/-- A fairnode is a leader only once it has decided so, it is registered, and the database shows
its role when it has come to rest. -/
structure Own (store : ActiveStore) (x : FnSyncer) : Prop where
  decided : x.curRole = .leader → x.point = .updating ∨ x.point = .running ∨ x.point = .gone
  registered : x.point ≠ .inserting → x.point ≠ .gone → x.stopping = false →
    (store.lookup x.id).isSome
  shown : x.curRole = .leader → x.point = .running → x.stopping = false →
    ∃ node, store.lookup x.id = some node ∧ strToFnType node.status = .leader

structure Apart (x y : FnSyncer) : Prop where
  keys : x.point ≠ .gone → y.point ≠ .gone → x.id ≠ y.id
  window : ¬ (x.Electing ∧ y.Electing)
  seen : x.point = .checking → y.Leads → x.Sees y.id
  single : ¬ (x.Leads ∧ y.Leads)

theorem Own.of_lookup (own : Own store x)
    (kept : x.point ≠ .gone → x.stopping = false → ∀ node, store.lookup x.id = some node →
      store'.lookup x.id = some node) : Own store' x where
  decided := own.decided
  registered begun present active := by
    obtain ⟨node, found⟩ := Option.isSome_iff_exists.mp (own.registered begun present active)
    rw [kept present active node found]
    rfl
  shown leads running active := by
    obtain ⟨node, found, status⟩ := own.shown leads running active
    exact ⟨node, kept (by rw [running]; simp) active node found, status⟩

theorem Own.gone (store : ActiveStore) (x : FnSyncer) : Own store { x with point := .gone } where
  decided _ := .inr (.inr rfl)
  registered _ present := absurd rfl present
  shown _ running := nomatch running

inductive Acted (store : ActiveStore) (x : FnSyncer) : Act → ActiveStore → FnSyncer → Prop
  | insert {order} (point : x.point = .inserting) :
      Acted store x (.advance order) (store.insertActiveFairnode x.id x.address)
        { x with point := .reading }
  | read {order} (point : x.point = .reading) :
      Acted store x (.advance order) store { x with nodes := store, point := .checking }
  | check {order} (point : x.point = .checking) (iter : order.Perm x.nodes.entries) :
      Acted store x (.advance order) store { x.checkRole order with point := .updating }
  | update {order} (point : x.point = .updating) :
      Acted store x (.advance order) (store.updateActiveFairnode x.id x.curRole)
        { x with point := .running, started := true }
  | demote {order} (point : x.point = .demoting) :
      Acted store x (.advance order) (store.updateActiveFairnode x.id .pending)
        { x with point := .reading }
  | leave {order} (point : x.point = .running) (stopping : x.stopping = true) :
      Acted store x (.advance order) (store.removeActiveFairnode x.id) { x with point := .gone }
  | lose {leader : Hash} (point : x.point = .running) (follows : x.curRole = .follower)
      (leager : x.leager = some leader) :
      Acted store x .syncErr (store.removeActiveFairnode leader)
        { x with curRole := .pending, point := .demoting }
  | stop (present : x.point ≠ .gone) :
      Acted store x .stop (store.removeActiveFairnode x.id) { x with stopping := true }
  | crash : Acted store x .crash store { x with point := .gone }

theorem act_cases {a : Act} (acted : x.act store a = some (store', x')) :
    Acted store x a store' x' := by
  cases a with
  | advance order =>
    change x.advance store order = _ at acted
    unfold advance at acted
    split at acted
    · rename_i point
      cases acted
      exact .insert point
    · rename_i point
      cases acted
      exact .read point
    · rename_i point
      split at acted
      · rename_i iter
        cases acted
        exact .check point iter
      · cases acted
    · rename_i point
      cases acted
      exact .update point
    · rename_i point
      cases acted
      exact .demote point
    · rename_i point
      split at acted
      · rename_i stopping
        cases acted
        exact .leave point stopping
      · cases acted
    · cases acted
  | syncErr =>
    rw [act] at acted
    split at acted
    · rename_i follows
      obtain ⟨leader, leager, built⟩ := Option.map_eq_some_iff.mp acted
      cases built
      exact .lose follows.1 follows.2 leager
    · cases acted
  | stop =>
    rw [act] at acted
    split at acted
    · rename_i ready
      cases acted
      exact .stop ready.2.2
    · cases acted
  | crash =>
    cases acted
    exact .crash

theorem checkRole_id (x : FnSyncer) (order : List (Sigma fun _ : Hash => ActiveFairnode)) :
    (x.checkRole order).id = x.id := by
  unfold checkRole
  repeat' split
  all_goals rfl

theorem checkRole_stopping (x : FnSyncer) (order : List (Sigma fun _ : Hash => ActiveFairnode)) :
    (x.checkRole order).stopping = x.stopping := by
  unfold checkRole
  repeat' split
  all_goals rfl

theorem Acted.own {a : Act} (acted : Acted store x a store' x') (own : Own store x)
    (lost : a = .syncErr → ∀ leader ∈ x.leager, x.id ≠ leader) : Own store' x' := by
  -- A fairnode that is not at rest has no role to show.
  have quiet (point : x.point ≠ .updating) (rest : x.point ≠ .running) (present : x.point ≠ .gone) :
      x.curRole ≠ .leader := fun leads => by
    rcases own.decided leads with here | here | here
    · exact point here
    · exact rest here
    · exact present here
  cases acted with
  | insert point =>
    have silent := quiet (by simp [point]) (by simp [point]) (by simp [point])
    refine ⟨fun leads => absurd leads silent, fun _ _ _ => ?_, fun leads => absurd leads silent⟩
    exact lookup_insertActive store x.id x.address
  | read point =>
    have silent := quiet (by simp [point]) (by simp [point]) (by simp [point])
    refine ⟨fun leads => absurd leads silent, fun _ _ => ?_, fun leads => absurd leads silent⟩
    exact own.registered (by simp [point]) (by simp [point])
  | check point iter =>
    refine ⟨fun _ => .inl rfl, fun _ _ => ?_, fun _ running => nomatch running⟩
    rw [checkRole_id, checkRole_stopping]
    exact own.registered (by simp [point]) (by simp [point])
  | update point =>
    have updated (active : x.stopping = false) : ∃ node : ActiveFairnode,
        (store.updateActiveFairnode x.id x.curRole).lookup x.id = some node ∧
          strToFnType node.status = x.curRole := by
      obtain ⟨node, found⟩ := Option.isSome_iff_exists.mp
        (own.registered (by simp [point]) (by simp [point]) active)
      exact ⟨_, lookup_update_self found _, strToFnType_text _⟩
    refine ⟨fun _ => .inr (.inl rfl), fun _ _ active => ?_, fun leads _ active => ?_⟩
    · obtain ⟨node, found, -⟩ := updated active
      exact found ▸ rfl
    · obtain ⟨node, found, status⟩ := updated active
      exact ⟨node, found, status.trans leads⟩
  | demote point =>
    have silent := quiet (by simp [point]) (by simp [point]) (by simp [point])
    refine ⟨fun leads => absurd leads silent, fun _ _ active => ?_, fun leads => absurd leads silent⟩
    obtain ⟨node, found⟩ := Option.isSome_iff_exists.mp
      (own.registered (by simp [point]) (by simp [point]) active)
    exact lookup_update_self found _ ▸ rfl
  | leave point stopping => exact .gone _ _
  | lose point follows leager =>
    refine ⟨by rintro ⟨⟩, fun _ _ active => ?_, by rintro ⟨⟩⟩
    change ((store.removeActiveFairnode _).lookup x.id).isSome
    rw [lookup_remove_ne (lost rfl _ leager)]
    exact own.registered (by simp [point]) (by simp [point]) active
  | stop present => exact ⟨own.decided, by rintro _ _ ⟨⟩, by rintro _ _ ⟨⟩⟩
  | crash => exact .gone _ _

theorem Acted.beside {a : Act} (acted : Acted store x a store' x') (other : Own store y)
    (apart : Apart x y)
    (lost : a = .syncErr → ∀ leader ∈ x.leager, y.point ≠ .gone → y.id ≠ leader) : Own store' y := by
  refine other.of_lookup fun present active node found => ?_
  have differ (here : x.point ≠ .gone) : y.id ≠ x.id := fun same => apart.keys here present same.symm
  cases acted with
  | insert point => exact lookup_insertActive_of_some found ..
  | read point | check point iter | crash => exact found
  | update point | demote point => rwa [lookup_update_ne (differ (by simp [point]))]
  | leave point stopping => rwa [lookup_remove_ne (differ (by simp [point]))]
  | lose point follows leager => rwa [lookup_remove_ne (lost rfl _ leager present)]
  | stop here => rwa [lookup_remove_ne (differ here)]

theorem Apart.of_quiet (apart : Apart x y) (mirror : Apart y x) (key : x'.id = x.id)
    (present : x'.point ≠ .gone → x.point ≠ .gone) (electing : x'.Electing → x.Electing)
    (leads : x'.Leads → x.Leads) (checking : x'.point = .checking → x.point = .checking ∧ x'.nodes = x.nodes) :
    Apart x' y ∧ Apart y x' := by
  refine ⟨⟨fun here there => key ▸ apart.keys (present here) there, fun both =>
    apart.window ⟨electing both.1, both.2⟩, fun check leads => ?_, fun both =>
    apart.single ⟨leads both.1, both.2⟩⟩, ⟨fun there here => key ▸ mirror.keys there (present here),
    fun both => mirror.window ⟨both.1, electing both.2⟩, fun check led => ?_, fun both =>
    mirror.single ⟨both.1, leads both.2⟩⟩⟩
  · obtain ⟨before, nodes⟩ := checking check
    rw [Sees, nodes]
    exact apart.seen before leads
  · rw [key]
    exact mirror.seen check (leads led)

theorem Acted.apart {a : Act} (acted : Acted store x a store' x') (own : Own store x)
    (other : Own store y) (apart : Apart x y) (mirror : Apart y x)
    (alone : ∀ order, a = .advance order → x.point = .reading → y.point ≠ .gone →
      ¬ y.Electing ∧ y.stopping = false) : Apart x' y ∧ Apart y x' := by
  have quiet (point : x.point ≠ .updating) (rest : x.point ≠ .running) (present : x.point ≠ .gone) :
      ¬ x.Leads := fun leads => by
    rcases own.decided leads.2 with here | here | here
    · exact point here
    · exact rest here
    · exact present here
  cases acted with
  | insert point | demote point =>
    refine apart.of_quiet mirror rfl (by simp [point]) (by rintro (⟨⟨⟩⟩ | ⟨⟨⟩⟩)) (fun leads => ?_)
      (by rintro ⟨⟩)
    exact absurd ⟨by simp [point], leads.2⟩ (quiet (by simp [point]) (by simp [point]) (by simp [point]))
  | read point =>
    have silent : ¬ Leads { x with nodes := store, point := .checking } := fun leads =>
      quiet (by simp [point]) (by simp [point]) (by simp [point]) ⟨by simp [point], leads.2⟩
    -- Another leader is at rest, so that the database shows it.
    have resting (there : y.point ≠ .gone) := alone _ rfl point there
    have there (electing : y.Electing) : y.point ≠ .gone := by
      rcases electing with here | here <;> simp [here]
    refine ⟨⟨fun _ there => apart.keys (by simp [point]) there, fun both =>
      (resting (there both.2)).1 both.2, fun _ leads => ?_, fun both => silent both.1⟩,
      ⟨fun there _ => mirror.keys there (by simp [point]), fun both =>
      (resting (there both.1)).1 both.1, fun _ leads => absurd leads silent, fun both => silent both.2⟩⟩
    obtain ⟨idle, active⟩ := resting leads.1
    have running : y.point = .running := by
      rcases other.decided leads.2 with here | here | here
      · exact absurd (.inr here) idle
      · exact here
      · exact absurd here leads.1
    exact other.shown leads.2 running active
  | @check order point iter =>
    have electing : x.Electing := .inl point
    have key : ({ x.checkRole order with point := .updating } : FnSyncer).id = x.id :=
      checkRole_id x order
    have alone (leads : y.Leads) (led : (x.checkRole order).curRole = .leader) : False := by
      have differ : y.id ≠ x.id := fun same => apart.keys (by simp [point]) leads.1 same.symm
      have follows := checkRole_of_sees iter (apart.seen point leads) differ
      rw [follows] at led
      cases led
    refine ⟨⟨fun _ there => key ▸ apart.keys (by simp [point]) there, fun both =>
      apart.window ⟨electing, both.2⟩, by rintro ⟨⟩, fun both => alone both.2 both.1.2⟩,
      ⟨fun there _ => key ▸ mirror.keys there (by simp [point]), fun both =>
      mirror.window ⟨both.1, electing⟩, fun check _ => ?_, fun both => alone both.1 both.2.2⟩⟩
    exact absurd ⟨electing, .inl check⟩ apart.window
  | update point =>
    refine apart.of_quiet mirror rfl (by simp [point]) (by rintro (⟨⟨⟩⟩ | ⟨⟨⟩⟩)) (fun leads => ?_)
      (by rintro ⟨⟩)
    exact ⟨by simp [point], leads.2⟩
  | lose point follows leager =>
    refine apart.of_quiet mirror rfl (by simp [point]) (by rintro (⟨⟨⟩⟩ | ⟨⟨⟩⟩)) ?_ (by rintro ⟨⟩)
    rintro ⟨-, ⟨⟩⟩
  | stop present =>
    exact apart.of_quiet mirror rfl (fun same => same) (fun same => same) (fun same => same)
      fun check => ⟨check, rfl⟩
  | leave point stopping =>
    exact apart.of_quiet mirror rfl (by simp) (by rintro (⟨⟨⟩⟩ | ⟨⟨⟩⟩))
      (fun leads => absurd rfl leads.1) (by rintro ⟨⟩)
  | crash =>
    exact apart.of_quiet mirror rfl (by simp) (by rintro (⟨⟨⟩⟩ | ⟨⟨⟩⟩))
      (fun leads => absurd rfl leads.1) (by rintro ⟨⟩)

end FnSyncer

namespace SyncWorld
variable {w w' : SyncWorld}

structure Sound (w : SyncWorld) : Prop where
  own : ∀ x ∈ w.syncers, x.Own w.store
  apart : ∀ (i j : ℕ) (x y : FnSyncer), i ≠ j → w.syncers[i]? = some x → w.syncers[j]? = some y →
    x.Apart y

theorem Sound.oneLeader (sound : Sound w) : w.OneLeader := by
  intro i j x y atI atJ leadsX leadsY
  by_contra differ
  exact (sound.apart i j x y differ atI atJ).single ⟨leadsX, leadsY⟩

theorem sound_start (store : ActiveStore) : Sound ⟨store, []⟩ :=
  ⟨fun _ member => (not_mem_nil member).elim, fun _ _ _ _ _ found => nomatch found⟩

theorem Sound.launch (sound : Sound w) {id : Hash} {address : String}
    (unused : ∀ y ∈ w.syncers, y.point ≠ .gone → y.id ≠ id) :
    Sound { w with syncers := w.syncers ++ [.fresh id address] } := by
  have own : (FnSyncer.fresh id address).Own w.store := ⟨by rintro ⟨⟩, by simp [FnSyncer.fresh], by rintro ⟨⟩⟩
  have beside (x : FnSyncer) (member : x ∈ w.syncers) :
      x.Apart (.fresh id address) ∧ (FnSyncer.fresh id address).Apart x := by
    refine ⟨⟨fun here _ => unused x member here, ?_, ?_, ?_⟩,
      ⟨fun _ here => (unused x member here).symm, ?_, ?_, ?_⟩⟩
    all_goals simp [FnSyncer.fresh, FnSyncer.Electing, FnSyncer.Leads]
  have found {i : ℕ} {x : FnSyncer} (at_ : (w.syncers ++ [.fresh id address])[i]? = some x) :
      w.syncers[i]? = some x ∨ i = w.syncers.length ∧ x = .fresh id address := by
    rcases Nat.lt_trichotomy i w.syncers.length with below | same | above
    · rw [getElem?_append_left below] at at_
      exact .inl at_
    · subst same
      simp at at_
      exact .inr ⟨rfl, at_.symm⟩
    · rw [getElem?_eq_none (by simp; omega)] at at_
      cases at_
  refine ⟨fun x member => ?_, fun i j x y differ atI atJ => ?_⟩
  · rcases mem_append.mp member with old | new
    · exact sound.own x old
    · rw [mem_singleton.mp new]
      exact own
  · rcases found atI with oldI | ⟨endI, rfl⟩
    · rcases found atJ with oldJ | ⟨endJ, rfl⟩
      · exact sound.apart i j x y differ oldI oldJ
      · exact (beside x (mem_of_getElem? oldI)).1
    · rcases found atJ with oldJ | ⟨endJ, rfl⟩
      · exact (beside y (mem_of_getElem? oldJ)).2
      · exact absurd (endI.trans endJ.symm) differ

theorem Sound.act (sound : Sound w) {i : ℕ} {x x' : FnSyncer} {a : FnSyncer.Act}
    {store' : ActiveStore} (at_ : w.syncers[i]? = some x) (guard : w.ActGuard i x a)
    (acted : FnSyncer.Acted w.store x a store' x') : Sound ⟨store', w.syncers.set i x'⟩ := by
  have member := mem_of_getElem? at_
  have own := sound.own x member
  have lost : a = .syncErr → ∀ leader ∈ x.leager, ∀ y ∈ w.syncers, y.point ≠ .gone → y.id ≠ leader := by
    rintro rfl
    exact guard
  have own' : x'.Own store' := by
    refine acted.own own fun isErr leader isLeader => ?_
    subst isErr
    cases acted with
    | lose point follows leager => exact lost rfl leader isLeader x member (by simp [point])
  have others {j : ℕ} {y : FnSyncer} (differ : i ≠ j) (atJ : w.syncers[j]? = some y) :
      y.Own store' ∧ x'.Apart y ∧ y.Apart x' := by
    have memberY := mem_of_getElem? atJ
    have apart := sound.apart i j x y differ at_ atJ
    have mirror := sound.apart j i y x differ.symm atJ at_
    refine ⟨acted.beside (sound.own y memberY) apart fun isErr leader isLeader =>
      lost isErr leader isLeader y memberY, ?_⟩
    refine acted.apart own (sound.own y memberY) apart mirror ?_
    rintro order rfl reading there
    exact guard reading y (mem_eraseIdx_iff_getElem?.mpr ⟨j, differ.symm, atJ⟩) there
  have found {j : ℕ} {y : FnSyncer} (atJ : (w.syncers.set i x')[j]? = some y) :
      j = i ∧ y = x' ∨ j ≠ i ∧ w.syncers[j]? = some y := by
    rw [getElem?_set] at atJ
    split at atJ
    · rename_i same
      split at atJ
      · cases atJ
        exact .inl ⟨same.symm, rfl⟩
      · cases atJ
    · rename_i differ
      exact .inr ⟨fun same => differ same.symm, atJ⟩
  refine ⟨fun y member => ?_, fun j k y z differ atJ atK => ?_⟩
  · obtain ⟨j, atJ⟩ := mem_iff_getElem?.mp member
    rcases found atJ with ⟨-, rfl⟩ | ⟨other, old⟩
    · exact own'
    · exact (others other.symm old).1
  · rcases found atJ with ⟨rfl, rfl⟩ | ⟨otherJ, oldJ⟩
    · rcases found atK with ⟨rfl, rfl⟩ | ⟨otherK, oldK⟩
      · exact absurd rfl differ
      · exact (others otherK.symm oldK).2.1
    · rcases found atK with ⟨rfl, rfl⟩ | ⟨otherK, oldK⟩
      · exact (others otherJ.symm oldJ).2.2
      · exact sound.apart j k y z differ oldJ oldK

theorem Sound.step (sound : Sound w) {a : SyncAction} (guard : w.SyncGuard a)
    (next : w.step a = some w') : Sound w' := by
  cases a with
  | launch id address =>
    cases next
    exact sound.launch guard
  | act i a =>
    obtain ⟨x, at_, next⟩ := Option.bind_eq_some_iff.mp next
    obtain ⟨⟨store', x'⟩, acted, rfl⟩ := Option.map_eq_some_iff.mp next
    exact sound.act at_ (guard x at_) (FnSyncer.act_cases acted)

/-- In every run whose steps meet the condition, from every content of the database, there is at
most one leader. -/
theorem oneLeader_of_guarded (store : ActiveStore) (acts : List SyncAction)
    (guarded : Guarded step SyncGuard ⟨store, []⟩ acts) (ran : run step ⟨store, []⟩ acts = some w) :
    w.OneLeader :=
  (run_keeps (fun _ _ _ sound guard next => sound.step guard next) (sound_start store) guarded
    ran).oneLeader

/-! Two fairnodes under the keys 1 and 2 and an empty database. -/

def sampleAdvance (i : ℕ) (nodes : List (Hash × String)) : SyncAction :=
  .act i (.advance (nodes.map fun node => ⟨node.1, "10.0.0.1:60001", node.2⟩))

def sampleLaunches : List SyncAction := [.launch 1 "10.0.0.1:60001", .launch 2 "10.0.0.1:60001"]

def sampleTurns : List SyncAction :=
  sampleLaunches ++ [sampleAdvance 0 [], sampleAdvance 0 [], sampleAdvance 0 [(1, "PENDING")],
    sampleAdvance 0 [], sampleAdvance 1 [], sampleAdvance 1 [],
    sampleAdvance 1 [(2, "PENDING"), (1, "LEADER")], sampleAdvance 1 []]

def sampleRace : List SyncAction :=
  sampleLaunches ++ [sampleAdvance 0 [], sampleAdvance 0 [], sampleAdvance 1 [], sampleAdvance 1 [],
    sampleAdvance 0 [(1, "PENDING")], sampleAdvance 1 [(2, "PENDING"), (1, "PENDING")]]

theorem sampleTurns_one_leader : ∃ w, run step ⟨∅, []⟩ sampleTurns = some w ∧
    w.syncers.map (·.curRole) = [.leader, .follower] ∧ w.OneLeader := by
  have checked : (run step ⟨∅, []⟩ sampleTurns).any (fun w =>
      decide (w.syncers.map (·.curRole) = [.leader, .follower])) = true := by
    decide +kernel
  have guarded : Guarded step SyncGuard ⟨∅, []⟩ sampleTurns := by decide +kernel
  obtain ⟨w, ran, roles⟩ := (Option.any_eq_true _ _).mp checked
  exact ⟨w, ran, of_decide_eq_true roles, oneLeader_of_guarded ∅ sampleTurns guarded ran⟩

theorem sampleRace_two_leaders : ∃ w, run step ⟨∅, []⟩ sampleRace = some w ∧
    w.syncers.map (·.curRole) = [.leader, .leader] ∧ ¬ w.OneLeader := by
  have checked : (run step ⟨∅, []⟩ sampleRace).any (fun w =>
      decide (w.syncers.map (·.curRole) = [.leader, .leader]) &&
        (w.syncers[0]?).any (fun x => decide x.Leads) &&
        (w.syncers[1]?).any (fun x => decide x.Leads)) = true := by
    decide +kernel
  obtain ⟨w, ran, holds⟩ := (Option.any_eq_true _ _).mp checked
  simp only [Bool.and_eq_true, decide_eq_true_eq] at holds
  obtain ⟨⟨roles, first⟩, second⟩ := holds
  obtain ⟨x, atX, leadsX⟩ := (Option.any_eq_true _ _).mp first
  obtain ⟨y, atY, leadsY⟩ := (Option.any_eq_true _ _).mp second
  refine ⟨w, ran, roles, fun one => ?_⟩
  cases one 0 1 x y atX atY (of_decide_eq_true leadsX) (of_decide_eq_true leadsY)

end SyncWorld

end Anduschain
