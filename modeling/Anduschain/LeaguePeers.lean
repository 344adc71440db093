import Anduschain.FairnodeDatabase
import Mathlib.Data.List.Rotate
import Mathlib.Logic.Relation

/-! The peers that the fairnode names to a node of a league (`SelectedNode` of fairnode/util.go):
the next nodes of the list, walked as a ring of package container/ring. -/
namespace Anduschain
open ByteOrder List Relation

abbrev Ring (α : Type) := List (Option α)

namespace Ring
variable {α : Type}

def new (n : ℕ) : Ring α := replicate n none

def value (r : Ring α) : Option α := r.head?.join

def setValue (v : α) (r : Ring α) : Ring α := r.modifyHead fun _ => some v

def next (r : Ring α) : Ring α := r.rotate 1

def move (n : ℕ) (r : Ring α) : Ring α := r.rotate n

end Ring

def HeartBeat.enodeUrl (hb : HeartBeat) : Bytes :=
  "enode://".toUTF8.toList ++ hb.enode ++ "@".toUTF8.toList ++ hb.host ++ ":".toUTF8.toList ++
    (toString hb.port).toUTF8.toList

/-- The loop that fills the ring, from index `i` on. The index -1 is `none`. -/
def fillLoop (self : Bytes) : List HeartBeat → ℕ → Option ℕ → Ring HeartBeat →
    Option ℕ × Ring HeartBeat
  | [], _, sIndex, eNodes => (sIndex, eNodes)
  | node :: nodes, i, sIndex, eNodes =>
    fillLoop self nodes (i + 1) (if node.enode = self then some i else sIndex)
      (eNodes.setValue node).next

def selectLoop (self : Bytes) : ℕ → Ring HeartBeat → List Bytes → List Bytes
  | 0, _, res => res
  | left + 1, r, res =>
    match r.next.value with
    | none => selectLoop self left r.next res
    | some value =>
      if value.enode = self then selectLoop self left r.next res
      else selectLoop self left r.next (res ++ [value.enodeUrl])

def selectedNode (self : Bytes) (nodes : List HeartBeat) (max : ℕ) : List Bytes :=
  match fillLoop self nodes 0 none (.new nodes.length) with
  | (none, _) => []
  | (some sIndex, eNodes) =>
    let r := eNodes.move sIndex
    selectLoop self (if r.length < max then r.length - 1 else max) r []

def Selects (nodes : List HeartBeat) (max : ℕ) (a b : HeartBeat) : Prop :=
  b.enodeUrl ∈ selectedNode a.enode nodes max

/-- Each node gets the next nodes of the ring, up to `max` and without itself, and comes to every
other one by way of peers. -/
structure PeersOf (nodes : List HeartBeat) (max : ℕ) : Prop where
  next : ∀ before node after, nodes = before ++ node :: after →
    ∃ peers, peers = (after ++ before).take max ∧ peers.length = min max (nodes.length - 1) ∧
      node ∉ peers ∧ peers.Nodup ∧ selectedNode node.enode nodes max = peers.map HeartBeat.enodeUrl
  reaches : 1 ≤ max → ∀ a ∈ nodes, ∀ b ∈ nodes, ReflTransGen (Selects nodes max) a b

section
variable {self : Bytes} {nodes before after rest : List HeartBeat} {node : HeartBeat} (i : ℕ)
  (sIndex : Option ℕ)

theorem fillLoop_ring (nodes before : List HeartBeat) :
    (fillLoop self nodes i sIndex (.new nodes.length ++ before.map some)).2 =
      (before ++ nodes).map some := by
  induction nodes generalizing before i sIndex with
  | nil => rw [append_nil]; rfl
  | cons node nodes ih =>
    have step : Ring.next (Ring.setValue node (.new (node :: nodes).length ++ before.map some)) =
        .new nodes.length ++ (before ++ [node]).map some := by
      simp [Ring.new, Ring.setValue, Ring.next, replicate_succ]
    rw [fillLoop, step, ih, append_assoc]
    rfl

theorem fillLoop_absent (absent : ∀ other ∈ nodes, other.enode ≠ self) (r : Ring HeartBeat) :
    (fillLoop self nodes i sIndex r).1 = sIndex := by
  induction nodes generalizing i r with
  | nil => rfl
  | cons node nodes ih =>
    obtain ⟨here, later⟩ := forall_mem_cons.mp absent
    rw [fillLoop, if_neg here, ih _ later]

theorem fillLoop_index (absent : ∀ other ∈ after, other.enode ≠ node.enode) (r : Ring HeartBeat) :
    (fillLoop node.enode (before ++ node :: after) i sIndex r).1 = some (i + before.length) := by
  induction before generalizing i sIndex r with
  | nil => rw [nil_append, fillLoop, if_pos rfl, fillLoop_absent _ _ absent]; rfl
  | cons first before ih =>
    rw [cons_append, fillLoop, ih, length_cons, Nat.add_right_comm, Nat.add_assoc]

theorem selectLoop_eq {left : ℕ} (enough : left ≤ rest.length + 1) {x : Option HeartBeat}
    {tail : Ring HeartBeat} (back : (tail ++ [x]).head? = some (some node))
    (others : ∀ other ∈ rest, other.enode ≠ node.enode) (res : List Bytes) :
    selectLoop node.enode left (x :: (rest.map some ++ tail)) res =
      res ++ (rest.take left).map HeartBeat.enodeUrl := by
  induction left generalizing rest x tail res with
  | zero => simp [selectLoop]
  | succ left ih =>
    cases rest with
    | nil =>
      obtain rfl : left = 0 := by simpa using enough
      simp [selectLoop, Ring.next, Ring.value, back]
    | cons y rest =>
      obtain ⟨here, later⟩ := forall_mem_cons.mp others
      have back : (tail ++ [x] ++ [some y]).head? = some (some node) := by
        rw [head?_append, back, Option.some_or]
      have step := ih (by simpa using enough) back later (res ++ [y.enodeUrl])
      simpa [selectLoop, Ring.next, Ring.value, here] using step

variable (max : ℕ) (distinct : (nodes.map HeartBeat.enode).Nodup)
  (split : nodes = before ++ node :: after)
include distinct split

theorem others_of_distinct : ∀ other ∈ after ++ before, other.enode ≠ node.enode := by
  subst split
  grind

theorem selectedNode_eq : selectedNode node.enode nodes max =
    ((after ++ before).take max).map HeartBeat.enodeUrl := by
  have others := others_of_distinct distinct split
  have filled : fillLoop node.enode nodes 0 none (.new nodes.length) =
      (some before.length, nodes.map some) := by
    refine Prod.ext ?_ (by simpa using fillLoop_ring 0 none nodes [])
    rw [split, fillLoop_index _ _ fun other member => others other (mem_append_left before member),
      Nat.zero_add]
  have moved : Ring.move before.length (nodes.map some) =
      some node :: ((after ++ before).map some ++ []) := by
    simpa [split, Ring.move] using rotate_append_length_eq (before.map some) ((node :: after).map some)
  simp only [selectedNode, filled, moved]
  rw [selectLoop_eq (by grind) rfl others, nil_append]
  congr 1
  grind

theorem reaches_ahead (some : 1 ≤ max) (ahead : List HeartBeat)
    (ring : after ++ before = ahead ++ rest) :
    ∀ b ∈ ahead, ReflTransGen (Selects nodes max) node b := by
  induction ahead generalizing before node after rest with
  | nil => exact fun b member => absurd member not_mem_nil
  | cons c ahead ih =>
    have peer : Selects nodes max node c := by
      obtain ⟨fewer, rfl⟩ := Nat.exists_eq_add_of_le' some
      rw [Selects, selectedNode_eq _ distinct split, ring]
      exact mem_cons_self
    have next : ∃ before after, nodes = before ++ c :: after ∧
        after ++ before = ahead ++ (rest ++ [node]) := by
      cases after with
      | nil => exact ⟨[], ahead ++ rest ++ [node], by grind⟩
      | cons d after => exact ⟨before ++ [node], after, by grind⟩
    intro b member
    rcases mem_cons.mp member with rfl | later
    · exact .single peer
    · obtain ⟨before, after, split, ring⟩ := next
      exact .head peer (ih split ring b later)

end

theorem selectedNode_peers (nodes : List HeartBeat) (max : ℕ)
    (distinct : (nodes.map HeartBeat.enode).Nodup) : PeersOf nodes max := by
  constructor
  · intro before node after split
    have others := others_of_distinct distinct split
    refine ⟨_, rfl, by simp [split, Nat.add_comm], fun member => others node (mem_of_mem_take member)
      rfl, ?_, selectedNode_eq max distinct split⟩
    have := distinct.of_map
    grind
  · intro some a a_mem b b_mem
    obtain ⟨before, after, split⟩ := append_of_mem a_mem
    by_cases same : a = b
    · rw [same]
    · refine reaches_ahead max distinct split some (after ++ before) (append_nil _).symm b ?_
      grind

theorem samplePeers : PeersOf ([[0], [1], [2]].map fun enode => { HeartBeat.zero with enode }) 5 :=
  selectedNode_peers _ _ (by decide)

end Anduschain
