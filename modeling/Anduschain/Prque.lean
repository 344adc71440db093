import Anduschain.BinaryHeap

/-! The priority queue of common/prque: a heap of items that compares the difference of two
priorities with zero, so priorities may wrap around. -/
namespace Anduschain

structure Prque (α : Type) where
  cont : Array (α × Int64)

namespace Prque
variable {α : Type}

def new : Prque α := ⟨#[]⟩

def less (x y : α × Int64) : Bool := 0 < x.2 - y.2

def push (q : Prque α) (data : α) (priority : Int64) : Prque α :=
  ⟨BinaryHeap.push less q.cont (data, priority)⟩

/-- `Pop`; the source indexes an empty block there. -/
def pop (q : Prque α) : Option (α × Int64 × Prque α) :=
  (BinaryHeap.pop less q.cont).map fun popped => (popped.1.1, popped.1.2, ⟨popped.2⟩)

def size (q : Prque α) : ℕ := q.cont.size

end Prque

end Anduschain
