import Lockstep.Fault
import Std.Data.ExtTreeMap
import Std.Data.ExtTreeSet

/-!
Heaps: cells that hold values, found by address.

Addresses are handed out in order and never again, also when the cell has been discarded since.
-/

namespace Lockstep

/-- Live cells, and the address of the next one. -/
structure Heap where
  cells : Std.ExtTreeMap Nat Value compare := ∅
  next : Nat := 1
deriving DecidableEq

namespace Heap

/-- Puts a value into a fresh cell; yields the address of the cell as well. -/
def allocate (h : Heap) (v : Value) : Nat × Heap :=
  (h.next, { cells := h.cells.insert h.next v, next := h.next + 1 })

/-- The value of a live cell. -/
def get (h : Heap) (a : Nat) : Except Fault Value :=
  match h.cells[a]? with
  | some v => .ok v
  | none => .error (.invalidAddress a)

/-- Replaces the value of a live cell. -/
def put (h : Heap) (a : Nat) (v : Value) : Except Fault Heap :=
  if a ∈ h.cells then .ok { h with cells := h.cells.insert a v } else .error (.invalidAddress a)

/-- The heap with those of its cells that satisfy `p`; no address becomes free by it. -/
def keep (h : Heap) (p : Nat → Bool) : Heap :=
  { h with cells := h.cells.filter fun a _ => p a }

@[simp] theorem allocate_fst (h : Heap) (v : Value) : (h.allocate v).1 = h.next := rfl

@[simp] theorem next_allocate (h : Heap) (v : Value) : (h.allocate v).2.next = h.next + 1 := rfl

theorem getElem?_allocate (h : Heap) (v : Value) (a : Nat) :
    (h.allocate v).2.cells[a]? = if h.next = a then some v else h.cells[a]? := by
  simp [allocate, Std.ExtTreeMap.getElem?_insert]

@[simp] theorem next_keep (h : Heap) (p : Nat → Bool) : (h.keep p).next = h.next := rfl

theorem getElem?_keep (h : Heap) (p : Nat → Bool) (a : Nat) :
    (h.keep p).cells[a]? = if p a then h.cells[a]? else none := by
  rw [keep, Std.ExtTreeMap.getElem?_filter']
  cases h.cells[a]? with
  | none => simp
  | some v => cases p a <;> simp

/-- The number of live cells. -/
def size (h : Heap) : Nat :=
  h.cells.size

/-- Discards the cells that do not satisfy `p`; yields the number of discarded cells as well. -/
def rebuild (h : Heap) (p : Nat → Bool) : Heap × Nat :=
  let kept := h.keep p
  (kept, h.size - kept.size)

@[simp] theorem rebuild_fst (h : Heap) (p : Nat → Bool) : (h.rebuild p).1 = h.keep p := rfl

/-- The cells as lines of text, in order of the addresses. -/
def lines (h : Heap) : List String :=
  h.cells.toList.map fun c => c.1.repr ++ " -> " ++ c.2.text

end Heap

end Lockstep
