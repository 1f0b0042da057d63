import Lockstep.Heap.Basic

/-!
Reachability in a heap, and the collector built on it.

`close` grows a set of addresses in passes over the cells. A pass takes up the addresses that are
stored in cells at addresses of the set and do not belong to it; the first pass that finds none is the
last. Every other pass takes up an address that some cell holds, so there are fewer cells afterwards
that hold an address outside the set.
-/

namespace Lockstep.Heap

/-- The address stored in the cell at `a`, if there is a cell there and it holds a reference. -/
def target? (h : Heap) (a : Nat) : Option Nat :=
  h.cells[a]?.bind Value.address?

/-- An address is reachable if it is a root or stored in a live cell at a reachable address. Neither
needs to be the address of a live cell itself. -/
inductive Reach (h : Heap) (Root : Nat → Prop) : Nat → Prop where
  | root {a : Nat} (member : Root a) : Reach h Root a
  | step {a b : Nat} (source : Reach h Root a) (link : h.target? a = some b) : Reach h Root b

/-- The addresses outside a set that are stored in cells at addresses of the set. -/
def discover (cells : List (Nat × Value)) (seen : Std.ExtTreeSet Nat compare) : List Nat :=
  ((cells.filter fun c => c.1 ∈ seen).filterMap fun c => c.2.address?).filter (· ∉ seen)

/-- The number of cells that hold an address outside a set. -/
def outside (cells : List (Nat × Value)) (seen : Std.ExtTreeSet Nat compare) : Nat :=
  cells.countP fun c => c.2.address?.any (· ∉ seen)

theorem mem_discover {cells : List (Nat × Value)} {seen : Std.ExtTreeSet Nat compare} {b : Nat} :
    b ∈ discover cells seen ↔ (∃ c ∈ cells, c.1 ∈ seen ∧ c.2.address? = some b) ∧ b ∉ seen := by
  simp [discover, and_assoc]

theorem outside_insertMany_le (cells : List (Nat × Value)) (seen : Std.ExtTreeSet Nat compare)
    (found : List Nat) : outside cells (seen.insertMany found) ≤ outside cells seen := by
  apply List.countP_mono_left
  intro c _
  cases c.2.address? <;> simp_all [Std.ExtTreeSet.mem_insertMany_list]

theorem outside_insertMany_lt {cells : List (Nat × Value)} {seen : Std.ExtTreeSet Nat compare}
    (more : discover cells seen ≠ []) :
    outside cells (seen.insertMany (discover cells seen)) < outside cells seen := by
  obtain ⟨b, found⟩ := List.exists_mem_of_ne_nil _ more
  obtain ⟨⟨c, member, _, holds⟩, fresh⟩ := mem_discover.mp found
  -- the cell that holds `b` counts before the pass and no longer after it
  obtain ⟨front, back, rfl⟩ := List.append_of_mem member
  have left := outside_insertMany_le front seen (discover (front ++ c :: back) seen)
  have right := outside_insertMany_le back seen (discover (front ++ c :: back) seen)
  simp only [outside, List.countP_append, List.countP_cons, holds, Option.any_some,
    decide_eq_true_eq, fresh, Std.ExtTreeSet.mem_insertMany_list, List.contains_iff_mem, found,
    or_true] at left right ⊢
  simp only [not_true_eq_false, not_false_eq_true, if_true, if_false]
  omega

/-- Takes up what a pass discovers, pass by pass, until a pass discovers nothing. -/
def close (cells : List (Nat × Value)) (seen : Std.ExtTreeSet Nat compare) :
    Std.ExtTreeSet Nat compare :=
  let found := discover cells seen
  if found = [] then seen else close cells (seen.insertMany found)
termination_by outside cells seen
decreasing_by exact outside_insertMany_lt ‹_›

/-- The addresses reachable from the roots. -/
def reachable (h : Heap) (roots : List Nat) : Std.ExtTreeSet Nat compare :=
  close h.cells.toList (.ofList roots)

/-- Discards the cells that are not reachable from the roots; yields their number as well. -/
def collect (h : Heap) (roots : List Nat) : Heap × Nat :=
  let live := h.reachable roots
  h.rebuild (· ∈ live)

end Lockstep.Heap
