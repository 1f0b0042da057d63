import Lockstep.Heap.Reach
import Mathlib.Logic.Function.Iterate
import Mathlib.Order.Bounds.Defs
import Mathlib.Data.Set.Insert

/-!
The search of the collector finds exactly the reachable addresses.

A pass only takes up addresses that are one link away, so all that the search finds is reachable. When
a pass takes up nothing, the set is closed under following links, so all that is reachable has been
found. The number of passes is bounded by the number of cells that hold an address outside the set.
None of this depends on the order in which the cells or the roots are listed.
-/

namespace Lockstep.Heap

/-! ### Passes -/

/-- One pass of the search: the set with what is discovered from it. -/
def pass (cells : List (Nat × Value)) (seen : Std.ExtTreeSet Nat compare) :
    Std.ExtTreeSet Nat compare :=
  seen.insertMany (discover cells seen)

theorem mem_pass (cells : List (Nat × Value)) (seen : Std.ExtTreeSet Nat compare) (a : Nat) :
    a ∈ pass cells seen ↔ a ∈ seen ∨ ∃ c ∈ cells, c.1 ∈ seen ∧ c.2.address? = some a := by
  simp only [pass, Std.ExtTreeSet.mem_insertMany_list, List.contains_iff_mem, mem_discover]
  by_cases old : a ∈ seen <;> simp [old]

/-- The search ends after a bounded number of passes, with a set from which nothing is discovered. -/
theorem close_eq_iterate (cells : List (Nat × Value)) (seen : Std.ExtTreeSet Nat compare) :
    ∃ k ≤ outside cells seen, close cells seen = (pass cells)^[k] seen ∧
      discover cells (close cells seen) = [] := by
  -- along the passes; each but the last leaves fewer cells that hold an address outside the set
  fun_induction close cells seen with
  | case1 seen found stop => exact ⟨0, Nat.zero_le _, rfl, stop⟩
  | case2 seen found more ih =>
    obtain ⟨k, bound, passes, stop⟩ := ih
    have fewer : outside cells (seen.insertMany found) < outside cells seen :=
      outside_insertMany_lt more
    exact ⟨k + 1, by omega, passes, stop⟩

/-- Every pass keeps a property that holds of the set and passes on along the links. -/
theorem iterate_pass_sound {cells : List (Nat × Value)} {P : Nat → Prop}
    (linked : ∀ c ∈ cells, P c.1 → ∀ b, c.2.address? = some b → P b)
    {seen : Std.ExtTreeSet Nat compare} (initial : ∀ a ∈ seen, P a) (k : Nat) :
    ∀ a ∈ (pass cells)^[k] seen, P a := by
  induction k generalizing seen with
  | zero => exact initial
  | succ k ih =>
    rw [Function.iterate_succ_apply]
    apply ih
    intro a member
    rcases (mem_pass cells seen a).mp member with old | ⟨c, present, source, holds⟩
    · exact initial a old
    · exact linked c present (initial c.1 source) a holds

theorem subset_iterate_pass (cells : List (Nat × Value)) (seen : Std.ExtTreeSet Nat compare)
    (k : Nat) {a : Nat} (member : a ∈ seen) : a ∈ (pass cells)^[k] seen := by
  induction k generalizing seen with
  | zero => exact member
  | succ k ih =>
    rw [Function.iterate_succ_apply]
    exact ih _ ((mem_pass cells seen a).mpr (.inl member))

/-! ### Reachability -/

/-- A set of addresses that holds the roots and, with the address of a live cell that holds a
reference, the address stored there. -/
def ClosedFrom (h : Heap) (Root : Nat → Prop) (S : Set Nat) : Prop :=
  (∀ a, Root a → a ∈ S) ∧ ∀ a ∈ S, ∀ b, h.target? a = some b → b ∈ S

/-- The reachable addresses are the least such set. -/
theorem isLeast_reach (h : Heap) (Root : Nat → Prop) :
    IsLeast {S | h.ClosedFrom Root S} {a | h.Reach Root a} := by
  constructor
  · exact ⟨fun a root => .root root, fun a source b link => Reach.step source link⟩
  · intro S closed a reached
    induction reached with
    | root root => exact closed.1 _ root
    | step _ link ih => exact closed.2 _ ih _ link

theorem Reach.mono {h : Heap} {Root Root' : Nat → Prop} (weaker : ∀ a, Root a → Root' a) {a : Nat}
    (reached : h.Reach Root a) : h.Reach Root' a := by
  induction reached with
  | root root => exact .root (weaker _ root)
  | step _ link ih => exact .step ih link

theorem target?_eq_some_iff {h : Heap} {a b : Nat} :
    h.target? a = some b ↔ ∃ v, h.cells[a]? = some v ∧ v.address? = some b := by
  simp [target?, Option.bind_eq_some_iff]

/-- The search finds exactly the reachable addresses, whatever the order of the cells. -/
theorem mem_close_iff (h : Heap) {cells : List (Nat × Value)} (listed : cells.Perm h.cells.toList)
    (roots : List Nat) (a : Nat) :
    a ∈ close cells (.ofList roots) ↔ h.Reach (· ∈ roots) a := by
  have enumerates (c : Nat × Value) : c ∈ cells ↔ h.cells[c.1]? = some c.2 := by
    rw [listed.mem_iff, Std.ExtTreeMap.mem_toList_iff_getElem?_eq_some]
  have start (a : Nat) : a ∈ (.ofList roots : Std.ExtTreeSet Nat compare) ↔ a ∈ roots := by
    rw [Std.ExtTreeSet.mem_ofList, List.contains_iff_mem]
  obtain ⟨k, -, passes, stop⟩ := close_eq_iterate cells (.ofList roots)
  constructor
  · -- nothing but reachable addresses is ever taken up
    rw [passes]
    apply iterate_pass_sound
    · intro c present reached b holds
      exact .step reached (target?_eq_some_iff.mpr ⟨c.2, (enumerates c).mp present, holds⟩)
    · exact fun a member => .root ((start a).mp member)
  · intro reached
    induction reached with
    | root member =>
      rw [passes]
      exact subset_iterate_pass cells _ k ((start _).mpr member)
    | @step a b _ link ih =>
      obtain ⟨v, live, holds⟩ := target?_eq_some_iff.mp link
      -- otherwise the last pass would have discovered `b`
      by_contra missing
      have found : b ∈ discover cells (close cells (.ofList roots)) :=
        mem_discover.mpr ⟨⟨(a, v), (enumerates (a, v)).mpr live, ih, holds⟩, missing⟩
      simp [stop] at found

theorem mem_reachable_iff (h : Heap) (roots : List Nat) (a : Nat) :
    a ∈ h.reachable roots ↔ h.Reach (· ∈ roots) a :=
  h.mem_close_iff (.refl _) roots a

/-- The order in which the cells and the roots are listed, and repetitions of roots, make no
difference. -/
theorem close_eq_reachable (h : Heap) {cells : List (Nat × Value)}
    (listed : cells.Perm h.cells.toList) {roots roots' : List Nat}
    (same : ∀ a, a ∈ roots' ↔ a ∈ roots) :
    close cells (.ofList roots') = h.reachable roots := by
  apply Std.ExtTreeSet.ext_mem
  intro a
  rw [h.mem_close_iff listed, mem_reachable_iff]
  constructor
  · exact Reach.mono fun a => (same a).mp
  · exact Reach.mono fun a => (same a).mpr

/-- The search takes no more passes than there are cells. -/
theorem reachable_passes (h : Heap) {cells : List (Nat × Value)}
    (listed : cells.Perm h.cells.toList) (seen : Std.ExtTreeSet Nat compare) :
    ∃ k ≤ h.size, close cells seen = (pass cells)^[k] seen ∧
      discover cells (close cells seen) = [] := by
  obtain ⟨k, bound, result⟩ := close_eq_iterate cells seen
  have few : outside cells seen ≤ h.size := by
    calc outside cells seen
        ≤ cells.length := List.countP_le_length
      _ = h.size := by rw [listed.length_eq, Std.ExtTreeMap.length_toList, size]
  exact ⟨k, by omega, result⟩

/-! ### The collected heap -/

theorem collect_fst_cells (h : Heap) (roots : List Nat) (a : Nat) (v : Value) :
    (h.collect roots).1.cells[a]? = some v ↔
      h.cells[a]? = some v ∧ h.Reach (· ∈ roots) a := by
  rw [← mem_reachable_iff]
  simp only [collect, rebuild_fst, getElem?_keep, decide_eq_true_eq]
  split
  next reached => simp [reached]
  next lost => simp [lost]

/-- What is discarded is what is missing afterwards. -/
theorem size_collect (h : Heap) (roots : List Nat) :
    (h.collect roots).1.size + (h.collect roots).2 = h.size := by
  have fewer : (h.keep (· ∈ h.reachable roots)).size ≤ h.size :=
    Std.ExtTreeMap.size_filter_le_size
  simp only [collect, rebuild]
  omega

theorem collect_congr (h : Heap) {roots roots' : List Nat} (same : ∀ a, a ∈ roots' ↔ a ∈ roots) :
    h.collect roots' = h.collect roots := by
  have found : h.reachable roots' = h.reachable roots := h.close_eq_reachable (.refl _) same
  simp only [collect, found]

end Lockstep.Heap
