import Lockstep.Proofs.Reachable

/-!
Collections compose.

A collection discards cells, so a later search walks over fewer cells than an earlier one. Starting from
addresses that the first collection could reach it meets none of the gaps: whatever it walks over could be
reached from the roots of the first collection as well, and so is still there. What a second collection
leaves is therefore what it would have left on its own, and the two together discard as many cells.
-/

namespace Lockstep.Heap

variable (h : Heap) (roots : List Nat)

/-- What can be reached from reachable addresses can be reached. -/
theorem Reach.trans {h : Heap} {Root Root' : Nat → Prop} (covered : ∀ a, Root' a → h.Reach Root a)
    {a : Nat} (reached : h.Reach Root' a) : h.Reach Root a := by
  induction reached with
  | root member => exact covered _ member
  | step _ link ih => exact .step ih link

/-- The links of a collected heap are those that start at reachable addresses. -/
theorem target?_collect {a b : Nat} :
    (h.collect roots).1.target? a = some b ↔ h.target? a = some b ∧ h.Reach (· ∈ roots) a := by
  simp only [target?_eq_some_iff, collect_fst_cells]
  constructor
  · rintro ⟨v, ⟨live, reached⟩, holds⟩
    exact ⟨⟨v, live, holds⟩, reached⟩
  · rintro ⟨⟨v, live, holds⟩, reached⟩
    exact ⟨v, ⟨live, reached⟩, holds⟩

/-- From addresses that the collection could reach, a search finds the same before and after it. -/
theorem reach_collect_iff {Root : Nat → Prop} (covered : ∀ a, Root a → h.Reach (· ∈ roots) a) (a : Nat) :
    (h.collect roots).1.Reach Root a ↔ h.Reach Root a := by
  constructor
  · intro reached
    induction reached with
    | root member => exact .root member
    | step _ link ih => exact .step ih ((h.target?_collect roots).mp link).1
  · intro reached
    induction reached with
    | root member => exact .root member
    | step source link ih =>
      -- the cell that the link starts from has not been discarded
      exact .step ih ((h.target?_collect roots).mpr ⟨link, source.trans covered⟩)

theorem reachable_collect {roots' : List Nat} (covered : ∀ a ∈ roots', h.Reach (· ∈ roots) a) :
    (h.collect roots).1.reachable roots' = h.reachable roots' := by
  apply Std.ExtTreeSet.ext_mem
  intro a
  rw [mem_reachable_iff, mem_reachable_iff, h.reach_collect_iff roots covered]

theorem collect_collect_fst {roots' : List Nat} (covered : ∀ a ∈ roots', h.Reach (· ∈ roots) a) :
    ((h.collect roots).1.collect roots').1 = (h.collect roots').1 := by
  have cells : ((h.collect roots).1.collect roots').1.cells = (h.collect roots').1.cells := by
    apply Std.ExtTreeMap.ext_getElem?
    intro a
    ext v
    simp only [collect_fst_cells, h.reach_collect_iff roots covered]
    constructor
    · rintro ⟨⟨live, -⟩, reached⟩
      exact ⟨live, reached⟩
    · rintro ⟨live, reached⟩
      -- what the second collection keeps, the first one has kept
      exact ⟨⟨live, reached.trans covered⟩, reached⟩
  rw [Heap.mk.injEq]
  exact ⟨cells, rfl⟩

/-- The numbers of cells that two collections discard add up: each is what is missing after it. -/
theorem collect_collect_snd {roots' : List Nat} (covered : ∀ a ∈ roots', h.Reach (· ∈ roots) a) :
    (h.collect roots).2 + ((h.collect roots).1.collect roots').2 = (h.collect roots').2 := by
  have first := h.size_collect roots
  have second := (h.collect roots).1.size_collect roots'
  have alone := h.size_collect roots'
  rw [h.collect_collect_fst roots covered] at second
  omega

/-- Collections compose. If every root of a second collection is a root of the first, or reachable from
one, then the two leave exactly what the second leaves on its own, and discard together as many cells;
the addresses that can be reached from the second roots are the same before and after the first
collection. A second collection from the same roots discards nothing. -/
theorem collections_compose (roots' : List Nat)
    (covered : ∀ a ∈ roots', a ∈ roots ∨ h.Reach (· ∈ roots) a) :
    ((h.collect roots).1.collect roots').1 = (h.collect roots').1 ∧
    (h.collect roots).2 + ((h.collect roots).1.collect roots').2 = (h.collect roots').2 ∧
    (h.collect roots).1.collect roots = ((h.collect roots).1, 0) ∧
    (h.collect roots).1.reachable roots' = h.reachable roots' := by
  have within (a : Nat) (member : a ∈ roots') : h.Reach (· ∈ roots) a := by
    rcases covered a member with root | reached
    · exact .root root
    · exact reached
  have again (a : Nat) (member : a ∈ roots) : h.Reach (· ∈ roots) a := .root member
  refine ⟨h.collect_collect_fst roots within, h.collect_collect_snd roots within, ?_,
    h.reachable_collect roots within⟩
  have count := h.collect_collect_snd roots again
  exact Prod.ext (h.collect_collect_fst roots again) (by omega)

/-- The first collection starts from a cycle of two cells, one of which leads on to a dangling reference;
the second starts from an address on the way, and from one without a cell. -/
theorem collections_compose_cycle :
    let link (a : Nat) : Value := .ref a .int
    let h : Heap :=
      { cells := .ofList [(1, link 2), (2, link 1), (3, link 4), (4, link 9), (5, link 1)], next := 6 }
    (∀ a ∈ [4, 9], a ∈ [1, 3] ∨ h.Reach (· ∈ [1, 3]) a) ∧
    (h.collect [1, 3]).2 = 1 ∧ (h.collect [4, 9]).2 = 4 ∧
    ((h.collect [1, 3]).1.collect [4, 9]).1 = (h.collect [4, 9]).1 ∧
    (h.collect [1, 3]).2 + ((h.collect [1, 3]).1.collect [4, 9]).2 = (h.collect [4, 9]).2 := by
  intro link h
  have fourth : h.Reach (· ∈ [1, 3]) 4 := .step (.root (by decide : 3 ∈ [1, 3])) (by decide)
  have dangling : h.Reach (· ∈ [1, 3]) 9 := .step fourth (by decide)
  have covered : ∀ a ∈ [4, 9], a ∈ [1, 3] ∨ h.Reach (· ∈ [1, 3]) a := by
    simp only [List.forall_mem_cons]
    exact ⟨.inr fourth, .inr dangling, by simp⟩
  obtain ⟨cells, counts, -⟩ := h.collections_compose [1, 3] [4, 9] covered
  exact ⟨covered, by decide +kernel, by decide +kernel, cells, counts⟩

end Lockstep.Heap
