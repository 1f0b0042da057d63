import Lockstep.Pool
import Lockstep.Proofs.Reachable
import Mathlib.Algebra.BigOperators.Group.Finset.Basic

/-!
A collection keeps exactly the reachable cells of every heap that the listed threads work on.

The threads are grouped by heap first. Each heap forms one group, and the roots of the group are the
addresses that the variables of all threads on this heap hold, and of no other thread. The groups name
different heaps, so each of them is collected once, as it was before the collection.
-/

namespace Lockstep

/-- A variable of a listed thread on heap `n` holds a reference to `a`. -/
def HeldOn (threads : List Thread) (n a : Nat) : Prop :=
  ∃ t ∈ threads, t.heap = n ∧ ∃ (x : String) (target : Ty), t.symbols[x]? = some (.ref a target)

theorem Value.address?_eq_some_iff {v : Value} {a : Nat} :
    v.address? = some a ↔ ∃ target, v = .ref a target := by
  cases v <;> simp [address?]

theorem Symbols.mem_roots_iff (σ : Symbols) (a : Nat) :
    a ∈ σ.roots ↔ ∃ (x : String) (target : Ty), σ[x]? = some (.ref a target) := by
  simp only [roots, List.mem_filterMap, Value.address?_eq_some_iff, Prod.exists,
    Std.ExtTreeMap.mem_toList_iff_getElem?_eq_some]
  constructor
  · rintro ⟨x, v, bound, target, rfl⟩
    exact ⟨x, target, bound⟩
  · rintro ⟨x, target, bound⟩
    exact ⟨x, _, bound, target, rfl⟩

namespace World

/-! ### Groups -/

private theorem lookup_cons_if (groups : List (Nat × List Nat)) (m n : Nat) (roots : List Nat) :
    ((m, roots) :: groups).lookup n = if n = m then some roots else groups.lookup n := by
  by_cases here : n = m
  · simp [here]
  · have differs : (n == m) = false := by simpa using here
    simp [List.lookup_cons, differs, here]

theorem lookup_addRoots (t : Thread) (groups : List (Nat × List Nat)) (n : Nat) :
    (addRoots t groups).lookup n =
      if n = t.heap then some ((groups.lookup n).getD [] ++ t.symbols.roots)
      else groups.lookup n := by
  induction groups with
  | nil => simp [addRoots, lookup_cons_if]
  | cons g rest ih =>
    obtain ⟨m, roots⟩ := g
    simp only [addRoots]
    -- the thread joins the first group, or is passed on to the others
    by_cases first : m = t.heap
    · by_cases same : n = t.heap <;> simp [lookup_cons_if, first, same]
    · by_cases here : n = m
      · simp [first, here]
      · simp [lookup_cons_if, first, here, ih]

theorem fst_addRoots (t : Thread) (groups : List (Nat × List Nat)) :
    (addRoots t groups).map Prod.fst =
      if t.heap ∈ groups.map Prod.fst then groups.map Prod.fst
      else groups.map Prod.fst ++ [t.heap] := by
  induction groups with
  | nil => rfl
  | cons g rest ih =>
    obtain ⟨m, roots⟩ := g
    by_cases first : m = t.heap
    · simp [addRoots, first]
    · simp only [addRoots, if_neg first, List.map_cons, ih, List.mem_cons, Ne.symm first, false_or]
      split <;> rfl

theorem rootGroups_concat (threads : List Thread) (t : Thread) :
    rootGroups (threads ++ [t]) = addRoots t (rootGroups threads) := by
  simp [rootGroups, List.foldl_append]

/-- Every heap forms at most one group. -/
theorem rootGroups_distinct (threads : List Thread) :
    ((rootGroups threads).map Prod.fst).Nodup := by
  induction threads using List.reverseRecOn with
  | nil => simp [rootGroups]
  | append_singleton threads t ih =>
    rw [rootGroups_concat, fst_addRoots]
    split
    · exact ih
    next absent =>
      rw [← List.concat_eq_append]
      exact ih.concat absent

/-- Exactly the heaps that a listed thread works on form a group. -/
theorem mem_rootGroups_fst (threads : List Thread) (n : Nat) :
    n ∈ (rootGroups threads).map Prod.fst ↔ n ∈ threads.map Thread.heap := by
  induction threads using List.reverseRecOn with
  | nil => simp [rootGroups]
  | append_singleton threads t ih =>
    rw [rootGroups_concat, fst_addRoots, List.map_append, List.mem_append, ← ih]
    split
    next present =>
      constructor
      · exact .inl
      · rintro (member | last)
        · exact member
        · simpa [List.mem_singleton.mp last] using present
    · rw [List.mem_append, List.map_cons, List.map_nil]

/-- The roots of a group are what the threads on its heap hold, and nothing else. -/
theorem mem_lookup_rootGroups (threads : List Thread) (n a : Nat) :
    a ∈ ((rootGroups threads).lookup n).getD [] ↔ HeldOn threads n a := by
  -- from the back, since the groups are built by a fold from the front
  induction threads using List.reverseRecOn with
  | nil => simp [rootGroups, HeldOn]
  | append_singleton threads t ih =>
    have split : HeldOn (threads ++ [t]) n a ↔
        HeldOn threads n a ∨ t.heap = n ∧ a ∈ t.symbols.roots := by
      simp [HeldOn, or_and_right, exists_or, Symbols.mem_roots_iff]
    rw [rootGroups_concat, lookup_addRoots, split, ← ih]
    by_cases here : n = t.heap
    · simp [here]
    · simp [here, Ne.symm here]

/-! ### Collecting the groups -/

theorem heaps_setHeap (w : World) (m n : Nat) (h : Heap) :
    (w.setHeap m h).heaps[n]? = if m = n then some h else w.heaps[n]? := by
  simp only [setHeap, Std.ExtTreeMap.getElem?_insert, Std.compare_eq_iff_eq]

theorem heaps_collectGroups (w : World) (groups : List (Nat × List Nat))
    (distinct : (groups.map Prod.fst).Nodup) (n : Nat) :
    (w.collectGroups groups).1.heaps[n]? =
      match groups.lookup n with
      | some roots => some ((w.heap n).collect roots).1
      | none => w.heaps[n]? := by
  induction groups generalizing w with
  | nil => rfl
  | cons g rest ih =>
    obtain ⟨m, roots⟩ := g
    simp only [List.map_cons, List.nodup_cons] at distinct
    simp only [collectGroups, ih _ distinct.2, heaps_setHeap, heap_setHeap, lookup_cons_if]
    by_cases here : n = m
    · subst n
      -- the heap is in no later group, so it is not touched again
      have last : rest.lookup m = none := by
        rw [List.lookup_eq_none_iff]
        intro g member
        have differs : m ≠ g.1 := fun same => distinct.1 (same ▸ List.mem_map_of_mem member)
        simpa using differs
      simp [last]
    · simp [here, Ne.symm here]

theorem nextThread_collectGroups (w : World) (groups : List (Nat × List Nat)) :
    (w.collectGroups groups).1.nextThread = w.nextThread := by
  induction groups generalizing w with
  | nil => rfl
  | cons g rest ih => exact ih _

theorem nextHeap_collectGroups (w : World) (groups : List (Nat × List Nat)) :
    (w.collectGroups groups).1.nextHeap = w.nextHeap := by
  induction groups generalizing w with
  | nil => rfl
  | cons g rest ih => exact ih _

@[simp] theorem nextThread_sweep (w : World) (threads : List Thread) :
    (w.sweep threads).nextThread = w.nextThread :=
  nextThread_collectGroups w _

/-- A heap after a collection: collected from what the threads on it hold if a listed thread works on
it, and as before otherwise. -/
theorem heaps_collect (w : World) (threads : List Thread) (n : Nat) :
    (w.collect threads).1.heaps[n]? =
      if n ∈ threads.map Thread.heap then
        some ((w.heap n).collect (((rootGroups threads).lookup n).getD [])).1
      else w.heaps[n]? := by
  have grouped := mem_rootGroups_fst threads n
  rw [collect, heaps_collectGroups w _ (rootGroups_distinct threads)]
  cases group : (rootGroups threads).lookup n with
  | none =>
    have absent : n ∉ (rootGroups threads).map Prod.fst := by
      intro member
      obtain ⟨g, listed, rfl⟩ := List.mem_map.mp member
      simpa using List.lookup_eq_none_iff.mp group g listed
    rw [if_neg (mt grouped.mpr absent)]
  | some roots =>
    have present : n ∈ (rootGroups threads).map Prod.fst := by
      obtain ⟨front, back, listed, -⟩ := List.lookup_eq_some_iff.mp group
      simp [listed]
    rw [if_pos (grouped.mp present), Option.getD_some]

theorem heap_collect (w : World) (threads : List Thread) (n : Nat) :
    (w.collect threads).1.heap n =
      if n ∈ threads.map Thread.heap then
        ((w.heap n).collect (((rootGroups threads).lookup n).getD [])).1
      else w.heap n := by
  rw [heap, heaps_collect]
  split <;> rfl

/-- The cells that are left in a heap are the reachable ones, with the values they had. -/
theorem cells_collect (w : World) {threads : List Thread} {n : Nat}
    (used : n ∈ threads.map Thread.heap) (a : Nat) (v : Value) :
    ((w.collect threads).1.heap n).cells[a]? = some v ↔
      (w.heap n).cells[a]? = some v ∧ (w.heap n).Reach (HeldOn threads n) a := by
  have roots : (· ∈ ((rootGroups threads).lookup n).getD []) = HeldOn threads n := by
    funext b
    exact propext (mem_lookup_rootGroups threads n b)
  rw [heap_collect, if_pos used, Heap.collect_fst_cells, roots]

theorem next_collect (w : World) (threads : List Thread) (n : Nat) :
    ((w.collect threads).1.heap n).next = (w.heap n).next := by
  rw [heap_collect]
  split <;> rfl

/-- A collection makes no cell and changes none. -/
theorem cells_sweep_sub (w : World) (threads : List Thread) (n a : Nat) (v : Value)
    (found : ((w.sweep threads).heap n).cells[a]? = some v) : (w.heap n).cells[a]? = some v := by
  by_cases used : n ∈ threads.map Thread.heap
  · exact ((w.cells_collect used a v).mp found).1
  · rwa [sweep, heap_collect, if_neg used] at found

/-! ### The number of discarded cells -/

theorem heap_collectGroups_of_not_mem (w : World) (groups : List (Nat × List Nat)) {n : Nat}
    (absent : n ∉ groups.map Prod.fst) : (w.collectGroups groups).1.heap n = w.heap n := by
  induction groups generalizing w with
  | nil => rfl
  | cons g rest ih =>
    obtain ⟨m, roots⟩ := g
    simp only [List.map_cons, List.mem_cons, not_or] at absent
    simp only [collectGroups, ih _ absent.2, heap_setHeap, if_neg (Ne.symm absent.1)]

theorem size_collectGroups (w : World) (groups : List (Nat × List Nat))
    (distinct : (groups.map Prod.fst).Nodup) :
    ∑ n ∈ (groups.map Prod.fst).toFinset, ((w.collectGroups groups).1.heap n).size +
      (w.collectGroups groups).2 = ∑ n ∈ (groups.map Prod.fst).toFinset, (w.heap n).size := by
  induction groups generalizing w with
  | nil => rfl
  | cons g rest ih =>
    obtain ⟨m, roots⟩ := g
    simp only [List.map_cons, List.nodup_cons] at distinct
    have absent : m ∉ (rest.map Prod.fst).toFinset := by simpa using distinct.1
    -- collecting the first heap does not change the sizes of the others
    have others : ∑ n ∈ (rest.map Prod.fst).toFinset,
        ((w.setHeap m ((w.heap m).collect roots).1).heap n).size =
          ∑ n ∈ (rest.map Prod.fst).toFinset, (w.heap n).size := by
      apply Finset.sum_congr rfl
      intro n member
      have differs : m ≠ n := fun same => absent (same ▸ member)
      rw [heap_setHeap, if_neg differs]
    have tail := ih (w.setHeap m ((w.heap m).collect roots).1) distinct.2
    have here := heap_collectGroups_of_not_mem (w.setHeap m ((w.heap m).collect roots).1) rest
      distinct.1
    have head := (w.heap m).size_collect roots
    simp only [List.map_cons, List.toFinset_cons, Finset.sum_insert absent, collectGroups, here,
      heap_setHeap, if_true]
    omega

/-- The number that a collection yields is the number of cells that are missing after it. -/
theorem size_collect (w : World) (threads : List Thread) :
    ∑ n ∈ (threads.map Thread.heap).toFinset, ((w.collect threads).1.heap n).size +
      (w.collect threads).2 = ∑ n ∈ (threads.map Thread.heap).toFinset, (w.heap n).size := by
  have heaps : ((rootGroups threads).map Prod.fst).toFinset = (threads.map Thread.heap).toFinset := by
    ext n
    simp only [List.mem_toFinset, mem_rootGroups_fst]
  rw [← heaps]
  exact size_collectGroups w _ (rootGroups_distinct threads)

/-! ### Order -/

theorem heldOn_perm {threads threads' : List Thread} (permuted : threads'.Perm threads)
    (n a : Nat) : HeldOn threads' n a ↔ HeldOn threads n a := by
  simp only [HeldOn, permuted.mem_iff]

/-- A collection does not depend on the order in which the threads are listed. -/
theorem collect_perm (w : World) {threads threads' : List Thread}
    (permuted : threads'.Perm threads) : w.collect threads' = w.collect threads := by
  have used (n : Nat) : n ∈ threads'.map Thread.heap ↔ n ∈ threads.map Thread.heap :=
    (permuted.map Thread.heap).mem_iff
  have worlds : (w.collect threads').1 = (w.collect threads).1 := by
    have heaps : (w.collect threads').1.heaps = (w.collect threads).1.heaps := by
      apply Std.ExtTreeMap.ext_getElem?
      intro n
      have roots : (w.heap n).collect (((rootGroups threads').lookup n).getD []) =
          (w.heap n).collect (((rootGroups threads).lookup n).getD []) := by
        apply Heap.collect_congr
        intro a
        rw [mem_lookup_rootGroups, mem_lookup_rootGroups, heldOn_perm permuted]
      simp only [heaps_collect, used n, roots]
    have thread : (w.collect threads').1.nextThread = (w.collect threads).1.nextThread := by
      simp only [collect, nextThread_collectGroups]
    have heap : (w.collect threads').1.nextHeap = (w.collect threads).1.nextHeap := by
      simp only [collect, nextHeap_collectGroups]
    cases left : (w.collect threads').1
    cases right : (w.collect threads).1
    simp_all
  -- the worlds agree, and the numbers of cells before and after determine the count
  have before := w.size_collect threads'
  have after := w.size_collect threads
  rw [List.toFinset_eq_of_perm _ _ (permuted.map Thread.heap), worlds] at before
  exact Prod.ext worlds (by omega)

/-- A collection is exact. In every heap that a listed thread works on, it leaves those cells, with
their values, whose address is in the least set that holds what the threads on this heap hold and is
closed under following references; all other heaps are left alone, as are the next addresses and the
threads. The number it yields counts the missing cells. The search behind it ends after at most as many
passes as there are cells, and neither the order of the threads nor that of the cells or roots makes a
difference. -/
theorem collect_exact (w : World) (threads : List Thread) :
    (∀ n ∈ threads.map Thread.heap, ∃ S : Set Nat,
      IsLeast {S | (w.heap n).ClosedFrom (HeldOn threads n) S} S ∧
      ∀ a v, ((w.collect threads).1.heap n).cells[a]? = some v ↔
        (w.heap n).cells[a]? = some v ∧ a ∈ S) ∧
    (∀ n, ((w.collect threads).1.heap n).next = (w.heap n).next) ∧
    (∀ n ∉ threads.map Thread.heap, (w.collect threads).1.heap n = w.heap n) ∧
    (({ world := w, active := threads } : Pool).openRound sweep).active = threads ∧
    ∑ n ∈ (threads.map Thread.heap).toFinset, ((w.collect threads).1.heap n).size +
      (w.collect threads).2 = ∑ n ∈ (threads.map Thread.heap).toFinset, (w.heap n).size ∧
    (∀ threads', threads'.Perm threads → w.collect threads' = w.collect threads) ∧
    ∀ n cells roots roots', cells.Perm (w.heap n).cells.toList → roots'.Perm roots →
      (∃ k ≤ (w.heap n).size,
        Heap.close cells (.ofList roots') = (Heap.pass cells)^[k] (.ofList roots') ∧
        Heap.discover cells (Heap.close cells (.ofList roots')) = []) ∧
      Heap.close cells (.ofList roots') = (w.heap n).reachable roots := by
  refine ⟨?_, w.next_collect threads, ?_, rfl, w.size_collect threads,
    fun _ permuted => w.collect_perm permuted, ?_⟩
  · intro n used
    exact ⟨_, (w.heap n).isLeast_reach (HeldOn threads n), w.cells_collect used⟩
  · intro n unused
    rw [heap_collect, if_neg unused]
  · intro n cells roots roots' listed permuted
    exact ⟨(w.heap n).reachable_passes listed _,
      (w.heap n).close_eq_reachable listed fun _ => permuted.mem_iff⟩

/-- Two threads share a heap: one holds a cycle, the other a cell with a dangling reference, and nobody
holds the fourth cell, which refers to itself. A second heap is not in use. -/
theorem collect_exact_cycle :
    let link (a : Nat) : Value := .ref a .int
    let used : Heap := { cells := .ofList [(1, link 2), (2, link 1), (3, link 9), (4, link 4)] }
    let unused : Heap := { cells := .ofList [(1, Value.int 7)] }
    let w : World := { heaps := .ofList [(0, used), (1, unused)] }
    let threads := [Thread.start 1 0 .nop (.ofList [("x", link 2)]),
      Thread.start 2 0 .nop (.ofList [("y", link 3)])]
    0 ∈ threads.map Thread.heap ∧ 1 ∉ threads.map Thread.heap ∧
    (w.collect threads).2 = 1 ∧ ((w.collect threads).1.heap 0).cells.keys = [1, 2, 3] ∧
    (∃ S : Set Nat, IsLeast {S | (w.heap 0).ClosedFrom (HeldOn threads 0) S} S ∧
      ∀ a v, ((w.collect threads).1.heap 0).cells[a]? = some v ↔
        (w.heap 0).cells[a]? = some v ∧ a ∈ S) ∧
    (w.collect threads).1.heap 1 = w.heap 1 := by
  intro link used unused w threads
  have listed : 0 ∈ threads.map Thread.heap := by decide
  have unlisted : 1 ∉ threads.map Thread.heap := by decide
  obtain ⟨cells, -, others, -⟩ := collect_exact w threads
  exact ⟨listed, unlisted, by decide +kernel, by decide +kernel, cells 0 listed, others 1 unlisted⟩

end World

end Lockstep
