import Lockstep.Proofs.Footprint
import Mathlib.Data.List.FinRange
import Mathlib.Data.List.Pairwise

/-!
Steps that do not conflict can be taken in any order.

Threads conflict if they work on one heap and one of them writes where the other reads or writes. As long as
only threads without a conflict are stepped, every thread finds what it looks at as it was at the start. So
each of them ends as it would if it were stepped alone, and each heap gets the changes of its threads, which
go to different cells.
-/

namespace Lockstep

/-! ### Changes -/

namespace Change

variable {c d : Change} {h : Heap}

theorem getElem?_apply_of_ne {a : Nat} (other : c.address? ≠ some a) :
    (c.apply h).cells[a]? = h.cells[a]? := by
  cases c with
  | keep => rfl
  | store b v =>
    have differs : b ≠ a := fun same => other (congrArg some same)
    simp [apply, Std.ExtTreeMap.getElem?_insert, differs]
  | fresh b v =>
    have differs : b ≠ a := fun same => other (congrArg some same)
    simp [apply, Std.ExtTreeMap.getElem?_insert, differs]

theorem next_apply_of_not_fresh (old : ¬c.isFresh) : (c.apply h).next = h.next := by
  cases c with
  | keep => rfl
  | store a v => rfl
  | fresh a v => simp [isFresh] at old

theorem insert_comm {cells : Std.ExtTreeMap Nat Value compare} {a b : Nat} (differ : a ≠ b)
    (u v : Value) : (cells.insert a u).insert b v = (cells.insert b v).insert a u := by
  ext i
  simp only [Std.ExtTreeMap.getElem?_insert, Std.compare_eq_iff_eq]
  split
  next here =>
    subst here
    rw [if_neg differ]
  · rfl

/-- Changes of different cells commute, unless both make a new one. -/
theorem apply_comm (differ : ∀ a, c.address? = some a → d.address? ≠ some a)
    (fresh : ¬(c.isFresh ∧ d.isFresh)) : d.apply (c.apply h) = c.apply (d.apply h) := by
  have cells {a b : Nat} (first : c.address? = some a) (second : d.address? = some b) (u v : Value) :
      (h.cells.insert a u).insert b v = (h.cells.insert b v).insert a u := by
    refine insert_comm ?_ u v
    rintro rfl
    exact differ a first second
  cases c with
  | keep => rfl
  | store a u =>
    cases d with
    | keep => rfl
    | store b v => simp only [apply, cells rfl rfl]
    | fresh b v => simp only [apply, cells rfl rfl]
  | fresh a u =>
    cases d with
    | keep => rfl
    | store b v => simp only [apply, cells rfl rfl]
    | fresh b v =>
      -- the next address would depend on the order
      exact absurd ⟨rfl, rfl⟩ fresh

end Change

/-! ### Threads without a conflict -/

namespace Thread

/-- No address that the step of `t` writes to is read or written by that of `u`. -/
def Clear (h : Heap) (t u : Thread) : Prop :=
  ∀ a ∈ t.writes h, a ∉ u.reads h ∧ a ∉ u.writes h

instance (h : Heap) (t u : Thread) : Decidable (t.Clear h u) :=
  inferInstanceAs (Decidable (∀ a ∈ t.writes h, a ∉ u.reads h ∧ a ∉ u.writes h))

variable {h k : Heap} {t u : Thread}

theorem mem_writes_iff {a : Nat} : a ∈ t.writes h ↔ (t.change h).address? = some a := by
  simp [writes, eq_comm]

theorem next_mem_writes (fresh : (t.change h).isFresh) : h.next ∈ t.writes h := by
  rw [mem_writes_iff]
  simp only [change, changeBy] at fresh ⊢
  split at fresh
  next s rest running top =>
    cases s with
    | alloc x e =>
      simp only [Stmt.changeBy] at fresh ⊢
      split at fresh
      · rfl
      · cases fresh
    | write x e =>
      simp only [Stmt.changeBy] at fresh
      split at fresh <;> cases fresh
    | _ => cases fresh
  · cases fresh

/-- Two threads without a conflict do not both make a new cell. -/
theorem Clear.not_both_fresh (clear : t.Clear h u) :
    ¬((t.change h).isFresh ∧ (u.change h).isFresh) := by
  rintro ⟨first, second⟩
  exact (clear h.next (next_mem_writes first)).2 (next_mem_writes second)

/-- A heap that has all that the step of a thread looks at as it is in `h`. -/
structure Sees (h k : Heap) (t : Thread) : Prop where
  cells : h.SameAt (t.reads h) k
  next : (t.change h).isFresh → k.next = h.next

theorem Sees.of_change (sees : u.Sees h k) (clear : t.Clear h u) : u.Sees h ((t.change h).apply k) where
  cells := by
    intro a looked
    rw [Change.getElem?_apply_of_ne, sees.cells a looked]
    intro written
    exact (clear a (mem_writes_iff.mpr written)).1 looked
  next := by
    intro fresh
    have old : ¬(t.change h).isFresh := fun both => clear.not_both_fresh ⟨both, fresh⟩
    rw [Change.next_apply_of_not_fresh old, sees.next fresh]

end Thread

/-! ### Rounds -/

namespace World

/-- If the threads work on one heap, their next steps do not conflict. -/
def Apart (w : World) (t u : Thread) : Prop :=
  t.heap = u.heap → t.Clear (w.heap t.heap) u ∧ u.Clear (w.heap t.heap) t

instance (w : World) (t u : Thread) : Decidable (w.Apart t u) :=
  inferInstanceAs (Decidable (t.heap = u.heap → _))

instance (w : World) : Std.Symm w.Apart where
  symm t u apart same := by
    rw [same]
    exact (apart same.symm).symm

/-- The outcome of a step with the number of a thread that it started left out. -/
def unnumbered (r : Thread × Except Fault (Option Thread)) :
    Thread × Except Fault (Option Thread) :=
  (r.1, r.2.map (Option.map fun c => { c with id := 0 }))

/-- What the heap `n` becomes if some threads make the changes that they would make to it now. -/
def changed (w : World) (n : Nat) (threads : List Thread) (h : Heap) : Heap :=
  threads.foldl (fun h t => if t.heap = n then (t.change (w.heap n)).apply h else h) h

variable (disk : Disk) {w v : World}

theorem unnumbered_step (t : Thread) :
    unnumbered (w.step disk t).2 = ((t.step disk (w.heap t.heap)).thread,
      (t.step disk (w.heap t.heap)).result.map
        (Option.map fun c => Thread.start 0 t.heap c.body c.symbols)) := by
  rw [step_snd, unnumbered]
  rcases (t.step disk (w.heap t.heap)).result with e | _ | c <;> rfl

theorem step_of_sees {t : Thread} (sees : t.Sees (w.heap t.heap) (v.heap t.heap)) :
    unnumbered (v.step disk t).2 = unnumbered (w.step disk t).2 ∧
      ∀ n, (v.step disk t).1.heap n =
        if t.heap = n then (t.change (w.heap n)).apply (v.heap n) else v.heap n := by
  have stepped := t.step_on_heap disk sees.cells sees.next
  constructor
  · rw [unnumbered_step, unnumbered_step, stepped]
  · intro n
    rw [heap_step, stepped]
    split
    next same => subst same; rfl
    · rfl

/-- Threads without a conflict step as they would alone, in a world that has what they look at as it is in
`w`, and each heap gets their changes. -/
theorem stepAll_of_apart {threads : List Thread} (apart : threads.Pairwise w.Apart)
    (sees : ∀ t ∈ threads, t.Sees (w.heap t.heap) (v.heap t.heap)) :
    (v.stepAll disk threads).2.map unnumbered =
        threads.map (fun t => unnumbered (w.step disk t).2) ∧
      ∀ n, (v.stepAll disk threads).1.heap n = w.changed n threads (v.heap n) := by
  induction threads generalizing v with
  | nil => exact ⟨rfl, fun n => rfl⟩
  | cons t ts ih =>
    obtain ⟨clear, apart⟩ := List.pairwise_cons.mp apart
    obtain ⟨outcome, heaps⟩ := step_of_sees disk (sees t List.mem_cons_self)
    -- the step of `t` leaves alone what the others look at
    have later : ∀ u ∈ ts, u.Sees (w.heap u.heap) ((v.step disk t).1.heap u.heap) := by
      intro u member
      have before := sees u (List.mem_cons_of_mem t member)
      rw [heaps]
      split
      next same =>
        have free := (clear u member same).1
        rw [same] at free
        exact before.of_change free
      · exact before
    obtain ⟨outcomes, rest⟩ := ih apart later
    rw [stepAll_cons]
    refine ⟨?_, fun n => ?_⟩
    · rw [List.map_cons, List.map_cons, outcome, outcomes]
    · rw [rest, heaps]
      rfl

theorem changed_perm {threads others : List Thread} (apart : threads.Pairwise w.Apart)
    (perm : others.Perm threads) (n : Nat) (h : Heap) :
    w.changed n others h = w.changed n threads h := by
  refine (perm.symm.foldl_eq' ?_ h).symm
  intro t first u second k
  -- only the changes of two different threads on the heap `n` have to commute
  by_cases same : t = u
  · rw [same]
  by_cases mine : t.heap = n
  · by_cases yours : u.heap = n
    · obtain ⟨clear, -⟩ := apart.forall first second same (mine.trans yours.symm)
      rw [mine] at clear
      simp only [if_pos mine, if_pos yours]
      refine Change.apply_comm (fun a written => ?_) clear.not_both_fresh
      intro also
      exact (clear a (Thread.mem_writes_iff.mpr written)).2 (Thread.mem_writes_iff.mpr also)
    · simp only [if_neg yours]
  · simp only [if_neg mine]

/-- Steps that do not conflict can be taken in any order. Let no two threads of a list that work on one
heap conflict: no address that one of them writes to in its next step is read or written by the other. Then,
in whatever order the threads are stepped, each of them ends in the same way, with the same thread started or
the same failure, up to the numbers of the threads that are started; and the heaps become the same. -/
theorem stepAll_order_irrelevant (disk : Disk) (w : World) (threads : List Thread)
    (apart : threads.Pairwise w.Apart) (σ : Equiv.Perm (Fin threads.length)) :
    let order := List.ofFn fun j => threads.get (σ j)
    (∀ j : Fin threads.length,
      (w.stepAll disk order).2[j.val]?.map unnumbered =
        (w.stepAll disk threads).2[(σ j).val]?.map unnumbered) ∧
    (w.stepAll disk order).2.length = threads.length ∧
    ∀ n, (w.stepAll disk order).1.heap n = (w.stepAll disk threads).1.heap n := by
  intro order
  have perm : order.Perm threads := by
    have shuffled := σ.ofFn_comp_perm threads.get
    rwa [List.ofFn_get] at shuffled
  have sees (t : Thread) : t.Sees (w.heap t.heap) (w.heap t.heap) := ⟨fun _ _ => rfl, fun _ => rfl⟩
  have apart' : order.Pairwise w.Apart := (perm.pairwise_iff fun clash => symm clash).mpr apart
  -- either order is the same as stepping each thread alone from `w`
  obtain ⟨outcomes, heaps⟩ := stepAll_of_apart disk apart fun t _ => sees t
  obtain ⟨outcomes', heaps'⟩ := stepAll_of_apart disk apart' fun t _ => sees t
  refine ⟨fun j => ?_, ?_, fun n => ?_⟩
  · rw [← List.getElem?_map, ← List.getElem?_map, outcomes, outcomes', List.getElem?_map,
      List.getElem?_map]
    simp [order]
  · have lengths := congrArg List.length outcomes'
    simpa [perm.length_eq] using lengths
  · rw [heaps, heaps', changed_perm apart perm]

/-- A writer, a thread that copies a cell into a new one, a thread that reads through a null reference and a
thread that forks, on one heap. In every order the heap becomes the same, and the third fails. -/
theorem stepAll_order_irrelevant_shared_heap :
    let cells : Std.ExtTreeMap Nat Value compare := ∅
    let h : Heap := { cells := (cells.insert 1 (.int 5)).insert 2 (.int 6), next := 3 }
    let w := { ({} : World).setHeap 0 h with nextThread := 5 }
    let holding := fun a => (∅ : Symbols).insert "r" (.ref a .int)
    let threads := [Thread.start 1 0 (.write "r" (.int 7)) (holding 1),
      Thread.start 2 0 (.alloc "r" (.read (.var "r"))) (holding 2),
      Thread.start 3 0 (.print (.read (.var "r"))) (holding 0), Thread.start 4 0 (.fork .nop) ∅]
    (threads.map fun t => (t.reads h, t.writes h)) = [([1], [1]), ([2], [3]), ([0], []), ([], [])] ∧
    threads.Pairwise w.Apart ∧
    ∀ σ : Equiv.Perm (Fin threads.length),
      let order := w.stepAll (.blank []) (List.ofFn fun j => threads.get (σ j))
      order.1.heap 0 =
        { cells := ((cells.insert 1 (.int 7)).insert 2 (.int 6)).insert 3 (.int 6), next := 4 } ∧
      ∃ t, order.2[(σ.symm 2).val]?.map unnumbered = some (t, .error (.invalidAddress 0)) := by
  intro cells h w holding threads
  have apart : threads.Pairwise w.Apart := by decide +kernel
  refine ⟨by decide +kernel, apart, fun σ => ?_⟩
  obtain ⟨outcomes, -, heaps⟩ := stepAll_order_irrelevant (.blank []) w threads apart σ
  constructor
  · rw [heaps 0]
    decide +kernel
  · rw [outcomes (σ.symm 2), σ.apply_symm_apply]
    exact ⟨_, rfl⟩

end World

end Lockstep
