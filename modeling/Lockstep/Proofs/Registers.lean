import Lockstep.Proofs.Commute
import Lockstep.Proofs.Turns

/-!
Cells are registers that all threads on a heap share.

The past of a heap is the list of the changes that threads have made to it, in the order in which they have
acted. A live cell holds what the last change of it has stored there, and the addresses that allocations have
handed out are consecutive numbers, whatever has been collected in between. No operation of a thread takes a
cell away, and a collection never makes one or changes its value.
-/

namespace Lockstep

/-! ### What a step stores -/

namespace Thread

variable (ν : Valuation) (disk : Disk) (h : Heap) (t : Thread)

/-- The step of the thread is an allocation that succeeds: it lets a variable refer to the address `a`, for
a cell with the value `v`. -/
def Allocates (a : Nat) (v : Value) : Prop :=
  ∃ x e rest, t.stack = .alloc x e :: rest ∧ (t.stepBy ν disk h).result = .ok none ∧ ν e = .ok v ∧
    (t.stepBy ν disk h).thread.symbols[x]? = some (.ref a v.ty)

/-- The step of the thread is a write that succeeds: a variable refers to the address `a`, and the value for
the cell is `v`. -/
def Overwrites (a : Nat) (v : Value) : Prop :=
  ∃ x e rest, t.stack = .write x e :: rest ∧ (t.stepBy ν disk h).result = .ok none ∧ ν e = .ok v ∧
    t.symbols[x]? = some (.ref a v.ty)

variable {ν disk h t} {s : Stmt} {rest : List Stmt} {σ : Store} {x : String} {e : Expr}

theorem running_of_ok {spawn : Option Spawn} (succeeded : (t.stepBy ν disk h).result = .ok spawn) :
    t.status = .running := by
  simp only [stepBy] at succeeded
  split at succeeded
  next running _ => exact running
  · cases succeeded

section Acts

variable (running : t.status = .running) (top : t.stack = s :: rest)
include running top

theorem stepBy_of_acts (acts : Acts ν disk (t.store h) s σ none) :
    (t.stepBy ν disk h).result = .ok none ∧ (t.stepBy ν disk h).thread.symbols = σ.symbols := by
  simp only [stepBy, running, top, acts.execBy_eq, Effect.after, resume]
  constructor
  · trivial
  · split <;> rfl

theorem stepBy_of_acts_error {err : Fault} (acts : Acts ν disk (t.store h) s σ (some err)) :
    (t.stepBy ν disk h).result = .error err := by
  simp only [stepBy, running, top, acts.execBy_eq, Effect.after]

theorem changeBy_of_running : t.changeBy h ν = s.changeBy ν (t.store h) := by
  simp only [changeBy, running, top]

end Acts

/-- What an elementary statement does if the step that executes it succeeds. -/
theorem exists_acts_of_ok (top : t.stack = s :: rest) (simple : s.elementary)
    (succeeded : (t.stepBy ν disk h).result = .ok none) :
    ∃ σ, Acts ν disk (t.store h) s σ none ∧ t.changeBy h ν = s.changeBy ν (t.store h) ∧
      (t.stepBy ν disk h).thread.symbols = σ.symbols := by
  have running := running_of_ok succeeded
  obtain ⟨σ, o, acts, -⟩ := s.execBy_acts ν disk (t.store h) simple
  cases o with
  | none => exact ⟨σ, acts, changeBy_of_running running top, (stepBy_of_acts running top acts).2⟩
  | some err =>
    rw [stepBy_of_acts_error running top acts] at succeeded
    cases succeeded

theorem change_of_alloc (top : t.stack = .alloc x e :: rest)
    (succeeded : (t.stepBy ν disk h).result = .ok none) :
    ∃ v, ν e = .ok v ∧ t.changeBy h ν = .fresh h.next v ∧
      (t.stepBy ν disk h).thread.symbols[x]? = some (.ref h.next v.ty) := by
  obtain ⟨σ, acts, change, symbols⟩ := exists_acts_of_ok top rfl succeeded
  cases acts with
  | @alloc _ _ a v bound value =>
    refine ⟨v, value, ?_, ?_⟩
    · rw [change, Stmt.changeBy_alloc bound, Valuation.fitting_of_ty value]
      rfl
    · rw [symbols, Std.ExtTreeMap.getElem?_insert_self]
      rfl

theorem change_of_write (top : t.stack = .write x e :: rest)
    (succeeded : (t.stepBy ν disk h).result = .ok none) :
    ∃ a v, t.symbols[x]? = some (.ref a v.ty) ∧ ν e = .ok v ∧ a ∈ h.cells ∧
      t.changeBy h ν = .store a v := by
  obtain ⟨σ, acts, change, -⟩ := exists_acts_of_ok top rfl succeeded
  cases acts with
  | @write _ _ a v bound live value =>
    refine ⟨a, v, bound, value, live, ?_⟩
    rw [change, Stmt.changeBy_write bound live, Valuation.fitting_of_ty value]

/-- Only an allocation or a write that succeeds changes the heap. -/
theorem ok_of_change (disk : Disk) (changes : t.changeBy h ν ≠ .keep) :
    (t.stepBy ν disk h).result = .ok none ∧
      ∃ x e rest, t.stack = .alloc x e :: rest ∨ t.stack = .write x e :: rest := by
  simp only [changeBy] at changes
  split at changes
  next s rest running top =>
    have succeeds (simple : s.elementary) : (t.stepBy ν disk h).result = .ok none := by
      obtain ⟨σ, o, acts, -⟩ := s.execBy_acts ν disk (t.store h) simple
      cases o with
      | none => exact (stepBy_of_acts running top acts).1
      | some err => exact absurd acts.changeBy_of_failure changes
    cases s with
    | alloc x e => exact ⟨succeeds rfl, x, e, rest, .inl top⟩
    | write x e => exact ⟨succeeds rfl, x, e, rest, .inr top⟩
    | _ => exact absurd rfl changes
  · exact absurd rfl changes

variable {a : Nat} {v : Value}

theorem change_eq_fresh_iff : t.changeBy h ν = .fresh a v ↔ t.Allocates ν disk h a v := by
  constructor
  · intro fresh
    obtain ⟨succeeded, x, e, rest, top | top⟩ := ok_of_change disk (by rw [fresh]; simp)
    · obtain ⟨v', value, change, symbols⟩ := change_of_alloc top succeeded
      obtain ⟨rfl, rfl⟩ : a = h.next ∧ v = v' := by simpa [change, eq_comm] using fresh
      exact ⟨x, e, rest, top, succeeded, value, symbols⟩
    · obtain ⟨_, _, -, -, -, change⟩ := change_of_write top succeeded
      rw [change] at fresh
      cases fresh
  · rintro ⟨x, e, rest, top, succeeded, value, bound⟩
    obtain ⟨v', value', change, symbols⟩ := change_of_alloc top succeeded
    obtain rfl : v = v' := by simpa [value] using value'
    rw [symbols] at bound
    rw [change]
    cases bound
    rfl

theorem change_eq_store_iff : t.changeBy h ν = .store a v ↔ t.Overwrites ν disk h a v := by
  constructor
  · intro stored
    obtain ⟨succeeded, x, e, rest, top | top⟩ := ok_of_change disk (by rw [stored]; simp)
    · obtain ⟨_, -, change, -⟩ := change_of_alloc top succeeded
      rw [change] at stored
      cases stored
    · obtain ⟨a', v', bound, value, -, change⟩ := change_of_write top succeeded
      obtain ⟨rfl, rfl⟩ : a = a' ∧ v = v' := by simpa [change, eq_comm] using stored
      exact ⟨x, e, rest, top, succeeded, value, bound⟩
  · rintro ⟨x, e, rest, top, succeeded, value, bound⟩
    obtain ⟨a', v', bound', value', -, change⟩ := change_of_write top succeeded
    obtain rfl : v = v' := by simpa [value] using value'
    rw [bound'] at bound
    rw [change]
    cases bound
    rfl

end Thread

/-- A change that can be made to a heap: a value is stored in a live cell, and a new cell has the next
address. -/
def Change.Fits (h : Heap) : Change → Prop
  | keep => True
  | store a _ => a ∈ h.cells
  | fresh a _ => a = h.next

theorem Thread.changeBy_fits (ν : Valuation) (t : Thread) (h : Heap) : (t.changeBy h ν).Fits h := by
  cases change : t.changeBy h ν with
  | keep => trivial
  | store a v =>
    have overwrites : t.Overwrites ν (.blank []) h a v := change_eq_store_iff.mp change
    obtain ⟨x, e, rest, top, succeeded, -⟩ := overwrites
    obtain ⟨a', v', -, -, live, same⟩ := change_of_write top succeeded
    rw [change] at same
    cases same
    exact live
  | fresh a v =>
    have allocates : t.Allocates ν (.blank []) h a v := change_eq_fresh_iff.mp change
    obtain ⟨x, e, rest, top, succeeded, -⟩ := allocates
    obtain ⟨v', -, same, -⟩ := change_of_alloc top succeeded
    rw [change] at same
    cases same
    rfl

/-! ### The past of a heap -/

namespace Change

/-- The address of a new cell. -/
def freshAddress? : Change → Option Nat
  | fresh a _ => some a
  | _ => none

/-- The addresses that allocations have handed out, in order. -/
def handedOut (past : List Change) : List Nat :=
  past.filterMap freshAddress?

/-- The address and the value that are stored. -/
def stored? : Change → Option (Nat × Value)
  | keep => none
  | store a v => some (a, v)
  | fresh a v => some (a, v)

/-- The last of some changes that concerns the cell at `a` has stored `v` there. -/
def LastStored (past : List Change) (a : Nat) (v : Value) : Prop :=
  ∃ before c after, past = before ++ c :: after ∧ c.stored? = some (a, v) ∧
    ∀ d ∈ after, d.address? ≠ some a

variable {c : Change} {h : Heap} {a : Nat}

theorem getElem?_apply :
    (c.apply h).cells[a]? =
      match c.stored? with
      | some (b, v) => if b = a then some v else h.cells[a]?
      | none => h.cells[a]? := by
  cases c <;> simp [apply, stored?, Std.ExtTreeMap.getElem?_insert]

theorem address?_eq : c.address? = c.stored?.map Prod.fst := by
  cases c <;> rfl

theorem handedOut_concat (past : List Change) (c : Change) :
    handedOut (past ++ [c]) = handedOut past ++ c.freshAddress?.toList := by
  cases address : c.freshAddress? <;> simp [handedOut, address]

/-- What is found in a cell that has just been changed is what has been stored. -/
theorem stored?_of_apply {v : Value} (c : Change) (here : c.address? = some a)
    (found : (c.apply h).cells[a]? = some v) : c.stored? = some (a, v) := by
  rw [address?_eq, Option.map_eq_some_iff] at here
  obtain ⟨⟨b, u⟩, stored, rfl⟩ := here
  rw [getElem?_apply, stored] at found
  simpa [stored] using found

theorem LastStored.last {past : List Change} {v : Value} (stored : c.stored? = some (a, v)) :
    LastStored (past ++ [c]) a v :=
  ⟨past, c, [], rfl, stored, by simp⟩

theorem LastStored.concat {past : List Change} {v : Value} (stored : LastStored past a v)
    (other : c.address? ≠ some a) : LastStored (past ++ [c]) a v := by
  obtain ⟨before, d, after, rfl, last, later⟩ := stored
  refine ⟨before, d, after ++ [c], by simp, last, ?_⟩
  simpa [or_imp, forall_and, other] using later

theorem Fits.freshAddress (fits : c.Fits h) :
    c.freshAddress?.toList = List.range' h.next c.freshAddress?.toList.length := by
  cases c with
  | fresh b v =>
    obtain rfl : b = h.next := fits
    rfl
  | _ => rfl

theorem Fits.next_apply (fits : c.Fits h) :
    (c.apply h).next = h.next + c.freshAddress?.toList.length := by
  cases c with
  | fresh b v =>
    obtain rfl : b = h.next := fits
    rfl
  | _ => rfl

theorem mem_apply (live : a ∈ h.cells) : a ∈ (c.apply h).cells := by
  cases c <;> simp [apply, live]

/-- A change that can be made to a heap makes no cell but a new one. -/
theorem Fits.fresh_of_mem (fits : c.Fits h) (live : a ∈ (c.apply h).cells) (missing : a ∉ h.cells) :
    ∃ v, c = .fresh a v := by
  cases c with
  | keep => exact absurd live missing
  | store b v =>
    have same : b = a := by simpa [apply, missing] using live
    exact absurd (same ▸ fits) missing
  | fresh b v =>
    have same : b = a := by simpa [apply, missing] using live
    exact ⟨v, by rw [same]⟩

end Change

/-- The heap `h` is what a heap that was `h₀` at first has become: the changes of it are `past`, and cells
may have been discarded in between. -/
structure Heap.Remembers (h₀ : Heap) (past : List Change) (h : Heap) : Prop where
  addresses : Change.handedOut past = List.range' h₀.next (Change.handedOut past).length
  next : h.next = h₀.next + (Change.handedOut past).length
  cells : ∀ (a : Nat) v, h.cells[a]? = some v → Change.LastStored past a v ∨
    h₀.cells[a]? = some v ∧ ∀ c ∈ past, c.address? ≠ some a

namespace Heap.Remembers

variable {h₀ h : Heap} {past : List Change}

theorem refl (h : Heap) : h.Remembers [] h where
  addresses := rfl
  next := rfl
  cells a v found := .inr ⟨found, by simp⟩

theorem of_sub (remembers : h₀.Remembers past h) {k : Heap} (next : k.next = h.next)
    (sub : ∀ (a : Nat) v, k.cells[a]? = some v → h.cells[a]? = some v) : h₀.Remembers past k where
  addresses := remembers.addresses
  next := next.trans remembers.next
  cells a v found := remembers.cells a v (sub a v found)

theorem apply (remembers : h₀.Remembers past h) {c : Change} (fits : c.Fits h) :
    h₀.Remembers (past ++ [c]) (c.apply h) where
  addresses := by
    -- a new address is the one behind those that were handed out before
    rw [Change.handedOut_concat, List.length_append, ← List.range'_append_1, ← remembers.addresses,
      ← remembers.next, ← fits.freshAddress]
  next := by
    rw [fits.next_apply, remembers.next, Change.handedOut_concat, List.length_append, Nat.add_assoc]
  cells := by
    intro a v found
    by_cases here : c.address? = some a
    · exact .inl (.last (c.stored?_of_apply here found))
    · rw [Change.getElem?_apply_of_ne here] at found
      rcases remembers.cells a v found with stored | ⟨first, none⟩
      · exact .inl (stored.concat here)
      · exact .inr ⟨first, by simpa [or_imp, forall_and, here] using none⟩

end Heap.Remembers

/-! ### Operations -/

/-- The change that the next operation of a thread makes to its heap, if it acts and its heap is the one with
the number `n`. -/
def Job.changeOn (n : Nat) (h : Heap) : Job → Option Change
  | reading t (.answer r) => if t.heap = n then some (t.changeBy h fun _ => r) else none
  | _ => none

namespace Phase

variable (disk : Disk) (n : Nat)

/-- The change that an operation of the thread at a place makes to the heap `n`, if it acts on it. -/
def changeAt (f : Phase) (place : Nat) : Option Change :=
  f.jobs[place]?.bind (Job.changeOn n (f.world.heap n))

/-- The changes that some operations make to the heap `n`, in order. -/
def changesOn (f : Phase) : List Nat → List Change
  | [] => []
  | place :: rest => (f.changeAt n place).toList ++ (f.turn disk place).changesOn rest

variable (f : Phase) (place a : Nat) (v : Value)

/-- The thread at a place acts on the heap `n` by allocating a cell. -/
def Allocates : Prop :=
  ∃ t r, f.jobs[place]? = some (.reading t (.answer r)) ∧ t.heap = n ∧
    t.Allocates (fun _ => r) disk (f.world.heap n) a v

/-- The thread at a place acts on the heap `n` by writing to a cell. -/
def Overwrites : Prop :=
  ∃ t r, f.jobs[place]? = some (.reading t (.answer r)) ∧ t.heap = n ∧
    t.Overwrites (fun _ => r) disk (f.world.heap n) a v

variable {disk n f place a v}

theorem changesOn_append (first second : List Nat) :
    f.changesOn disk n (first ++ second) =
      f.changesOn disk n first ++ (f.run disk first).changesOn disk n second := by
  induction first generalizing f with
  | nil => rfl
  | cons place rest ih => rw [List.cons_append, changesOn, changesOn, ih, run_cons, List.append_assoc]

theorem changesOn_singleton : f.changesOn disk n [place] = (f.changeAt n place).toList :=
  List.append_nil _

theorem changeAt_eq_some_iff {c : Change} :
    f.changeAt n place = some c ↔ ∃ t r, f.jobs[place]? = some (.reading t (.answer r)) ∧ t.heap = n ∧
      t.changeBy (f.world.heap n) (fun _ => r) = c := by
  rw [changeAt, Option.bind_eq_some_iff]
  constructor
  · rintro ⟨j, here, change⟩
    cases j with
    | ended outcome => cases change
    | reading t q =>
      cases q with
      | look b next => cases change
      | answer r =>
        obtain ⟨same, change⟩ := Option.ite_none_right_eq_some.mp change
        exact ⟨t, r, here, same, Option.some.inj change⟩
  · rintro ⟨t, r, here, same, rfl⟩
    exact ⟨_, here, if_pos same⟩

theorem changeAt_eq_fresh_iff :
    f.changeAt n place = some (.fresh a v) ↔ f.Allocates disk n place a v := by
  simp only [changeAt_eq_some_iff, Allocates, ← Thread.change_eq_fresh_iff]

theorem changeAt_eq_store_iff :
    f.changeAt n place = some (.store a v) ↔ f.Overwrites disk n place a v := by
  simp only [changeAt_eq_some_iff, Overwrites, ← Thread.change_eq_store_iff]

theorem changeAt_fits {c : Change} (change : f.changeAt n place = some c) : c.Fits (f.world.heap n) := by
  obtain ⟨t, r, -, -, rfl⟩ := changeAt_eq_some_iff.mp change
  exact t.changeBy_fits _ _

/-- An operation does to a heap what its change says, and nothing if it has none. -/
theorem heap_turn (disk : Disk) :
    (f.turn disk place).world.heap n =
      ((f.changeAt n place).getD .keep).apply (f.world.heap n) := by
  obtain ⟨w, jobs⟩ := f
  cases here : jobs[place]? with
  | none =>
    rw [turn_of_none disk here, changeAt, here]
    rfl
  | some j =>
    rw [turn_of_some disk here, changeAt, here]
    cases j with
    | ended outcome => rfl
    | reading t q =>
      cases q with
      | look b next => rfl
      | answer r =>
        simp only [World.act, World.heap_stepBy, t.heap_stepBy, Option.bind_some, Job.changeOn]
        split
        next same => rw [same]; rfl
        · rfl

theorem remembers_run {h₀ : Heap} {past : List Change} (operations : List Nat)
    (remembers : h₀.Remembers past (f.world.heap n)) :
    h₀.Remembers (past ++ f.changesOn disk n operations) ((f.run disk operations).world.heap n) := by
  induction operations generalizing f past with
  | nil => simpa [changesOn, run] using remembers
  | cons place rest ih =>
    rw [changesOn, ← List.append_assoc, run_cons]
    apply ih
    rw [heap_turn]
    cases change : f.changeAt n place with
    | none => simpa [Change.apply] using remembers
    | some c => exact remembers.apply (changeAt_fits change)

/-- An operation takes no cell away, and makes one only if it is an allocation. -/
theorem cells_turn (disk : Disk) :
    (a ∈ (f.world.heap n).cells → a ∈ ((f.turn disk place).world.heap n).cells) ∧
    (a ∈ ((f.turn disk place).world.heap n).cells → a ∉ (f.world.heap n).cells →
      ∃ v, f.Allocates disk n place a v) := by
  rw [heap_turn]
  refine ⟨Change.mem_apply, fun live missing => ?_⟩
  cases change : f.changeAt n place with
  | none =>
    rw [change] at live
    exact absurd live missing
  | some c =>
    rw [change] at live
    obtain ⟨v, rfl⟩ := (changeAt_fits change).fresh_of_mem live missing
    exact ⟨v, changeAt_eq_fresh_iff.mp change⟩

/-- A cell that is live after some operations was so before them, or one of them has allocated it. -/
theorem live_run {operations : List Nat} (live : a ∈ ((f.run disk operations).world.heap n).cells) :
    a ∈ (f.world.heap n).cells ∨ ∃ before place after v, operations = before ++ place :: after ∧
      (f.run disk before).Allocates disk n place a v := by
  induction operations generalizing f with
  | nil => exact .inl live
  | cons place rest ih =>
    rcases ih live with old | ⟨before, next, after, v, rfl, allocates⟩
    · by_cases there : a ∈ (f.world.heap n).cells
      · exact .inl there
      · obtain ⟨v, allocates⟩ := (cells_turn disk).2 old there
        exact .inr ⟨[], place, rest, v, rfl, allocates⟩
    · exact .inr ⟨place :: before, next, after, v, rfl, allocates⟩

/-- A heap that no thread works on is left alone. -/
theorem heap_run_of_unused (disk : Disk) (unused : n ∉ f.jobs.map (·.thread.heap)) (operations : List Nat) :
    (f.run disk operations).world.heap n = f.world.heap n := by
  let Elsewhere (g : Phase) : Prop :=
    g.jobs.map (·.thread.heap) = f.jobs.map (·.thread.heap) ∧ g.world.heap n = f.world.heap n
  have kept (g : Phase) (place : Nat) (same : Elsewhere g) : Elsewhere (g.turn disk place) := by
    obtain ⟨heaps, still⟩ := same
    rcases g.turn_cases disk place with rest | ⟨front, t, b, next, back, split, -, looked⟩ |
      ⟨front, t, r, back, split, -, acted⟩
    · rw [rest]
      exact ⟨heaps, still⟩
    · rw [looked]
      exact ⟨by simpa [split, Job.thread] using heaps, still⟩
    · have other : t.heap ≠ n := by
        rintro rfl
        rw [← heaps, split] at unused
        simp [Job.thread] at unused
      rw [acted]
      refine ⟨?_, by rw [World.heap_stepBy, if_neg other]; exact still⟩
      have same : ((g.world.stepBy (fun _ => r) disk t).2.1).heap = t.heap := by
        rw [World.stepBy_snd, Thread.heap_thread_stepBy]
      simpa [split, Job.thread, same] using heaps
  exact (run_invariant kept ⟨rfl, rfl⟩ operations).2

end Phase

namespace World

variable (n : Nat) (w : World)

theorem remembers_sweep {h₀ : Heap} {past : List Change} (threads : List Thread)
    (remembers : h₀.Remembers past (w.heap n)) :
    h₀.Remembers past ((w.sweep threads).heap n) :=
  remembers.of_sub (w.next_collect threads n) (w.cells_sweep_sub threads n)

end World

/-! ### Runs -/

namespace Scheduler

variable (course : Nat → Course) (s : Scheduler)

/-- The threads that are stepped in the round that follows `k` others. -/
def participants (k : Nat) : List Thread :=
  (s.after course k).pool.retire.active

/-- The round that follows `k` others, after its collection and some operations. -/
def during (k : Nat) (operations : List Nat) : Phase :=
  (s.after course k).pool.during World.sweep (s.diskAt course k) operations

/-- All operations of the round that follows `k` others: those that its course tells, and what is left
then. -/
def operations (k : Nat) : List Nat :=
  (course k).order ++ (s.during course k (course k).order).leftover (s.diskAt course k)

/-- The changes of the heap `n` by some operations of the round that follows `k` others. -/
def changesAt (n k : Nat) (operations : List Nat) : List Change :=
  (s.during course k []).changesOn (s.diskAt course k) n operations

/-- All changes of the heap `n` up to some operations of the round that follows `k` others. -/
def past (n k : Nat) (operations : List Nat) : List Change :=
  (List.range k).flatMap (fun i => s.changesAt course n i (s.operations course i)) ++
    s.changesAt course n k operations

variable {course s}

theorem during_append (k : Nat) (first second : List Nat) :
    s.during course k (first ++ second) = (s.during course k first).run (s.diskAt course k) second :=
  Phase.run_append _ _ _ _

theorem during_concat (k : Nat) (operations : List Nat) (place : Nat) :
    s.during course k (operations ++ [place]) =
      (s.during course k operations).turn (s.diskAt course k) place :=
  during_append k operations [place]

theorem world_after_succ (k : Nat) :
    (s.after course (k + 1)).pool.world = (s.during course k (s.operations course k)).world := by
  rw [pool_after_succ, Pool.world_advance, operations, during_append, Phase.run_leftover]
  rfl

theorem past_succ (n k : Nat) :
    s.past course n (k + 1) [] = s.past course n k (s.operations course k) := by
  rw [past, List.range_succ, List.flatMap_append, List.flatMap_singleton]
  exact List.append_nil _

theorem past_concat (n k : Nat) (operations : List Nat) (place : Nat) :
    s.past course n k (operations ++ [place]) =
      s.past course n k operations ++ ((s.during course k operations).changeAt n place).toList := by
  rw [past, past, changesAt, changesAt, Phase.changesOn_append, Phase.changesOn_singleton,
    ← List.append_assoc]
  rfl

theorem remembers_during (n k : Nat) (operations : List Nat) :
    (s.pool.world.heap n).Remembers (s.past course n k operations)
      ((s.during course k operations).world.heap n) := by
  induction k generalizing operations with
  | zero =>
    have first := World.remembers_sweep n _ (s.participants course 0) (.refl (s.pool.world.heap n))
    exact Phase.remembers_run (f := s.during course 0 []) operations first
  | succ k ih =>
    have before := ih (s.operations course k)
    rw [← world_after_succ, ← past_succ] at before
    have opened := World.remembers_sweep n _ (s.participants course (k + 1)) before
    rw [past, changesAt, Phase.changesOn, List.append_nil] at opened
    exact Phase.remembers_run (f := s.during course (k + 1) []) operations opened

theorem cells_during_nil (n k a : Nat) (v : Value)
    (found : ((s.during course k []).world.heap n).cells[a]? = some v) :
    ((s.after course k).pool.world.heap n).cells[a]? = some v :=
  World.cells_sweep_sub _ (s.participants course k) n a v found

theorem heaps_during_nil (k : Nat) :
    (s.during course k []).jobs.map (·.thread.heap) = (s.participants course k).map Thread.heap := by
  change List.map _ (List.map _ (s.participants course k)) = _
  rw [List.map_map]
  rfl

/-- At the end of a round, the cells of a heap that took part are those that could be reached at its start
and those that have been allocated in it. Any other heap has been left alone. -/
theorem live_after_succ (n k : Nat) :
    (n ∈ (s.participants course k).map Thread.heap →
      ∀ a ∈ ((s.after course (k + 1)).pool.world.heap n).cells,
        ((s.after course k).pool.world.heap n).Reach (HeldOn (s.participants course k) n) a ∨
          ∃ before place after v, s.operations course k = before ++ place :: after ∧
            (s.during course k before).Allocates (s.diskAt course k) n place a v) ∧
    (n ∉ (s.participants course k).map Thread.heap →
      (s.after course (k + 1)).pool.world.heap n = (s.after course k).pool.world.heap n) := by
  rw [world_after_succ]
  constructor
  · intro used a live
    rcases Phase.live_run (f := s.during course k []) live with kept | allocated
    · obtain ⟨v, found⟩ := Option.isSome_iff_exists.mp (Std.ExtTreeMap.mem_iff_isSome_getElem?.mp kept)
      exact .inl ((World.cells_collect _ used a v).mp found).2
    · exact .inr allocated
  · intro unused
    -- neither the collection nor an operation of the round comes to this heap
    have still := Phase.heap_run_of_unused (f := s.during course k []) (s.diskAt course k)
      (by rwa [heaps_during_nil]) (s.operations course k)
    exact still.trans ((World.heap_collect _ _ n).trans (if_neg unused))

variable (course s) in
/-- Cells are registers. In every run and for each heap, after any operations of a round in any order:
* the addresses that allocations have handed out are consecutive, from one on if the heap was empty at first;
* a live cell holds what the last allocation or write of it has stored, unless it was there at first and has
  not been written;
* the next operation of any thread adds to the past of the heap just what it does, takes no cell away, and
  makes one only by allocating it;
* a collection makes no cell and changes none, a round consists of the operations that its course tells and
  those that are left then, and nothing happens to the heaps between rounds;
* at the end of the round, each live cell of a heap that took part was reachable at its start for a thread
  that took part, or has been allocated in it; a heap that took no part is left as it was. -/
theorem cells_are_registers (n k : Nat) (operations : List Nat) :
    let first := s.pool.world.heap n
    let past := s.past course n k operations
    let now := s.during course k operations
    let threads := s.participants course k
    let disk := s.diskAt course k
    (Change.handedOut past = List.range' first.next (Change.handedOut past).length ∧
      (Change.handedOut past).Nodup ∧
      (first = {} → Change.handedOut past = List.range' 1 (Change.handedOut past).length)) ∧
    (∀ (a : Nat) v, (now.world.heap n).cells[a]? = some v → Change.LastStored past a v ∨
      first.cells[a]? = some v ∧ ∀ c ∈ past, c.address? ≠ some a) ∧
    (∀ place, let next := s.during course k (operations ++ [place])
      s.past course n k (operations ++ [place]) = past ++ (now.changeAt n place).toList ∧
      (∀ a v, now.changeAt n place = some (.fresh a v) ↔ now.Allocates disk n place a v) ∧
      (∀ a v, now.changeAt n place = some (.store a v) ↔ now.Overwrites disk n place a v) ∧
      (∀ a ∈ (now.world.heap n).cells, a ∈ (next.world.heap n).cells) ∧
      ∀ a ∈ (next.world.heap n).cells, a ∉ (now.world.heap n).cells →
        ∃ v, now.Allocates disk n place a v) ∧
    (∀ (a : Nat) v, ((s.during course k []).world.heap n).cells[a]? = some v →
      ((s.after course k).pool.world.heap n).cells[a]? = some v) ∧
    ((course k).order <+: s.operations course k ∧
      (s.after course (k + 1)).pool.world = (s.during course k (s.operations course k)).world ∧
      s.past course n (k + 1) [] = s.past course n k (s.operations course k)) ∧
    (n ∈ threads.map Thread.heap → ∀ a ∈ ((s.after course (k + 1)).pool.world.heap n).cells,
      ((s.after course k).pool.world.heap n).Reach (HeldOn threads n) a ∨
        ∃ before place after v, s.operations course k = before ++ place :: after ∧
          (s.during course k before).Allocates disk n place a v) ∧
    (n ∉ threads.map Thread.heap →
      (s.after course (k + 1)).pool.world.heap n = (s.after course k).pool.world.heap n) := by
  intro first past now threads disk
  have remembers : first.Remembers past (now.world.heap n) := remembers_during n k operations
  refine ⟨⟨remembers.addresses, ?_, ?_⟩, remembers.cells, fun place => ?_, cells_during_nil n k,
    ⟨List.prefix_append _ _, world_after_succ k, past_succ n k⟩, live_after_succ n k⟩
  · rw [remembers.addresses]
    exact List.nodup_range'
  · intro empty
    have start : first.next = 1 := by rw [empty]
    have addresses : Change.handedOut past = List.range' first.next _ := remembers.addresses
    rwa [start] at addresses
  · rw [during_concat]
    exact ⟨past_concat n k operations place, fun a v => Phase.changeAt_eq_fresh_iff,
      fun a v => Phase.changeAt_eq_store_iff, fun a => (Phase.cells_turn disk).1,
      fun a => (Phase.cells_turn disk).2⟩

/-- A thread allocates a cell, starts another, which writes to the cell, and then lets its variable refer to a
second cell and to a third. In the seventh round the write comes before the operation of the first thread,
although the second one stands behind it. The ninth round collects the first cell before the third is
allocated, and the address of the third is a new one. -/
theorem cells_are_registers_across_collection :
    let P := Stmt.ofList [.declare "x" (.ref .int), .alloc "x" (.int 5), .fork (.write "x" (.int 6)),
      .alloc "x" (.int 7), .alloc "x" (.int 8)]
    let s := ofProgram (.blank []) {} P
    let course := fun _ => Course.smooth ⟨2024, 1, 1, 0, 0, 0⟩ [1, 1]
    s.operations course 6 = [1, 1, 0] ∧
    Change.LastStored (s.past course 0 6 [1, 1]) 1 (.int 6) ∧
    ((s.after course 8).pool.world.heap 0).cells[1]? = some (.int 6) ∧
    ((s.after course 9).pool.world.heap 0).cells[1]? = none ∧
    Change.handedOut (s.past course 0 9 []) = [1, 2, 3] ∧
    (∃ v, (s.during course 8 [1, 1]).Allocates (s.diskAt course 8) 0 0 3 v) ∧
    ((s.after course 8).pool.world.heap 0).Reach (HeldOn (s.participants course 8) 0) 2 := by
  intro P s course
  have empty : s.pool.world.heap 0 = {} := by decide +kernel
  obtain ⟨-, written, -⟩ := s.cells_are_registers course 0 6 [1, 1]
  obtain ⟨⟨-, -, addresses⟩, -⟩ := s.cells_are_registers course 0 9 []
  obtain ⟨-, -, step, -, -, left, -⟩ := s.cells_are_registers course 0 8 [1, 1]
  obtain ⟨-, -, -, -, allocated⟩ := step 0
  have third : ∃ v, (s.during course 8 [1, 1]).Allocates (s.diskAt course 8) 0 0 3 v :=
    allocated 3 (by decide +kernel) (by decide +kernel)
  refine ⟨by decide +kernel, ?_, by decide +kernel, by decide +kernel, ?_, third, ?_⟩
  · rcases written 1 (.int 6) (by decide +kernel) with stored | ⟨there, -⟩
    · exact stored
    · rw [empty] at there
      simp at there
  · rw [addresses empty]
    decide +kernel
  · rcases left (by decide +kernel) 2 (by decide +kernel) with reach | ⟨before, place, after, v, split, new⟩
    · exact reach
    · -- the address of a cell that is allocated in the round would be a new one
      have change := Phase.changeAt_eq_fresh_iff.mpr new
      have fits : 2 = ((s.during course 8 before).world.heap 0).next := Phase.changeAt_fits change
      have remembers : (s.pool.world.heap 0).Remembers (s.past course 0 8 before)
          ((s.during course 8 before).world.heap 0) := remembers_during 0 8 before
      have next := remembers.next
      have count : (Change.handedOut (s.past course 0 8 [])).length = 2 := by decide +kernel
      rw [past, changesAt] at next count
      simp only [Change.handedOut, Phase.changesOn, List.append_nil, List.filterMap_append,
        List.length_append, empty] at next count
      omega

/-- A heap is not collected when all its threads have ended. In the fourth round only the second thread is
active, which has a heap of its own; the cell of the first is still there afterwards, although no active
thread can reach it and nobody has allocated it in that round. -/
theorem deserted_cell_stays :
    let first := ({} : World).launch (.seq (.declare "x" (.ref .int)) (.alloc "x" (.int 5)))
    let second := first.1.launch (Stmt.ofList [.nop, .nop, .nop])
    let s : Scheduler :=
      { pool := { world := second.1, active := [first.2, second.2] }, disk := .blank [] }
    let course := fun _ => Course.smooth ⟨2024, 1, 1, 0, 0, 0⟩
    ((s.after course 4).pool.world.heap 0).cells[1]? = some (.int 5) ∧
    ¬((s.after course 3).pool.world.heap 0).Reach (HeldOn (s.participants course 3) 0) 1 ∧
    ¬∃ before place after v, s.operations course 3 = before ++ place :: after ∧
      (s.during course 3 before).Allocates (s.diskAt course 3) 0 place 1 v := by
  intro first second s course
  have elsewhere : (s.participants course 3).map Thread.heap = [1] := by decide +kernel
  have other (t : Thread) (member : t ∈ s.participants course 3) : t.heap ≠ 0 := by
    have among := List.mem_map_of_mem (f := Thread.heap) member
    rw [elsewhere, List.mem_singleton] at among
    omega
  refine ⟨by decide +kernel, fun reach => ?_, ?_⟩
  · generalize 1 = a at reach
    induction reach with
    | root held =>
      obtain ⟨t, member, here, -⟩ := held
      exact other t member here
    | step _ _ ih => exact ih
  · rintro ⟨before, place, after, v, split, new⟩
    -- the cell was there before the round, so it is not a new one
    have change := Phase.changeAt_eq_fresh_iff.mpr new
    have fits : 1 = ((s.during course 3 before).world.heap 0).next := Phase.changeAt_fits change
    have still := Phase.heap_run_of_unused (f := s.during course 3 []) (n := 0) (s.diskAt course 3)
      (by rw [heaps_during_nil, elsewhere]; decide) before
    have same : (s.during course 3 before).world.heap 0 = (s.during course 3 []).world.heap 0 := still
    rw [same] at fits
    exact absurd fits (by decide +kernel)

end Scheduler

end Lockstep
