import Lockstep.Proofs.Action
import Lockstep.Proofs.Collection
import Lockstep.Proofs.Interleaving

/-!
The turns of a round: which threads are stepped in it, and what becomes of them.

A round gives every active thread one turn, all of them at the same time. The list after the round is made of
the threads that had a turn, as they stand after it, and of the threads that these turns started; those of
them that have ended are retired. The new threads are numbered in the order in which they are started, which
need not be that of the list. What a run does is laid down here round by round, so that statements about whole
runs can speak of single steps.
-/

namespace Lockstep

/-! ### One step -/

/-- Only a fork asks for a thread; it has the variables as they stand. -/
theorem Stmt.spawn_execBy {ν : Valuation} {disk : Disk} {σ σ' : Store} {s : Stmt} {effect : Effect}
    {c : Spawn} (executed : s.execBy ν disk σ = (σ', .ok effect)) (spawned : effect.spawn = some c) :
    s = .fork c.body ∧ c.symbols = σ.symbols := by
  by_cases simple : s.elementary
  · -- an elementary statement leaves nothing to be started
    obtain ⟨σ₁, o, -, acted⟩ := s.execBy_acts ν disk σ simple
    rw [executed] at acted
    cases o with
    | none =>
      simp only [Effect.after, Prod.mk.injEq, Except.ok.injEq] at acted
      simp [acted.2] at spawned
    | some e => simp [Effect.after] at acted
  · cases s with
    | seq a b =>
      simp only [execBy, Prod.mk.injEq, Except.ok.injEq] at executed
      simp [← executed.2] at spawned
    | ite g a b =>
      cases guard : ν.guard "if" g with
      | error e => simp [execBy, guard, Except.map] at executed
      | ok b =>
        simp only [execBy, guard, Except.map, Prod.mk.injEq, Except.ok.injEq] at executed
        simp [← executed.2] at spawned
    | loop g b =>
      cases guard : ν.guard "while" g with
      | error e => simp [execBy, guard, Except.map] at executed
      | ok b =>
        simp only [execBy, guard, Except.map, Prod.mk.injEq, Except.ok.injEq] at executed
        simp [← executed.2] at spawned
    | fork b =>
      simp only [execBy, Prod.mk.injEq, Except.ok.injEq] at executed
      simp only [← executed.2, Option.some.injEq] at spawned
      subst spawned
      exact ⟨rfl, rfl⟩
    | _ => simp [elementary] at simple

namespace Thread

variable (ν : Valuation) (disk : Disk) (h : Heap) (t : Thread)

@[simp] theorem id_stepBy : (t.stepBy ν disk h).thread.id = t.id := by
  simp only [stepBy]
  split
  · split
    · rfl
    · dsimp only
      split <;> rfl
  · rfl

@[simp] theorem heap_thread_stepBy : (t.stepBy ν disk h).thread.heap = t.heap := by
  simp only [stepBy]
  split
  · split
    · rfl
    · dsimp only
      split <;> rfl
  · rfl

theorem isActive_start (id heap : Nat) (program : Stmt) (symbols : Symbols) :
    (start id heap program symbols).isActive := rfl

variable {ν disk h t}

theorem status_and_stack_of_isActive (active : t.isActive) : t.status = .running ∧ t.stack ≠ [] := by
  simpa [isActive] using active

/-- After a step that succeeds, a thread goes on or has completed. -/
theorem stepBy_ok_status {spawn : Option Spawn} (stepped : (t.stepBy ν disk h).result = .ok spawn) :
    (t.stepBy ν disk h).thread.isActive ∨
      (t.stepBy ν disk h).thread.status = .completed ∧ (t.stepBy ν disk h).thread.stack = [] := by
  simp only [stepBy] at stepped ⊢
  split at stepped
  next s rest running top =>
    rcases executed : s.execBy ν disk (t.store h) with ⟨σ, e | effect⟩
    · simp [executed] at stepped
    · -- the thread completes if nothing is left on its stack
      cases left : effect.push ++ rest with
      | nil => right; simp [resume, left]
      | cons s' rest' => left; simp [resume, left, isActive, running]
  · simp at stepped

theorem stepBy_spawn {c : Spawn} (stepped : (t.stepBy ν disk h).result = .ok (some c)) :
    (∃ rest, t.stack = .fork c.body :: rest) ∧ c.symbols = t.symbols := by
  simp only [stepBy] at stepped
  split at stepped
  next s rest running top =>
    rcases executed : s.execBy ν disk (t.store h) with ⟨σ, e | effect⟩
    · simp [executed] at stepped
    · simp only [executed, Except.ok.injEq] at stepped
      obtain ⟨rfl, symbols⟩ := Stmt.spawn_execBy executed stepped
      exact ⟨⟨rest, top⟩, symbols⟩
  · simp at stepped

end Thread

/-! ### Turns -/

/-- A turn of a thread: the thread as it stood before its step, and what the step came to. -/
structure Turn where
  thread : Thread
  outcome : Thread × Except Fault (Option Thread)

namespace Turn

/-- The thread at the end of its turn, ended with the failure if the step failed. -/
def settled (u : Turn) : Thread :=
  Pool.settle u.outcome

/-- The thread that the step started. -/
def child? (u : Turn) : Option Thread :=
  Pool.child? u.outcome

/-- Whether the step succeeded. -/
def succeeded (u : Turn) : Bool :=
  u.outcome.2.isOk

/-- A turn that a thread can really have on a disk: its outcome is that of a step in some world, with
whatever the thread has found out about its expression. -/
def Proper (disk : Disk) (u : Turn) : Prop :=
  ∃ (w : World) (ν : Valuation), u.outcome = (w.stepBy ν disk u.thread).2

variable {disk : Disk} {u : Turn}

theorem Proper.id_settled (proper : u.Proper disk) : u.settled.id = u.thread.id := by
  obtain ⟨w, ν, outcome⟩ := proper
  have same : u.outcome.1.id = u.thread.id := by rw [outcome, World.stepBy_snd, Thread.id_stepBy]
  cases answer : u.outcome.2 with
  | ok child => simpa [settled, Pool.settle, answer] using same
  | error e => simpa [settled, Pool.settle, answer, Thread.fail] using same

theorem Proper.heap_outcome (proper : u.Proper disk) : u.outcome.1.heap = u.thread.heap := by
  obtain ⟨w, ν, outcome⟩ := proper
  rw [outcome, World.stepBy_snd, Thread.heap_thread_stepBy]

theorem Proper.heap_settled (proper : u.Proper disk) : u.settled.heap = u.thread.heap := by
  have same := proper.heap_outcome
  cases answer : u.outcome.2 with
  | ok child => simpa [settled, Pool.settle, answer] using same
  | error e => simpa [settled, Pool.settle, answer, Thread.fail] using same

/-- A thread ends its turn as its step left it, or with the failure of the step. -/
theorem Proper.settled_eq (proper : u.Proper disk) :
    (∃ ν h spawn, (u.thread.stepBy ν disk h).result = .ok spawn ∧ u.succeeded ∧
      u.settled = (u.thread.stepBy ν disk h).thread) ∨
    (∃ e, u.outcome.2 = .error e ∧ u.settled.status = .failed e) := by
  obtain ⟨w, ν, outcome⟩ := proper
  rw [World.stepBy_snd] at outcome
  cases answer : (u.thread.stepBy ν disk (w.heap u.thread.heap)).result with
  | error e =>
    have failed : u.outcome.2 = .error e := by rw [outcome, answer]; rfl
    exact .inr ⟨e, failed, by simp [settled, Pool.settle, failed, Thread.fail]⟩
  | ok spawn =>
    refine .inl ⟨ν, _, spawn, answer, ?_, ?_⟩
    · simp only [succeeded, outcome, answer, Except.map, Except.isOk, Except.toBool]
    · simp only [settled, outcome, answer, Pool.settle, Except.map]

theorem Proper.settled_cases (proper : u.Proper disk) :
    (u.succeeded ∧ u.settled.isActive) ∨
    (u.succeeded ∧ u.settled.status = .completed ∧ u.settled.stack = []) ∨
    (∃ e, u.outcome.2 = .error e ∧ u.settled.status = .failed e) := by
  rcases proper.settled_eq with ⟨ν, h, spawn, answer, fine, same⟩ | failed
  · rw [same]
    rcases Thread.stepBy_ok_status answer with active | completed
    · exact .inl ⟨fine, active⟩
    · exact .inr (.inl ⟨fine, completed⟩)
  · exact .inr (.inr failed)

/-- A thread that a turn starts is at its beginning: it is to run the body of the fork, with the variables
of its parent, on the heap of its parent. -/
theorem Proper.child (proper : u.Proper disk) {c : Thread} (started : u.child? = some c) :
    ∃ body rest, u.thread.stack = .fork body :: rest ∧
      c = Thread.start c.id u.thread.heap body u.thread.symbols := by
  obtain ⟨w, ν, outcome⟩ := proper
  rw [child?, outcome, World.stepBy_snd] at started
  cases answer : (u.thread.stepBy ν disk (w.heap u.thread.heap)).result with
  | error e => simp [answer, Except.map, Pool.child?] at started
  | ok spawn =>
    simp only [answer, Except.map, Pool.child?, Option.map_eq_some_iff] at started
    obtain ⟨spawn, rfl, rfl⟩ := started
    obtain ⟨⟨rest, top⟩, symbols⟩ := Thread.stepBy_spawn answer
    exact ⟨spawn.body, rest, top, by rw [symbols]; rfl⟩

theorem Proper.heap_child (proper : u.Proper disk) {c : Thread} (started : u.child? = some c) :
    c.heap = u.thread.heap := by
  obtain ⟨body, rest, -, same⟩ := proper.child started
  rw [same]
  rfl

theorem Proper.isActive_child (proper : u.Proper disk) {c : Thread} (started : u.child? = some c) :
    c.isActive := by
  obtain ⟨body, rest, -, same⟩ := proper.child started
  rw [same]
  exact Thread.isActive_start _ _ _ _

end Turn

/-- The thread is still at its step, or has ended it properly: whatever a thread has found out, its step is
one by the answer that it has come to. -/
inductive Job.Proper (disk : Disk) (t : Thread) : Job → Prop where
  | reading (q : Inquiry) : Proper disk t (.reading t q)
  | ended {outcome : Thread × Except Fault (Option Thread)} (proper : Turn.Proper disk ⟨t, outcome⟩) :
    Proper disk t (.ended outcome)

namespace World

variable (disk : Disk) (order : List Nat) (w : World)

/-- The turns of some threads that are stepped together. -/
def turns (threads : List Thread) : List Turn :=
  List.zipWith Turn.mk threads (w.stepTogether disk order threads).2

@[simp] theorem map_thread_turns (threads : List Thread) :
    (w.turns disk order threads).map Turn.thread = threads := by
  have count : threads.length ≤ (w.stepTogether disk order threads).2.length := by simp
  have first := List.map_fst_zip count
  rw [List.zip_eq_zipWith, List.map_zipWith] at first
  rwa [turns, List.map_zipWith]

@[simp] theorem map_outcome_turns (threads : List Thread) :
    (w.turns disk order threads).map Turn.outcome = (w.stepTogether disk order threads).2 := by
  have count : (w.stepTogether disk order threads).2.length ≤ threads.length := by simp
  have second := List.map_snd_zip count
  rw [List.zip_eq_zipWith, List.map_zipWith] at second
  rwa [turns, List.map_zipWith]

theorem act_proper (t : Thread) (j : Job) (proper : j.Proper disk t) : (w.act disk j).2.Proper disk t := by
  cases proper with
  | ended proper => exact .ended proper
  | reading q =>
    cases q with
    | look a next => exact .reading _
    | answer r => exact .ended ⟨w, fun _ => r, rfl⟩

theorem proper_of_mem_turns {threads : List Thread} {u : Turn}
    (member : u ∈ w.turns disk order threads) : u.Proper disk := by
  obtain ⟨i, found⟩ := List.mem_iff_getElem?.mp member
  rw [turns, List.getElem?_zipWith_eq_some] at found
  obtain ⟨t, r, here, outcome, rfl⟩ := found
  obtain ⟨t', here', ended⟩ :=
    stepTogether_each (fun t _ => .reading t.inquiry) (act_proper disk) order outcome
  rw [here, Option.some.injEq] at here'
  subst here'
  cases ended with
  | ended proper => exact proper

theorem id_child {ν : Valuation} {t c : Thread} (started : Pool.child? (w.stepBy ν disk t).2 = some c) :
    c.id = w.nextThread := by
  rw [stepBy_snd] at started
  cases answer : (t.stepBy ν disk (w.heap t.heap)).result with
  | error e => simp [answer, Except.map, Pool.child?] at started
  | ok spawn =>
    simp only [answer, Except.map, Pool.child?, Option.map_eq_some_iff] at started
    obtain ⟨spawn, rfl, rfl⟩ := started
    rfl

/-- The threads that have been started so far take the numbers from the first one on, in some order. -/
def Numbers (first : Nat) (f : Phase) : Prop :=
  f.world.nextThread = first + (f.jobs.filterMap Job.child?).length ∧
    ((f.jobs.filterMap Job.child?).map Thread.id).Perm
      (List.range' first (f.jobs.filterMap Job.child?).length)

theorem Numbers.turn {disk : Disk} {first : Nat} {f : Phase} (numbers : Numbers first f) (place : Nat) :
    Numbers first (f.turn disk place) := by
  rcases f.turn_cases disk place with same | ⟨front, t, a, next, back, split, -, looked⟩ |
    ⟨front, t, r, back, split, -, acted⟩
  · rwa [same]
  · rw [Numbers, split] at numbers
    rw [looked]
    simpa only [Numbers, List.filterMap_append, List.filterMap_cons, Job.child?] using numbers
  · rw [Numbers, split, List.filterMap_append, List.filterMap_cons_none (by rfl)] at numbers
    rw [acted, Numbers, List.filterMap_append]
    generalize outcome : f.world.stepBy (fun _ => r) disk t = after at *
    have next : after.1.nextThread = f.world.nextThread + (Pool.child? after.2).toList.length := by
      rw [← outcome, nextThread_stepBy]
    cases started : (Job.ended after.2).child? with
    | none =>
      have nobody : Pool.child? after.2 = none := started
      rw [List.filterMap_cons_none started, next, nobody]
      exact numbers
    | some c =>
      -- the new thread takes the next number, wherever it comes to stand
      have child : Pool.child? after.2 = some c := started
      have number : c.id = f.world.nextThread := id_child disk f.world (by rw [outcome, child])
      obtain ⟨count, perm⟩ := numbers
      rw [List.filterMap_cons_some started, next, child, count]
      simp only [List.length_append, List.length_cons, Option.toList_some, List.length_nil] at count perm ⊢
      refine ⟨by omega, ?_⟩
      rw [← Nat.add_assoc, List.range'_1_concat, ← count, ← number, List.map_append, List.map_cons]
      refine List.perm_middle.trans ((List.perm_append_singleton _ _).symm.trans ?_)
      rw [← List.map_append]
      exact perm.append_right [c.id]

theorem numbers_stepTogether (threads : List Thread) :
    Numbers w.nextThread (.ended (w.stepTogether disk order threads)) := by
  refine stepTogether_invariant (P := Numbers w.nextThread) (fun f place => (·.turn place)) order ?_
  have nobody : (Phase.start w threads).jobs.filterMap Job.child? = [] := by
    rw [Phase.start, List.filterMap_map, List.filterMap_eq_nil_iff]
    exact fun t _ => rfl
  rw [Numbers, nobody]
  exact ⟨rfl, .refl _⟩

theorem filterMap_child?_turns (threads : List Thread) :
    (w.turns disk order threads).filterMap Turn.child? =
      (Phase.ended (w.stepTogether disk order threads)).jobs.filterMap Job.child? := by
  rw [Phase.ended, List.filterMap_map, ← map_outcome_turns, List.filterMap_map]
  rfl

theorem nextThread_stepTogether (threads : List Thread) :
    (w.stepTogether disk order threads).1.nextThread =
      w.nextThread + ((w.turns disk order threads).filterMap Turn.child?).length := by
  rw [filterMap_child?_turns]
  exact (w.numbers_stepTogether disk order threads).1

/-- New threads take the next numbers. Which of them takes which depends on the order of the steps. -/
theorem ids_children (threads : List Thread) :
    (((w.turns disk order threads).filterMap Turn.child?).map Thread.id).Perm
      (List.range' w.nextThread ((w.turns disk order threads).filterMap Turn.child?).length) := by
  rw [filterMap_child?_turns]
  exact (w.numbers_stepTogether disk order threads).2

end World

/-! ### Rounds -/

namespace Pool

variable (sweep : World → List Thread → World) (disk : Disk) (order : List Nat) (p : Pool)

/-- The turns of a round. -/
def turns : List Turn :=
  (sweep p.world p.retire.active).turns disk order p.retire.active

/-- The threads that a round starts. -/
def children : List Thread :=
  (p.turns sweep disk order).filterMap Turn.child?

/-- The threads that a round ends with, before those that have ended are retired. -/
def listed : List Thread :=
  (p.turns sweep disk order).map Turn.settled ++ p.children sweep disk order

theorem active_stepAll_openRound :
    ((p.retire.openRound sweep).stepAll disk order).1.active = p.listed sweep disk order := by
  simp only [stepAll, openRound, listed, children, turns, ← World.map_outcome_turns, List.map_map,
    List.filterMap_map]
  rfl

theorem listed_eq :
    p.listed sweep disk order =
      ((sweep p.world p.retire.active).stepTogether disk order p.retire.active).2.map settle ++
        ((sweep p.world p.retire.active).stepTogether disk order p.retire.active).2.filterMap child? := by
  rw [← active_stepAll_openRound]
  rfl

theorem turns_eq_nil_iff : p.turns sweep disk order = [] ↔ p.retire.active = [] := by
  rw [← List.map_eq_nil_iff (f := Turn.thread), turns, World.map_thread_turns]

variable {sweep disk order p} in
theorem listed_of_no_turns (none : p.turns sweep disk order = []) : p.listed sweep disk order = [] := by
  simp [listed, children, none]

theorem active_advance :
    (p.advance sweep disk order).1.active = (p.listed sweep disk order).filter (·.isActive) := by
  simp only [advance]
  split
  next idle =>
    have none := List.isEmpty_iff.mp idle
    rw [listed_of_no_turns ((p.turns_eq_nil_iff sweep disk order).mpr none), none]
    rfl
  · rw [← active_stepAll_openRound]
    rfl

theorem retired_advance :
    (p.advance sweep disk order).1.retired =
      p.retire.retired ++ (p.listed sweep disk order).filter (!·.isActive) := by
  simp only [advance]
  split
  next idle =>
    have none := (p.turns_eq_nil_iff sweep disk order).mpr (List.isEmpty_iff.mp idle)
    rw [listed_of_no_turns none, List.filter_nil, List.append_nil]
  · rw [← active_stepAll_openRound]
    rfl

theorem world_advance :
    (p.advance World.sweep disk order).1.world =
      ((p.world.sweep p.retire.active).stepTogether disk order p.retire.active).1 := by
  simp only [advance]
  split
  next idle =>
    rw [List.isEmpty_iff.mp idle, World.stepTogether_nobody]
    rfl
  · rfl

theorem round_advance :
    (p.advance sweep disk order).1.round = p.round + if p.turns sweep disk order = [] then 0 else 1 := by
  simp only [advance, List.isEmpty_iff, turns_eq_nil_iff]
  split <;> rfl

theorem nextThread_advance :
    (p.advance World.sweep disk order).1.world.nextThread =
      p.world.nextThread + (p.children World.sweep disk order).length := by
  simp only [advance]
  split
  next idle =>
    rw [children, turns, List.isEmpty_iff.mp idle]
    rfl
  · simp only [children, turns, ← World.nextThread_sweep p.world p.retire.active]
    exact World.nextThread_stepTogether disk order _ _

theorem ids_children :
    ((p.children World.sweep disk order).map Thread.id).Perm
      (List.range' p.world.nextThread (p.children World.sweep disk order).length) := by
  have numbers := World.ids_children disk order (p.world.sweep p.retire.active) p.retire.active
  rwa [World.nextThread_sweep] at numbers

end Pool

/-! ### Runs -/

namespace Scheduler

variable (course : Nat → Course) (s : Scheduler)

/-- A scheduler after `n` rounds. -/
def after (n : Nat) : Scheduler :=
  (s.roundsWith World.sweep course n).1

/-- The disk that threads read in the round that follows `k` others. -/
def diskAt (k : Nat) : Disk :=
  (s.after course k).roundDisk World.sweep (course k)

/-- The turns of the round that follows `k` others. -/
def turns (k : Nat) : List Turn :=
  (s.after course k).pool.turns World.sweep (s.diskAt course k) (course k).order

/-- The threads that are started in the round that follows `k` others. -/
def children (k : Nat) : List Thread :=
  (s.after course k).pool.children World.sweep (s.diskAt course k) (course k).order

/-- The threads that are retired in the round that follows `k` others. -/
def leavers (k : Nat) : List Thread :=
  (s.after course (k + 1)).pool.retired.drop (s.after course k).pool.retired.length

theorem after_zero : s.after course 0 = s := rfl

theorem after_succ (k : Nat) :
    s.after course (k + 1) = ((s.after course k).roundWith World.sweep (course k)).1 := rfl

theorem pool_fst_roundWith (sweep : World → List Thread → World) (c : Course) :
    (s.roundWith sweep c).1.pool = (s.pool.advance sweep (s.roundDisk sweep c) c.order).1 :=
  congrArg Prod.fst (pool_roundWith sweep c s)

theorem pool_after_succ (k : Nat) :
    (s.after course (k + 1)).pool =
      ((s.after course k).pool.advance World.sweep (s.diskAt course k) (course k).order).1 :=
  pool_fst_roundWith (s.after course k) World.sweep (course k)

theorem proper_of_mem_turns {k : Nat} {u : Turn} (member : u ∈ s.turns course k) :
    u.Proper (s.diskAt course k) :=
  World.proper_of_mem_turns _ _ _ member

/-- A scheduler that has not run yet: its threads have just been started, one after another, without
variables. -/
structure Fresh : Prop where
  started : ∀ t ∈ s.pool.active, t = Thread.start t.id t.heap t.program ∅
  ordered : (s.pool.active.map Thread.id).Pairwise (· < ·)
  numbered : ∀ t ∈ s.pool.active, t.id < s.pool.world.nextThread
  retired : s.pool.retired = []
  round : s.pool.round = 0

/-- A scheduler that has been given threads which have just been started, in any order. -/
structure Loaded : Prop where
  started : ∀ t ∈ s.pool.active, t = Thread.start t.id t.heap t.program ∅
  distinct : (s.pool.active.map Thread.id).Nodup
  numbered : ∀ t ∈ s.pool.active, t.id < s.pool.world.nextThread
  retired : s.pool.retired = []

variable {s} in
theorem Fresh.loaded (fresh : s.Fresh) : s.Loaded where
  started := fresh.started
  distinct := fresh.ordered.imp Nat.ne_of_lt
  numbered := fresh.numbered
  retired := fresh.retired

theorem fresh_empty (world : World) (disk : Disk) (journal : Journal) :
    Fresh { pool := { world }, disk, journal } where
  started _ member := absurd member List.not_mem_nil
  ordered := .nil
  numbered _ member := absurd member List.not_mem_nil
  retired := rfl
  round := rfl

variable {s} in
/-- A scheduler that has not run yet may be given one more thread, if that has been started after the
others. -/
theorem Fresh.add (fresh : s.Fresh) (t : Thread) (started : t = Thread.start t.id t.heap t.program ∅)
    (later : ∀ a ∈ s.pool.active, a.id < t.id) (numbered : t.id < s.pool.world.nextThread) :
    Fresh { s with pool := s.pool.add t } where
  started a member := by
    rcases List.mem_append.mp member with old | new
    · exact fresh.started a old
    · exact List.mem_singleton.mp new ▸ started
  ordered := by
    simp only [Pool.add, List.map_append, List.map_cons, List.map_nil]
    refine List.pairwise_append.mpr ⟨fresh.ordered, List.pairwise_singleton .., ?_⟩
    simpa using later
  numbered a member := by
    rcases List.mem_append.mp member with old | new
    · exact fresh.numbered a old
    · exact List.mem_singleton.mp new ▸ numbered
  retired := fresh.retired
  round := fresh.round

end Scheduler

end Lockstep
