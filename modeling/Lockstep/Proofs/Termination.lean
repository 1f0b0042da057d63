import Lockstep.Proofs.Fairness

/-!
Programs without loops end.

A statement without loops leaves less to be done than it was itself, for the thread that executes it and
for a thread that it starts. So the largest amount of work that any thread has on its stack gets smaller
with every round, and the size of a program bounds the rounds that it takes. The forks that all stacks hold
together get fewer by one with every fork that is executed.
-/

namespace Lockstep

/-! ### Statements without loops -/

namespace Stmt

def loopFree : Stmt → Bool
  | seq a b => a.loopFree && b.loopFree
  | ite _ a b => a.loopFree && b.loopFree
  | loop _ _ => false
  | fork b => b.loopFree
  | _ => true

/-- The most rounds that it takes to be done with a statement without loops, and with all threads that it
starts. -/
def size : Stmt → Nat
  | seq a b => 1 + a.size + b.size
  | ite _ a b => 1 + max a.size b.size
  | fork b => 1 + b.size
  | _ => 1

/-- The number of forks that are written down in a statement. -/
def forkCount : Stmt → Nat
  | seq a b => a.forkCount + b.forkCount
  | ite _ a b => a.forkCount + b.forkCount
  | loop _ b => b.forkCount
  | fork b => 1 + b.forkCount
  | _ => 0

theorem size_pos (s : Stmt) : 0 < s.size := by
  cases s <;> simp only [size] <;> omega

end Stmt

/-- What a statement leaves to be done has no loops and is less than the statement, for the thread that
goes on and for the one that is started; no fork is gained, and a fork that is executed is gone. -/
structure Effect.Below (s : Stmt) (effect : Effect) : Prop where
  push : ∀ p ∈ effect.push, p.loopFree
  spawn : ∀ c, effect.spawn = some c → c.body.loopFree ∧ c.body.size < s.size
  size : total (effect.push.map Stmt.size) < s.size
  forks : total (effect.push.map Stmt.forkCount) +
    total (effect.spawn.toList.map fun c => 1 + c.body.forkCount) ≤ s.forkCount

theorem Effect.below_nothing (s : Stmt) : Effect.Below s {} where
  push p member := absurd member List.not_mem_nil
  spawn c asked := by cases asked
  size := s.size_pos
  forks := Nat.zero_le _

theorem Stmt.execBy_below {ν : Valuation} {disk : Disk} {σ σ' : Store} {s : Stmt} {effect : Effect}
    (free : s.loopFree) (executed : s.execBy ν disk σ = (σ', .ok effect)) : effect.Below s := by
  by_cases simple : s.elementary
  · obtain ⟨σ₁, o, -, acted⟩ := s.execBy_acts ν disk σ simple
    rw [executed] at acted
    cases o with
    | none =>
      simp only [Effect.after, Prod.mk.injEq, Except.ok.injEq] at acted
      rw [acted.2]
      exact Effect.below_nothing s
    | some e => simp [Effect.after] at acted
  · cases s with
    | seq a b =>
      simp only [execBy, Prod.mk.injEq, Except.ok.injEq] at executed
      rw [← executed.2]
      simp only [loopFree, Bool.and_eq_true] at free
      constructor
      · simpa using free
      · simp
      · simp only [List.map_cons, List.map_nil, total_cons, total_nil, size]
        omega
      · simp [forkCount]
    | ite g a b =>
      cases guard : ν.guard "if" g with
      | error e => simp [execBy, guard, Except.map] at executed
      | ok c =>
        simp only [execBy, guard, Except.map, Prod.mk.injEq, Except.ok.injEq] at executed
        rw [← executed.2]
        simp only [loopFree, Bool.and_eq_true] at free
        -- the branch that is taken is one of the two
        constructor
        · cases c <;> simp [free]
        · simp
        · cases c <;> simp [size] <;> omega
        · cases c <;> simp [forkCount]
    | loop g b => cases free
    | fork b =>
      simp only [execBy, Prod.mk.injEq, Except.ok.injEq] at executed
      rw [← executed.2]
      constructor
      · simp
      · rintro c ⟨⟩
        exact ⟨free, by simp only [size]; omega⟩
      · exact (fork b).size_pos
      · simp [forkCount]
    | _ => simp [elementary] at simple

/-! ### Turns -/

namespace Thread

/-- The thread has no loops on its stack, and at most `n` rounds to go. -/
structure Bounded (n : Nat) (t : Thread) : Prop where
  free : ∀ s ∈ t.stack, s.loopFree
  size : total (t.stack.map Stmt.size) ≤ n

/-- The number of forks that are written down on the stack of a thread. -/
def forksLeft (t : Thread) : Nat :=
  total (t.stack.map Stmt.forkCount)

theorem Bounded.not_isActive {t : Thread} (bounded : t.Bounded 0) : ¬t.isActive := by
  intro active
  cases top : t.stack with
  | nil => simp [isActive, top] at active
  | cons s rest =>
    have size := bounded.size
    have pos := s.size_pos
    rw [top, List.map_cons, total_cons] at size
    omega

end Thread

namespace Turn

/-- Whether the statement that is executed in the turn is a fork. -/
def executesFork (u : Turn) : Bool :=
  match u.thread.stack with
  | .fork _ :: _ => true
  | _ => false

variable {disk : Disk} {u : Turn}

/-- A turn pops a statement. If it fails, nothing comes of it; otherwise what is left to be done goes on the
stack, or to a thread that is started. -/
theorem Proper.stack_settled (proper : u.Proper disk) (active : u.thread.isActive) :
    ∃ s rest ν σ, u.thread.stack = s :: rest ∧
      ((∃ σ' e, s.execBy ν disk σ = (σ', .error e) ∧ u.settled.stack = rest ∧ u.child? = none) ∨
        ∃ σ' effect, s.execBy ν disk σ = (σ', .ok effect) ∧ u.settled.stack = effect.push ++ rest ∧
          u.child?.map Thread.stack = effect.spawn.map fun c => [c.body]) := by
  obtain ⟨w, ν, outcome⟩ := proper
  rw [World.stepBy_snd] at outcome
  cases top : u.thread.stack with
  | nil => simp [Thread.isActive, top] at active
  | cons s rest =>
    have running : u.thread.status = .running := by
      simp only [Thread.isActive, Bool.and_eq_true, decide_eq_true_eq] at active
      exact active.1
    refine ⟨s, rest, ν, u.thread.store (w.heap u.thread.heap), rfl, ?_⟩
    simp only [Thread.stepBy, running, top] at outcome
    rcases executed : s.execBy ν disk (u.thread.store (w.heap u.thread.heap)) with ⟨σ', e | effect⟩
    · left
      rw [executed] at outcome
      exact ⟨σ', e, rfl, by rw [settled, outcome]; rfl, by rw [child?, outcome]; rfl⟩
    · right
      rw [executed] at outcome
      refine ⟨σ', effect, rfl, ?_, ?_⟩
      · simp only [settled, outcome, Pool.settle, Except.map]
        split <;> rfl
      · simp only [child?, outcome, Pool.child?, Except.map, Option.map_map]
        rfl

theorem Proper.bounded (proper : u.Proper disk) (active : u.thread.isActive) {n : Nat}
    (bounded : u.thread.Bounded (n + 1)) :
    u.settled.Bounded n ∧ ∀ c, u.child? = some c → c.Bounded n := by
  obtain ⟨s, rest, ν, σ, top, outcome⟩ := proper.stack_settled active
  obtain ⟨free, size⟩ := bounded
  rw [top] at free size
  rw [List.map_cons, total_cons] at size
  have others (p : Stmt) (member : p ∈ rest) : p.loopFree := free p (List.mem_cons_of_mem s member)
  rcases outcome with ⟨σ', e, -, stack, childless⟩ | ⟨σ', effect, executed, stack, child⟩
  · have pos := s.size_pos
    refine ⟨⟨by rwa [stack], by rw [stack]; omega⟩, fun c started => ?_⟩
    rw [childless] at started
    cases started
  · have below := Stmt.execBy_below (free s List.mem_cons_self) executed
    constructor
    · constructor
      · intro p member
        rw [stack] at member
        rcases List.mem_append.mp member with pushed | waiting
        · exact below.push p pushed
        · exact others p waiting
      · have less := below.size
        rw [stack, List.map_append, total_append]
        omega
    · intro c started
      rw [started, Option.map_some] at child
      obtain ⟨spawn, asked, body⟩ := Option.map_eq_some_iff.mp child.symm
      obtain ⟨bodyFree, bodySize⟩ := below.spawn spawn asked
      constructor
      · rw [← body]
        simpa using bodyFree
      · rw [← body, List.map_singleton, total_cons, total_nil]
        omega

/-- No fork is gained in a turn, and one is lost if a thread is started. -/
theorem Proper.forksLeft_le (proper : u.Proper disk) (active : u.thread.isActive)
    (free : ∀ s ∈ u.thread.stack, s.loopFree) :
    u.settled.forksLeft + total (u.child?.toList.map fun c => 1 + c.forksLeft) ≤
      u.thread.forksLeft := by
  obtain ⟨s, rest, ν, σ, top, outcome⟩ := proper.stack_settled active
  rw [Thread.forksLeft, Thread.forksLeft, top, List.map_cons, total_cons]
  rcases outcome with ⟨σ', e, -, stack, childless⟩ | ⟨σ', effect, executed, stack, child⟩
  · rw [stack, childless]
    simp
  · have below := (Stmt.execBy_below (free s (top ▸ List.mem_cons_self)) executed).forks
    rw [stack, List.map_append, total_append]
    cases asked : effect.spawn with
    | none =>
      have childless : u.child? = none := by simpa [asked] using child
      rw [childless]
      simp only [asked, Option.toList_none, List.map_nil, total_nil] at below ⊢
      omega
    | some c =>
      rw [asked, Option.map_some] at child
      obtain ⟨t, started, body⟩ := Option.map_eq_some_iff.mp child
      rw [started]
      simp only [asked, Option.toList_some, List.map_singleton, total_cons, total_nil,
        Thread.forksLeft, body] at below ⊢
      omega

theorem Proper.executesFork_eq (proper : u.Proper disk) (active : u.thread.isActive) :
    u.executesFork = u.child?.isSome := by
  obtain ⟨s, rest, ν, σ, top, outcome⟩ := proper.stack_settled active
  rw [executesFork, top]
  rcases outcome with ⟨σ', e, failed, -, childless⟩ | ⟨σ', effect, executed, -, child⟩
  · rw [childless]
    cases s with
    | fork b => cases failed
    | _ => rfl
  · have same : u.child?.isSome = effect.spawn.isSome := by
      rw [← Option.isSome_map, child, Option.isSome_map]
    rw [same]
    cases asked : effect.spawn with
    | none =>
      cases s with
      | fork b =>
        simp only [Stmt.execBy, Prod.mk.injEq, Except.ok.injEq] at executed
        rw [← executed.2] at asked
        cases asked
      | _ => rfl
    | some c =>
      obtain ⟨rfl, -⟩ := Stmt.spawn_execBy executed asked
      rfl

end Turn

/-! ### Rounds -/

theorem total_filter_le {α : Type} (p : α → Bool) (f : α → Nat) (xs : List α) :
    total ((xs.filter p).map f) ≤ total (xs.map f) := by
  induction xs with
  | nil => exact Nat.le_refl _
  | cons x xs ih =>
    rw [List.filter_cons]
    split <;> simp only [List.map_cons, total_cons] <;> omega

theorem Turn.filterMap_child?_cons (u : Turn) (us : List Turn) :
    (u :: us).filterMap child? = u.child?.toList ++ us.filterMap child? := by
  cases started : u.child? <;> simp [started]

theorem Turn.forksLeft_turns_le {us : List Turn}
    (each : ∀ u ∈ us, u.settled.forksLeft + total (u.child?.toList.map fun c => 1 + c.forksLeft) ≤
      u.thread.forksLeft) :
    total (us.map fun u => u.settled.forksLeft) +
        total ((us.filterMap child?).map fun c => 1 + c.forksLeft) ≤
      total (us.map fun u => u.thread.forksLeft) := by
  induction us with
  | nil => exact Nat.le_refl _
  | cons u us ih =>
    have here := each u List.mem_cons_self
    have later := ih fun v member => each v (List.mem_cons_of_mem u member)
    rw [filterMap_child?_cons, List.map_append, total_append]
    simp only [List.map_cons, total_cons]
    omega

theorem total_succ {α : Type} (f : α → Nat) (xs : List α) :
    total (xs.map fun x => 1 + f x) = xs.length + total (xs.map f) := by
  induction xs with
  | nil => rfl
  | cons x xs ih =>
    simp only [List.map_cons, total_cons, List.length_cons, ih]
    omega

namespace Pool.Tidy

variable {p : Pool} (tidy : p.Tidy) (disk : Disk) (order : List Nat)
include tidy

theorem isActive_of_turn {u : Turn} (turn : u ∈ p.turns World.sweep disk order) : u.thread.isActive := by
  apply tidy.active
  rw [← tidy.threads_turns disk order]
  exact List.mem_map_of_mem turn

theorem bounded_advance {n : Nat} (bounded : ∀ t ∈ p.active, t.Bounded (n + 1)) :
    ∀ t ∈ (p.advance World.sweep disk order).1.active, t.Bounded n := by
  intro t member
  rw [active_advance] at member
  have before (u : Turn) (turn : u ∈ p.turns World.sweep disk order) : u.thread.Bounded (n + 1) := by
    apply bounded
    rw [← tidy.threads_turns disk order]
    exact List.mem_map_of_mem turn
  rcases List.mem_append.mp (List.mem_filter.mp member).1 with settled | started
  · obtain ⟨u, turn, rfl⟩ := List.mem_map.mp settled
    have proper := World.proper_of_mem_turns _ _ _ turn
    exact (proper.bounded (tidy.isActive_of_turn disk order turn) (before u turn)).1
  · obtain ⟨u, turn, child⟩ := List.mem_filterMap.mp started
    have proper := World.proper_of_mem_turns _ _ _ turn
    exact (proper.bounded (tidy.isActive_of_turn disk order turn) (before u turn)).2 t child

theorem forksLeft_advance_le (free : ∀ t ∈ p.active, ∀ s ∈ t.stack, s.loopFree) :
    total ((p.advance World.sweep disk order).1.active.map Thread.forksLeft) +
        (p.children World.sweep disk order).length ≤ total (p.active.map Thread.forksLeft) := by
  have each : ∀ u ∈ p.turns World.sweep disk order, u.settled.forksLeft +
      total (u.child?.toList.map fun c => 1 + c.forksLeft) ≤ u.thread.forksLeft := by
    intro u turn
    refine (World.proper_of_mem_turns _ _ _ turn).forksLeft_le (tidy.isActive_of_turn disk order turn) ?_
    apply free
    rw [← tidy.threads_turns disk order]
    exact List.mem_map_of_mem turn
  have turns : total ((p.turns World.sweep disk order).map fun u => u.settled.forksLeft) +
      ((p.children World.sweep disk order).length +
        total ((p.children World.sweep disk order).map Thread.forksLeft)) ≤
      total (p.active.map Thread.forksLeft) := by
    rw [← total_succ, ← tidy.threads_turns disk order, List.map_map]
    exact Turn.forksLeft_turns_le each
  have goOn : total (((p.listed World.sweep disk order).filter (·.isActive)).map Thread.forksLeft) ≤
      total ((p.turns World.sweep disk order).map fun u => u.settled.forksLeft) +
        total ((p.children World.sweep disk order).map Thread.forksLeft) := by
    refine (total_filter_le _ _ _).trans_eq ?_
    rw [listed, List.map_append, total_append, List.map_map]
    rfl
  rw [active_advance]
  omega

theorem length_children :
    (p.children World.sweep disk order).length =
      (p.turns World.sweep disk order).countP Turn.executesFork := by
  rw [children, List.length_filterMap_eq_countP]
  apply List.countP_congr
  intro u turn
  have proper := World.proper_of_mem_turns _ _ _ turn
  rw [proper.executesFork_eq (tidy.isActive_of_turn disk order turn)]

end Pool.Tidy

/-! ### Runs -/

namespace Scheduler

variable {s : Scheduler} (course : Nat → Course)

/-- The number of fork statements that are executed in the first `n` rounds. -/
def forksExecuted (s : Scheduler) (n : Nat) : Nat :=
  total ((List.range n).map fun k => (s.turns course k).countP Turn.executesFork)

theorem forksExecuted_succ (n : Nat) :
    s.forksExecuted course (n + 1) =
      s.forksExecuted course n + (s.turns course n).countP Turn.executesFork := by
  simp [forksExecuted, List.range_succ]

theorem Loaded.length_forks (loaded : s.Loaded) (n : Nat) :
    (s.forks course n).length = s.forksExecuted course n := by
  induction n with
  | zero => rfl
  | succ n ih =>
    have round := (loaded.tidy_after course n).length_children (s.diskAt course n) (course n).order
    rw [forksExecuted_succ, forks, List.range_succ, List.flatMap_append, List.flatMap_singleton,
      List.length_append, ← forks, ih, children, round, turns]

variable {course} in
/-- A run ends with the first round that leaves no thread active. -/
theorem run_of_idle {n m fuel : Nat} (later : n < m) (enough : m ≤ n + fuel)
    (idle : (s.after course m).pool.active = []) :
    ∃ j, n < j ∧ j ≤ m ∧ (s.after course n).run course fuel n = some (s.after course j) ∧
      (s.after course j).pool.active = [] ∧
      ∀ i, n < i → i < j → (s.after course i).pool.active ≠ [] := by
  induction fuel generalizing n with
  | zero => omega
  | succ fuel ih =>
    have answer : ((s.after course n).round (course n)).2 =
        !(s.after course (n + 1)).pool.active.isEmpty :=
      (s.after course n).answer_round (course n)
    simp only [run]
    split
    next more =>
      have busy : (s.after course (n + 1)).pool.active ≠ [] := by simpa [more] using answer
      have further : n + 1 < m := by
        rcases Nat.lt_or_eq_of_le (Nat.succ_le_of_lt later) with less | rfl
        · exact less
        · exact absurd idle busy
      obtain ⟨j, first, le, ran, ended, before⟩ := ih further (by omega)
      refine ⟨j, by omega, le, ran, ended, fun i after less => ?_⟩
      rcases Nat.lt_or_eq_of_le (Nat.succ_le_of_lt after) with past | rfl
      · exact before i past less
      · exact busy
    next last =>
      refine ⟨n + 1, Nat.lt_succ_self n, later, rfl, ?_, fun i after less => by omega⟩
      rw [Bool.eq_false_iff.mpr last] at answer
      simpa using answer

section Program

variable {P : Stmt} (free : P.loopFree) (disk : Disk) (journal : Journal)
include free

theorem bounded_after (n : Nat) :
    ∀ t ∈ ((ofProgram disk journal P).after course n).pool.active, t.Bounded (P.size - n) := by
  induction n with
  | zero =>
    intro t member
    rw [after_zero, active_ofProgram, List.mem_singleton] at member
    subst member
    constructor
    · simpa [Thread.start] using free
    · simp [Thread.start]
  | succ n ih =>
    have tidy := (fresh_ofProgram disk journal P).loaded.tidy_after course n
    intro t member
    rw [pool_after_succ] at member
    refine tidy.bounded_advance _ _ (n := P.size - (n + 1)) (fun u active => ?_) t member
    -- a thread that is active has at least one round to go
    rcases Nat.lt_or_ge n P.size with less | beyond
    · have count : P.size - (n + 1) + 1 = P.size - n := by omega
      rw [count]
      exact ih u active
    · have bounded := ih u active
      rw [Nat.sub_eq_zero_of_le beyond] at bounded
      exact absurd (tidy.active u active) bounded.not_isActive

theorem idle_after_size : ((ofProgram disk journal P).after course P.size).pool.active = [] := by
  rw [List.eq_nil_iff_forall_not_mem]
  intro t member
  have bounded := bounded_after course free disk journal P.size t member
  rw [Nat.sub_self] at bounded
  have tidy := (fresh_ofProgram disk journal P).loaded.tidy_after course P.size
  exact bounded.not_isActive (tidy.active t member)

theorem forksLeft_after_le (n : Nat) :
    total (((ofProgram disk journal P).after course n).pool.active.map Thread.forksLeft) +
      ((ofProgram disk journal P).forks course n).length ≤ P.forkCount := by
  induction n with
  | zero => simp [after_zero, active_ofProgram, forks, Thread.forksLeft, Thread.start]
  | succ n ih =>
    have tidy := (fresh_ofProgram disk journal P).loaded.tidy_after course n
    have round := tidy.forksLeft_advance_le ((ofProgram disk journal P).diskAt course n) (course n).order
      fun t member => (bounded_after course free disk journal n t member).free
    rw [← pool_after_succ] at round
    rw [forks, List.range_succ, List.flatMap_append, List.flatMap_singleton, List.length_append,
      ← forks, children]
    omega

end Program

/-- Programs without loops end. A program in which no loop is written down, whatever it forks, whichever of
its statements fail, whatever the files hold and in whatever order its threads get on, is done after no more
rounds than its size says. Then no thread is active, and as many threads are handed over as forks have been
executed and one more; these forks are no more than are written down in the program. -/
theorem loopFree_terminates (P : Stmt) (free : P.loopFree) (disk : Disk) (journal : Journal)
    (course : Nat → Course) :
    let s := ofProgram disk journal P
    ∃ s', (∀ fuel ≥ P.size, s.run course fuel 0 = some s') ∧ s'.pool.round ≤ P.size ∧
      s' = s.after course s'.pool.round ∧ s'.pool.active = [] ∧
      s'.takeRetired.1.length = 1 + s.forksExecuted course s'.pool.round ∧
      1 + s.forksExecuted course s'.pool.round ≤ 1 + P.forkCount := by
  intro s
  have loaded : s.Loaded := (fresh_ofProgram disk journal P).loaded
  have idle : (s.after course P.size).pool.active = [] := idle_after_size course free disk journal
  obtain ⟨j, pos, le, -, ended, before⟩ := run_of_idle P.size_pos (Nat.le_add_left _ _) idle
  -- any other run ends with the same round, which is the first without an active thread
  have same (fuel : Nat) (enough : P.size ≤ fuel) : s.run course fuel 0 = some (s.after course j) := by
    have plenty : P.size ≤ 0 + fuel := by omega
    obtain ⟨i, pos', -, ran, ended', before'⟩ := run_of_idle P.size_pos plenty idle
    rcases Nat.lt_trichotomy i j with less | rfl | greater
    · exact absurd ended' (before i pos' less)
    · exact ran
    · exact absurd ended (before' j pos greater)
  have counted : (s.after course j).pool.round = j := by
    obtain ⟨k, rfl⟩ : ∃ k, j = k + 1 := ⟨j - 1, by omega⟩
    refine (loaded.round_of_turns course ?_).trans (Nat.zero_add _)
    rw [Ne, loaded.turns_eq_nil_iff]
    rcases Nat.eq_zero_or_pos k with rfl | later
    · simp [s, after_zero, active_ofProgram]
    · exact before k later (Nat.lt_succ_self k)
  have all := (loaded.ids_after course j).length_eq
  have forks := forksLeft_after_le course free disk journal j
  rw [ended, List.nil_append, List.length_map, joined, List.length_append, List.length_map,
    List.length_map, loaded.length_forks] at all
  rw [loaded.length_forks] at forks
  refine ⟨s.after course j, same, ?_, ?_, ended, ?_, ?_⟩
  · rw [counted]
    exact le
  · rw [counted]
  · rw [counted]
    exact all
  · rw [counted]
    omega

/-- A program that starts a thread which starts another, which fails, and has one more fork in the branch
that is not taken. It has the size 7 and three forks; it takes four rounds, and two forks are executed. -/
theorem loopFree_terminates_branch_not_taken :
    let P : Stmt := .seq (.fork (.fork (.print (.var "x")))) (.ite (.bool true) .nop (.fork .nop))
    let s := ofProgram (.blank []) {} P
    let course := fun _ => Course.smooth ⟨2024, 1, 1, 0, 0, 0⟩ [1]
    P.loopFree ∧ P.size = 7 ∧ P.forkCount = 3 ∧
    ∃ s', (∀ fuel ≥ 7, s.run course fuel 0 = some s') ∧ s'.pool.active = [] ∧
      s'.pool.round = 4 ∧ s'.takeRetired.1.length = 3 ∧ s.forksExecuted course 4 = 2 := by
  intro P s course
  have free : P.loopFree := by decide
  obtain ⟨s', ran, -, -, idle, handed, -⟩ := loopFree_terminates P free (.blank []) {} course
  have rounds : s'.pool.round = 4 := by
    have computed : (s.run course 7 0).map (·.pool.round) = some 4 := by decide +kernel
    rw [ran 7 (Nat.le_refl _)] at computed
    simpa using computed
  have forks : s.forksExecuted course 4 = 2 := by decide +kernel
  rw [rounds, forks] at handed
  exact ⟨free, by decide, by decide, s', ran, idle, rounds, handed, forks⟩

end Scheduler

end Lockstep
