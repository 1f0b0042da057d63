import Lockstep.Proofs.Census

/-!
Threads advance in lock-step.

A thread that came up in round `K` takes exactly one step in each round from `K + 1` on, up to the round
that retires it. The numbers of threads tell when they came up: those that a round starts are below the
next number after the round and not below the next number before it. So a thread that is active after a
round and has a number from before the round had a turn in it, and the turn succeeded, since a failure
would have retired it.
-/

namespace Lockstep

theorem Turn.Proper.succeeded_of_isActive {disk : Disk} {u : Turn} (proper : u.Proper disk)
    (active : u.settled.isActive) : u.succeeded = true := by
  rcases proper.settled_cases with ⟨fine, -⟩ | ⟨fine, -⟩ | ⟨e, -, failed⟩
  · exact fine
  · exact fine
  · simp [Thread.isActive, failed] at active

namespace Scheduler

section Definitions

variable (course : Nat → Course) (s : Scheduler) (id : Nat)

/-- The round `K` brought the thread with the number `id` up: it was there from the beginning if `K` is
zero, and a fork of this round started it otherwise. -/
def CreatedIn : Nat → Prop
  | 0 => id ∈ s.pool.active.map Thread.id
  | k + 1 => id ∈ (s.children course k).map Thread.id

/-- The steps that the thread with the number `id` takes in a round, each as a success or a failure. -/
def attempts : Nat → List Bool
  | 0 => []
  | k + 1 => ((s.turns course k).filter (·.thread.id = id)).map Turn.succeeded

/-- The steps that the thread with the number `id` takes in the first `n` rounds. -/
def attemptsThrough (n : Nat) : List Bool :=
  (List.range n).flatMap fun k => s.attempts course id (k + 1)

theorem attemptsThrough_succ (n : Nat) :
    s.attemptsThrough course id (n + 1) =
      s.attemptsThrough course id n ++ s.attempts course id (n + 1) := by
  rw [attemptsThrough, List.range_succ, List.flatMap_append, List.flatMap_singleton, attemptsThrough]

end Definitions

variable {s : Scheduler} (course : Nat → Course) {id : Nat}

/-! ### Numbers and rounds -/

theorem Loaded.createdIn_bounds (loaded : s.Loaded) {K : Nat} (created : s.CreatedIn course id K) :
    id < (s.after course K).pool.world.nextThread ∧
      ∀ n < K, (s.after course n).pool.world.nextThread ≤ id := by
  cases K with
  | zero =>
    obtain ⟨t, member, rfl⟩ := List.mem_map.mp created
    exact ⟨loaded.numbered t member, by simp⟩
  | succ k =>
    obtain ⟨c, started, rfl⟩ := List.mem_map.mp created
    obtain ⟨above, below⟩ := child_bounds course started
    exact ⟨below, fun n less => (nextThread_mono course (Nat.lt_succ_iff.mp less)).trans above⟩

theorem Loaded.createdIn_unique (loaded : s.Loaded) {K K' : Nat} (created : s.CreatedIn course id K)
    (created' : s.CreatedIn course id K') : K' = K := by
  obtain ⟨below, above⟩ := loaded.createdIn_bounds course created
  obtain ⟨below', above'⟩ := loaded.createdIn_bounds course created'
  rcases Nat.lt_trichotomy K K' with less | same | greater
  · have := above' K less
    omega
  · exact same.symm
  · have := above K' greater
    omega

theorem Loaded.createdIn_iff (loaded : s.Loaded) {K : Nat} (created : s.CreatedIn course id K) (r : Nat) :
    s.CreatedIn course id r ↔ r = K := by
  constructor
  · exact loaded.createdIn_unique course created
  · rintro rfl
    exact created

/-- Every thread that exists came up in some round. -/
theorem Loaded.exists_createdIn (loaded : s.Loaded) {n : Nat} {t : Thread}
    (member : t ∈ (s.after course n).pool.active ++ (s.after course n).pool.retired) :
    ∃ K ≤ n, s.CreatedIn course t.id K := by
  have known := (loaded.ids_after course n).mem_iff.mp (List.mem_map_of_mem member)
  rcases List.mem_append.mp known with initial | forked
  · exact ⟨0, Nat.zero_le n, initial⟩
  · obtain ⟨c, listed, same⟩ := List.mem_map.mp forked
    obtain ⟨k, inside, child⟩ := List.mem_flatMap.mp listed
    exact ⟨k + 1, List.mem_range.mp inside, same ▸ List.mem_map_of_mem child⟩

/-! ### Turns in a round -/

theorem Loaded.threads_turns (loaded : s.Loaded) (k : Nat) :
    (s.turns course k).map Turn.thread = (s.after course k).pool.active :=
  (loaded.tidy_after course k).threads_turns _ _

theorem Loaded.attempts_of_absent (loaded : s.Loaded) {k : Nat}
    (absent : id ∉ (s.after course k).pool.active.map Thread.id) :
    s.attempts course id (k + 1) = [] := by
  rw [attempts, List.map_eq_nil_iff, List.filter_eq_nil_iff]
  intro u member same
  rw [← loaded.threads_turns course k] at absent
  exact absent (of_decide_eq_true same ▸ List.mem_map_of_mem (List.mem_map_of_mem member))

/-- A thread has at most one turn in a round. -/
theorem Loaded.attempts_of_turn (loaded : s.Loaded) {k : Nat} {u : Turn} (member : u ∈ s.turns course k) :
    s.attempts course u.thread.id (k + 1) = [u.succeeded] := by
  have distinct := (loaded.tidy_after course k).distinct_active
  rw [← loaded.threads_turns course k, List.map_map] at distinct
  -- the numbers of the threads before and after it are different from its own
  obtain ⟨front, back, split⟩ := List.append_of_mem member
  rw [split, List.map_append, List.map_cons, List.nodup_append, List.nodup_cons] at distinct
  obtain ⟨-, ⟨later, -⟩, earlier⟩ := distinct
  have none_before : front.filter (·.thread.id = u.thread.id) = [] := by
    rw [List.filter_eq_nil_iff]
    intro v inFront same
    exact earlier _ (List.mem_map_of_mem inFront) _ List.mem_cons_self (of_decide_eq_true same)
  have none_after : back.filter (·.thread.id = u.thread.id) = [] := by
    rw [List.filter_eq_nil_iff]
    intro v inBack same
    exact later (List.mem_map.mpr ⟨v, inBack, of_decide_eq_true same⟩)
  rw [attempts, split, List.filter_append, List.filter_cons_of_pos (by simp), none_before, none_after]
  rfl

theorem Loaded.mem_listed (loaded : s.Loaded) {k : Nat} {t : Thread}
    (member : t ∈ (s.after course k).pool.listed World.sweep (s.diskAt course k) (course k).order) :
    (∃ u ∈ s.turns course k, u.settled = t ∧ u.thread.id = t.id ∧
      u.thread ∈ (s.after course k).pool.active) ∨
    t ∈ s.children course k := by
  rcases List.mem_append.mp member with settled | started
  · obtain ⟨u, turn, rfl⟩ := List.mem_map.mp settled
    refine .inl ⟨u, turn, rfl, (s.proper_of_mem_turns course turn).id_settled.symm, ?_⟩
    rw [← loaded.threads_turns course k]
    exact List.mem_map_of_mem turn
  · exact .inr started

/-- A thread that is active after a round and has a number from before it had a turn in the round, which
succeeded. -/
theorem Loaded.attempts_of_active (loaded : s.Loaded) {k : Nat}
    (active : id ∈ (s.after course (k + 1)).pool.active.map Thread.id)
    (old : id < (s.after course k).pool.world.nextThread) :
    id ∈ (s.after course k).pool.active.map Thread.id ∧ s.attempts course id (k + 1) = [true] := by
  obtain ⟨t, member, rfl⟩ := List.mem_map.mp active
  rw [pool_after_succ, Pool.active_advance, List.mem_filter] at member
  obtain ⟨listed, goesOn⟩ := member
  rcases loaded.mem_listed course listed with ⟨u, turn, rfl, same, before⟩ | started
  · have fine := (s.proper_of_mem_turns course turn).succeeded_of_isActive goesOn
    rw [← same, loaded.attempts_of_turn course turn, fine]
    exact ⟨List.mem_map_of_mem before, rfl⟩
  · have new := (child_bounds course started).1
    omega

/-- A thread that a round retires had a turn in it, with which it completed or failed. -/
theorem Loaded.turn_of_leaver (loaded : s.Loaded) {k : Nat} {t : Thread} (left : t ∈ s.leavers course k) :
    t.id ∈ (s.after course k).pool.active.map Thread.id ∧
      ((t.status = .completed ∧ s.attempts course t.id (k + 1) = [true]) ∨
        ∃ e, t.status = .failed e ∧ s.attempts course t.id (k + 1) = [false]) := by
  rw [loaded.leavers_eq course k, List.mem_filter] at left
  obtain ⟨listed, ended⟩ := left
  rcases loaded.mem_listed course listed with ⟨u, turn, rfl, same, before⟩ | started
  · refine ⟨same ▸ List.mem_map_of_mem before, ?_⟩
    rw [← same, loaded.attempts_of_turn course turn]
    rcases (s.proper_of_mem_turns course turn).settled_cases with
      ⟨-, goesOn⟩ | ⟨fine, completed, -⟩ | ⟨e, failure, failed⟩
    · simp [goesOn] at ended
    · exact .inl ⟨completed, by rw [fine]⟩
    · exact .inr ⟨e, failed, by simp [Turn.succeeded, failure, Except.isOk, Except.toBool]⟩
  · -- a thread that has just been started goes on
    obtain ⟨u, turn, child⟩ := List.mem_filterMap.mp started
    simp [(s.proper_of_mem_turns course turn).isActive_child child] at ended

/-! ### Rounds of a thread -/

/-- Up to a round after which it is active, a thread has stepped in every round since it came up, always
with success, and in no other. -/
theorem Loaded.attempts_until (loaded : s.Loaded) {K n : Nat} (created : s.CreatedIn course id K)
    (active : id ∈ (s.after course n).pool.active.map Thread.id) {r : Nat} (le : r ≤ n) :
    s.attempts course id r = if K < r then [true] else [] := by
  obtain ⟨below, above⟩ := loaded.createdIn_bounds course created
  cases r with
  | zero => rfl
  | succ k =>
    by_cases since : K < k + 1
    · -- back from the last round, with the number known to be old
      rw [if_pos since]
      have present : id ∈ (s.after course (k + 1)).pool.active.map Thread.id := by
        refine Nat.decreasingInduction' (P := fun m =>
          id ∈ (s.after course m).pool.active.map Thread.id) ?_ le active
        intro m _ reached later
        have old := below.trans_le (nextThread_mono course (n := m) (by omega))
        exact (loaded.attempts_of_active course later old).1
      have old := below.trans_le (nextThread_mono course (Nat.lt_succ_iff.mp since))
      exact (loaded.attempts_of_active course present old).2
    · rw [if_neg since]
      apply loaded.attempts_of_absent course
      intro early
      obtain ⟨t, member, rfl⟩ := List.mem_map.mp early
      have known := (loaded.tidy_after course k).numbered t (List.mem_append_left _ member)
      have later := above k (by omega)
      omega

theorem Loaded.createdIn_le (loaded : s.Loaded) {K n : Nat} (created : s.CreatedIn course id K)
    (active : id ∈ (s.after course n).pool.active.map Thread.id) : K ≤ n := by
  by_contra less
  obtain ⟨t, member, rfl⟩ := List.mem_map.mp active
  have known := (loaded.tidy_after course n).numbered t (List.mem_append_left _ member)
  have later := (loaded.createdIn_bounds course created).2 n (by omega)
  omega

/-- A thread does not step any more when it has been retired. -/
theorem Loaded.attempts_after (loaded : s.Loaded) {k : Nat} {t : Thread} (left : t ∈ s.leavers course k)
    {r : Nat} (later : k + 1 < r) : s.attempts course t.id r = [] := by
  obtain ⟨r, rfl⟩ : ∃ r', r = r' + 1 := ⟨r - 1, by omega⟩
  apply loaded.attempts_of_absent course
  have retired : t ∈ (s.after course (k + 1)).pool.retired := by
    rw [loaded.retired_succ course k, ← loaded.leavers_eq]
    exact List.mem_append_right _ left
  have still := loaded.retired_mono course (n := r) (by omega) retired
  exact (loaded.tidy_after course r).not_active_of_retired still

/-! ### Counting -/

theorem attemptsThrough_of_all {K n : Nat}
    (each : ∀ r ≤ n, s.attempts course id r = if K < r then [true] else []) :
    s.attemptsThrough course id n = List.replicate (n - K) true := by
  induction n with
  | zero => simp [attemptsThrough]
  | succ n ih =>
    rw [attemptsThrough_succ, ih fun r le => each r (by omega), each (n + 1) (Nat.le_refl _)]
    split
    next since => rw [← List.replicate_succ', Nat.succ_sub (Nat.lt_succ_iff.mp since)]
    next before =>
      have none : n + 1 - K = n - K := by omega
      rw [List.append_nil, none]

theorem attemptsThrough_of_none {m n : Nat} (le : m ≤ n)
    (none : ∀ r, m < r → s.attempts course id r = []) :
    s.attemptsThrough course id n = s.attemptsThrough course id m := by
  induction n, le using Nat.le_induction with
  | base => rfl
  | succ n reached ih => rw [attemptsThrough_succ, ih, none (n + 1) (by omega), List.append_nil]

/-! ### Whole runs -/

theorem Loaded.attempts_of_completed (loaded : s.Loaded) {k K : Nat} {t : Thread}
    (left : t ∈ s.leavers course k) (created : s.CreatedIn course t.id K)
    (last : s.attempts course t.id (k + 1) = [true]) (r : Nat) :
    s.attempts course t.id r = if K < r ∧ r ≤ k + 1 then [true] else [] := by
  have active := (loaded.turn_of_leaver course left).1
  have since := loaded.createdIn_le course created active
  rcases Nat.lt_trichotomy r (k + 1) with earlier | rfl | later
  · rw [loaded.attempts_until course created active (Nat.lt_succ_iff.mp earlier)]
    simp [Nat.le_of_lt earlier]
  · rw [last, if_pos ⟨by omega, Nat.le_refl _⟩]
  · rw [loaded.attempts_after course left later, if_neg (by omega)]

theorem Loaded.attempts_of_failed (loaded : s.Loaded) {k K : Nat} {t : Thread}
    (left : t ∈ s.leavers course k) (created : s.CreatedIn course t.id K)
    (last : s.attempts course t.id (k + 1) = [false]) (r : Nat) :
    s.attempts course t.id r =
      if K < r ∧ r < k + 1 then [true] else if r = k + 1 then [false] else [] := by
  have active := (loaded.turn_of_leaver course left).1
  rcases Nat.lt_trichotomy r (k + 1) with earlier | rfl | later
  · rw [loaded.attempts_until course created active (Nat.lt_succ_iff.mp earlier)]
    simp [earlier, Nat.ne_of_lt earlier]
  · rw [last, if_neg (by omega), if_pos rfl]
  · rw [loaded.attempts_after course left later, if_neg (by omega), if_neg (by omega)]

/-- What the run of a retired thread looked like as a whole. -/
theorem Loaded.attempts_of_departure (loaded : s.Loaded) {n M : Nat} {t : Thread}
    (departed : (M, t) ∈ s.departures course n) :
    ∃ K < M, (∀ r, s.CreatedIn course t.id r ↔ r = K) ∧
      ((t.status = .completed ∧
        (∀ r, s.attempts course t.id r = if K < r ∧ r ≤ M then [true] else []) ∧
        s.attemptsThrough course t.id n = List.replicate (M - K) true) ∨
      ((∃ e, t.status = .failed e) ∧
        (∀ r, s.attempts course t.id r =
          if K < r ∧ r < M then [true] else if r = M then [false] else []) ∧
        s.attemptsThrough course t.id n = List.replicate (M - K - 1) true ++ [false])) := by
  simp only [departures, List.mem_flatMap, List.mem_range, List.mem_map, Prod.mk.injEq] at departed
  obtain ⟨k, inside, t, left, rfl, rfl⟩ := departed
  obtain ⟨active, ended⟩ := loaded.turn_of_leaver course left
  obtain ⟨u, before, same⟩ := List.mem_map.mp active
  obtain ⟨K, -, created⟩ := loaded.exists_createdIn course (List.mem_append_left _ before)
  rw [same] at created
  have since := loaded.createdIn_le course created active
  -- after its last round the thread does nothing, so the first `k + 1` rounds count
  have total : s.attemptsThrough course t.id n = s.attemptsThrough course t.id (k + 1) :=
    attemptsThrough_of_none course inside fun r later => loaded.attempts_after course left later
  refine ⟨K, Nat.lt_succ_of_le since, loaded.createdIn_iff course created, ?_⟩
  rcases ended with ⟨completed, last⟩ | ⟨e, failed, last⟩
  · have each := loaded.attempts_of_completed course left created last
    refine .inl ⟨completed, each, ?_⟩
    rw [total]
    apply attemptsThrough_of_all
    intro r le
    rw [each r]
    simp [le]
  · have each := loaded.attempts_of_failed course left created last
    refine .inr ⟨⟨e, failed⟩, each, ?_⟩
    have before := attemptsThrough_of_all course fun r le =>
      loaded.attempts_until course created active (r := r) le
    have count : k - K = k + 1 - K - 1 := by omega
    rw [total, attemptsThrough_succ, before, last, count]

/-- A thread that a round starts is at its beginning when the round ends. -/
theorem child_at_end {k : Nat} {u : Turn} (turn : u ∈ s.turns course k) {c : Thread}
    (started : u.child? = some c) :
    c ∈ (s.after course (k + 1)).pool.active ∧
      ∃ body rest, u.thread.stack = .fork body :: rest ∧
        c = Thread.start c.id u.thread.heap body u.thread.symbols := by
  have proper := s.proper_of_mem_turns course turn
  refine ⟨?_, proper.child started⟩
  rw [pool_after_succ, Pool.active_advance, List.mem_filter]
  refine ⟨List.mem_append_right _ ?_, proper.isActive_child started⟩
  exact List.mem_filterMap.mpr ⟨u, turn, started⟩

/-- Threads advance in lock-step. In a run from threads that have just been started, in whatever order the
threads get on, one that came up in round `K` and is active after round `N` has taken one step in each of the
rounds from `K + 1` to `N`, all with success, and no other. One that round `M` retired as completed took one
step in each of the rounds from `K + 1` to `M`; if it was retired as failed, the last one of these failed and
the others succeeded; and it takes none in any later round. At the end of the round in which it came up, a
thread that was started by a fork is to run the body of the fork, has printed nothing and has no file open,
has the variables that its parent had at the fork, and works on the heap of its parent. -/
theorem lockstep_fairness (s : Scheduler) (loaded : s.Loaded) (course : Nat → Course) (N : Nat) :
    (∀ t ∈ (s.after course N).pool.active, ∃ K ≤ N, (∀ r, s.CreatedIn course t.id r ↔ r = K) ∧
      (∀ r ≤ N, s.attempts course t.id r = if K < r then [true] else []) ∧
      s.attemptsThrough course t.id N = List.replicate (N - K) true) ∧
    (∀ M t, (M, t) ∈ s.departures course N → ∃ K < M, (∀ r, s.CreatedIn course t.id r ↔ r = K) ∧
      ((t.status = .completed ∧
        (∀ r, s.attempts course t.id r = if K < r ∧ r ≤ M then [true] else []) ∧
        s.attemptsThrough course t.id N = List.replicate (M - K) true) ∨
      ((∃ e, t.status = .failed e) ∧
        (∀ r, s.attempts course t.id r =
          if K < r ∧ r < M then [true] else if r = M then [false] else []) ∧
        s.attemptsThrough course t.id N = List.replicate (M - K - 1) true ++ [false]))) ∧
    (∀ k, s.turns course k ≠ [] → (s.after course (k + 1)).pool.round = s.pool.round + (k + 1)) ∧
    ∀ k, ∀ u ∈ s.turns course k, ∀ c, u.child? = some c → c ∈ (s.after course (k + 1)).pool.active ∧
      ∃ body rest, u.thread.stack = .fork body :: rest ∧ c.stack = [body] ∧ c.output = [] ∧
        c.files = ∅ ∧ c.symbols = u.thread.symbols ∧ c.heap = u.thread.heap := by
  refine ⟨fun t member => ?_, fun M t departed => loaded.attempts_of_departure course departed,
    fun k turns => loaded.round_of_turns course turns, fun k u turn c started => ?_⟩
  · obtain ⟨K, le, created⟩ := loaded.exists_createdIn course (List.mem_append_left _ member)
    have each (r : Nat) (inside : r ≤ N) :=
      loaded.attempts_until course created (List.mem_map_of_mem member) inside
    exact ⟨K, le, loaded.createdIn_iff course created, each, attemptsThrough_of_all course each⟩
  · obtain ⟨active, body, rest, top, same⟩ := child_at_end course turn started
    refine ⟨active, body, rest, top, ?_⟩
    rw [same]
    exact ⟨rfl, rfl, rfl, rfl, rfl⟩

/-- A thread that starts another in its second round and fails in its third. The other one first steps in
the third round and completes in the fifth. -/
theorem lockstep_fairness_fork_and_failure :
    let program : Stmt := .seq (.fork (.seq .nop .nop)) (.print (.var "x"))
    let s := Scheduler.ofProgram (.blank []) {} program
    let course := fun _ => Course.smooth ⟨2024, 1, 1, 0, 0, 0⟩ [1]
    s.Loaded ∧ s.attemptsThrough course 1 6 = [true, true, false] ∧
    (∃ d ∈ s.departures course 6, d.1 = 5 ∧ d.2.id = 2 ∧ d.2.status = .completed) ∧
    s.CreatedIn course 2 2 ∧ ∀ r, s.attempts course 2 r = if 2 < r ∧ r ≤ 5 then [true] else [] := by
  intro program s course
  have loaded : s.Loaded := (fresh_ofProgram _ _ _).loaded
  have created : s.CreatedIn course 2 2 := by
    change 2 ∈ (s.children course 1).map Thread.id
    decide +kernel
  have left : ∃ d ∈ s.departures course 6, d.1 = 5 ∧ d.2.id = 2 ∧ d.2.status = .completed := by
    decide +kernel
  refine ⟨loaded, by decide +kernel, left, created, ?_⟩
  obtain ⟨⟨M, t⟩, departed, five, two, completed⟩ := left
  dsimp only at five two completed
  subst five
  obtain ⟨K, -, when_, ⟨-, each, -⟩ | ⟨⟨e, failed⟩, -⟩⟩ :=
    (lockstep_fairness s loaded course 6).2.1 5 t departed
  · rw [two] at when_ each
    rwa [← (when_ 2).mp created] at each
  · simp [completed] at failed

end Scheduler

end Lockstep
