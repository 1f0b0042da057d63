import Lockstep.Proofs.Turns

/-!
No thread is lost, duplicated or put out of order.

A round splits the list of threads into those that go on and those that have ended, and puts the threads that
it started behind the others. Every number that was there before the round is there after it, and the numbers
of the new threads come on top. Threads never change places, so the lists are always in the order in which
threads have joined. New numbers are larger than all others, but the threads of one round are numbered as
their forks happen to follow one another, while they join in the order of the threads that started them.
-/

namespace Lockstep

/-- How a pool stands between two rounds: all threads of the list can be stepped, no two threads have the
same number, and the next number is larger than all of them. -/
structure Pool.Tidy (p : Pool) : Prop where
  active : ∀ t ∈ p.active, t.isActive
  numbered : ∀ t ∈ p.active ++ p.retired, t.id < p.world.nextThread
  distinct : ((p.active ++ p.retired).map Thread.id).Nodup

namespace Pool

theorem answer_advance (sweep : World → List Thread → World) (disk : Disk) (order : List Nat) (p : Pool) :
    (p.advance sweep disk order).2 = !(p.advance sweep disk order).1.active.isEmpty := by
  simp only [advance]
  split
  next idle => simp [idle]
  · rfl

namespace Tidy

variable {p : Pool} (disk : Disk) (order : List Nat)

theorem retire_eq (tidy : p.Tidy) : p.retire = p := by
  have all : p.active.filter (·.isActive) = p.active := List.filter_eq_self.mpr tidy.active
  have none : p.active.filter (!·.isActive) = [] := by
    simpa [List.filter_eq_nil_iff] using tidy.active
  simp only [Pool.retire, all, none, List.append_nil]

theorem distinct_active (tidy : p.Tidy) : (p.active.map Thread.id).Nodup := by
  have distinct := tidy.distinct
  rw [List.map_append, List.nodup_append] at distinct
  exact distinct.1

theorem not_active_of_retired (tidy : p.Tidy) {t : Thread} (retired : t ∈ p.retired) :
    t.id ∉ p.active.map Thread.id := by
  intro active
  have distinct := tidy.distinct
  rw [List.map_append, List.nodup_append] at distinct
  exact distinct.2.2 t.id active t.id (List.mem_map_of_mem retired) rfl

theorem threads_turns (tidy : p.Tidy) : (p.turns World.sweep disk order).map Turn.thread = p.active := by
  rw [turns, World.map_thread_turns, tidy.retire_eq]

theorem ids_listed (tidy : p.Tidy) :
    (p.listed World.sweep disk order).map Thread.id =
      p.active.map Thread.id ++ (p.children World.sweep disk order).map Thread.id := by
  have settled : ((p.turns World.sweep disk order).map Turn.settled).map Thread.id =
      ((p.turns World.sweep disk order).map Turn.thread).map Thread.id := by
    simp only [List.map_map]
    apply List.map_congr_left
    intro u member
    exact (World.proper_of_mem_turns _ _ _ member).id_settled
  rw [listed, List.map_append, settled, tidy.threads_turns]

/-- A round keeps every number and adds those of the threads that it starts. -/
theorem ids_advance (tidy : p.Tidy) :
    (((p.advance World.sweep disk order).1.active ++ (p.advance World.sweep disk order).1.retired).map
        Thread.id).Perm
      ((p.active ++ p.retired).map Thread.id ++ (p.children World.sweep disk order).map Thread.id) := by
  have split := List.filter_append_perm (·.isActive) (p.listed World.sweep disk order)
  rw [active_advance, retired_advance, tidy.retire_eq]
  calc ((p.listed World.sweep disk order).filter (·.isActive) ++
        (p.retired ++ (p.listed World.sweep disk order).filter (!·.isActive))).map Thread.id
      |>.Perm ((p.listed World.sweep disk order ++ p.retired).map Thread.id) := by
        apply List.Perm.map
        refine List.Perm.trans ?_ (split.append_right p.retired)
        rw [List.append_assoc]
        exact List.Perm.append_left _ List.perm_append_comm
    _ = p.active.map Thread.id ++ (p.children World.sweep disk order).map Thread.id ++
        p.retired.map Thread.id := by
        rw [List.map_append, tidy.ids_listed disk order]
    _ |>.Perm ((p.active ++ p.retired).map Thread.id ++
        (p.children World.sweep disk order).map Thread.id) := by
        rw [List.map_append, List.append_assoc, List.append_assoc]
        exact List.Perm.append_left _ List.perm_append_comm

theorem advance (tidy : p.Tidy) : (p.advance World.sweep disk order).1.Tidy where
  active := by
    intro t member
    rw [active_advance] at member
    exact (List.mem_filter.mp member).2
  numbered := by
    intro t member
    have known := (tidy.ids_advance disk order).mem_iff.mp (List.mem_map_of_mem member)
    rw [nextThread_advance]
    rcases List.mem_append.mp known with old | new
    · obtain ⟨u, there, same⟩ := List.mem_map.mp old
      have below := tidy.numbered u there
      omega
    · rw [(p.ids_children disk order).mem_iff, List.mem_range'_1] at new
      exact new.2
  distinct := by
    rw [(tidy.ids_advance disk order).nodup_iff, List.nodup_append]
    refine ⟨tidy.distinct, ?_, ?_⟩
    · rw [(p.ids_children disk order).nodup_iff]
      exact List.nodup_range'
    · intro old isOld new isNew same
      obtain ⟨t, there, rfl⟩ := List.mem_map.mp isOld
      have below := tidy.numbered t there
      rw [(p.ids_children disk order).mem_iff, List.mem_range'_1] at isNew
      omega

end Tidy

end Pool

/-! ### Runs -/

namespace Scheduler

variable {s : Scheduler} (course : Nat → Course)

/-- The threads that are started in the first `n` rounds. -/
def forks (s : Scheduler) (n : Nat) : List Thread :=
  (List.range n).flatMap (s.children course)

/-- The threads that are retired in the first `n` rounds, each with the number of its round. -/
def departures (s : Scheduler) (n : Nat) : List (Nat × Thread) :=
  (List.range n).flatMap fun k => (s.leavers course k).map fun t => (k + 1, t)

/-- The numbers of all threads up to the end of `n` rounds, in the order in which they have joined the list:
those that were there at first, and then round by round those that were started, in the order of the threads
that started them. -/
def joined (s : Scheduler) (n : Nat) : List Nat :=
  s.pool.active.map Thread.id ++ (s.forks course n).map Thread.id

/-- The thread with the number `a` has joined before that with the number `b`. -/
def JoinedBefore (s : Scheduler) (n a b : Nat) : Prop :=
  [a, b].Sublist (s.joined course n)

/-- The threads with the numbers `a` and `b` have been started in one round. -/
def StartedTogether (s : Scheduler) (a b : Nat) : Prop :=
  ∃ k, a ∈ (s.children course k).map Thread.id ∧ b ∈ (s.children course k).map Thread.id

theorem joined_succ (s : Scheduler) (n : Nat) :
    s.joined course (n + 1) = s.joined course n ++ (s.children course n).map Thread.id := by
  rw [joined, forks, List.range_succ, List.flatMap_append, List.flatMap_singleton, List.map_append,
    ← List.append_assoc]
  rfl

theorem joined_mono (s : Scheduler) {m n : Nat} (le : m ≤ n) :
    (s.joined course m).Sublist (s.joined course n) := by
  induction n, le using Nat.le_induction with
  | base => exact .refl _
  | succ n _ ih =>
    rw [joined_succ]
    exact ih.trans (List.sublist_append_left _ _)

theorem nextThread_mono {m n : Nat} (le : m ≤ n) :
    (s.after course m).pool.world.nextThread ≤ (s.after course n).pool.world.nextThread := by
  refine monotone_nat_of_le_succ (f := fun n => (s.after course n).pool.world.nextThread) ?_ le
  intro n
  rw [pool_after_succ, Pool.nextThread_advance]
  exact Nat.le_add_right _ _

/-- New threads have the numbers between the next one before the round and the next one after it. -/
theorem child_bounds {n : Nat} {c : Thread} (started : c ∈ s.children course n) :
    (s.after course n).pool.world.nextThread ≤ c.id ∧
      c.id < (s.after course (n + 1)).pool.world.nextThread := by
  have listed := List.mem_map_of_mem (f := Thread.id) started
  rw [children, (Pool.ids_children _ _ _).mem_iff, List.mem_range'_1] at listed
  rwa [pool_after_succ, Pool.nextThread_advance]

theorem distinct_children (s : Scheduler) (n : Nat) : ((s.children course n).map Thread.id).Nodup := by
  rw [children, (Pool.ids_children _ _ _).nodup_iff]
  exact List.nodup_range'

namespace Loaded

variable (loaded : s.Loaded)
include loaded

theorem tidy : s.pool.Tidy where
  active := by
    intro t member
    rw [loaded.started t member]
    exact Thread.isActive_start _ _ _ _
  numbered := by
    rw [loaded.retired, List.append_nil]
    exact loaded.numbered
  distinct := by
    rw [loaded.retired, List.append_nil]
    exact loaded.distinct

theorem tidy_after (n : Nat) : (s.after course n).pool.Tidy :=
  roundsWith_invariant World.sweep (fun disk order _ tidy => tidy.advance disk order) course loaded.tidy n

theorem thread_mem_active {k : Nat} {u : Turn} (turn : u ∈ s.turns course k) :
    u.thread ∈ (s.after course k).pool.active := by
  rw [← (loaded.tidy_after course k).threads_turns (s.diskAt course k) (course k).order]
  exact List.mem_map_of_mem turn

theorem retired_succ (k : Nat) :
    (s.after course (k + 1)).pool.retired = (s.after course k).pool.retired ++
      ((s.after course k).pool.listed World.sweep (s.diskAt course k) (course k).order).filter
        (!·.isActive) := by
  rw [pool_after_succ, Pool.retired_advance, (loaded.tidy_after course k).retire_eq]

theorem leavers_eq (k : Nat) :
    s.leavers course k = ((s.after course k).pool.listed World.sweep
      (s.diskAt course k) (course k).order).filter (!·.isActive) := by
  rw [leavers, loaded.retired_succ course k, List.drop_left]

theorem retired_mono {m n : Nat} (le : m ≤ n) {t : Thread}
    (retired : t ∈ (s.after course m).pool.retired) : t ∈ (s.after course n).pool.retired := by
  induction n, le using Nat.le_induction with
  | base => exact retired
  | succ n _ ih =>
    rw [loaded.retired_succ course n]
    exact List.mem_append_left _ ih

theorem ids_after (n : Nat) :
    (((s.after course n).pool.active ++ (s.after course n).pool.retired).map Thread.id).Perm
      (s.joined course n) := by
  induction n with
  | zero => simp [after_zero, joined, forks, loaded.retired]
  | succ n ih =>
    have round := (loaded.tidy_after course n).ids_advance (s.diskAt course n) (course n).order
    rw [pool_after_succ, joined_succ]
    exact round.trans (ih.append_right _)

theorem joined_numbered {n a : Nat} (member : a ∈ s.joined course n) :
    a < (s.after course n).pool.world.nextThread := by
  obtain ⟨t, there, rfl⟩ := List.mem_map.mp ((loaded.ids_after course n).mem_iff.mpr member)
  exact (loaded.tidy_after course n).numbered t there

/-- Threads do not change places: the active ones are in the order in which they have joined. -/
theorem active_sublist (n : Nat) :
    ((s.after course n).pool.active.map Thread.id).Sublist (s.joined course n) := by
  induction n with
  | zero => simp [after_zero, joined, forks]
  | succ n ih =>
    rw [pool_after_succ, Pool.active_advance, joined_succ]
    refine (List.filter_sublist.map _).trans ?_
    rw [(loaded.tidy_after course n).ids_listed]
    exact ih.append_right _

/-- Neither do those that leave in one round. -/
theorem leavers_sublist (k : Nat) :
    ((s.leavers course k).map Thread.id).Sublist (s.joined course (k + 1)) := by
  rw [loaded.leavers_eq, joined_succ]
  refine (List.filter_sublist.map _).trans ?_
  rw [(loaded.tidy_after course k).ids_listed]
  exact (loaded.active_sublist course k).append_right _

theorem map_snd_departures (n : Nat) :
    (s.departures course n).map Prod.snd = (s.after course n).pool.retired := by
  induction n with
  | zero => simp [departures, after_zero, loaded.retired]
  | succ n ih =>
    rw [departures, List.range_succ, List.flatMap_append, List.map_append, List.flatMap_singleton,
      List.map_map, loaded.retired_succ course n, ← loaded.leavers_eq, ← ih]
    simp [departures, Function.comp_def]

/-- The retired threads are in the order of their rounds, those of one round as they have joined. -/
theorem departures_ordered (n : Nat) :
    (s.departures course n).Pairwise fun a b =>
      a.1 < b.1 ∨ a.1 = b.1 ∧ s.JoinedBefore course n a.2.id b.2.id := by
  rw [departures, List.pairwise_flatMap]
  constructor
  · intro k inside
    have joined := (loaded.leavers_sublist course k).trans (s.joined_mono course (List.mem_range.mp inside))
    have ordered : ((s.leavers course k).map Thread.id).Pairwise (s.JoinedBefore course n) :=
      List.pairwise_iff_forall_sublist.mpr fun pair => pair.trans joined
    exact List.pairwise_map.mpr ((List.pairwise_map.mp ordered).imp fun before => .inr ⟨rfl, before⟩)
  · -- an earlier round comes before a later one
    refine List.pairwise_lt_range.imp fun earlier a first b second => .inl ?_
    obtain ⟨t, -, rfl⟩ := List.mem_map.mp first
    obtain ⟨u, -, rfl⟩ := List.mem_map.mp second
    exact Nat.succ_lt_succ earlier

/-! ### The number of a round -/

theorem turns_eq_nil_iff (k : Nat) :
    s.turns course k = [] ↔ (s.after course k).pool.active = [] := by
  rw [Scheduler.turns, Pool.turns_eq_nil_iff, (loaded.tidy_after course k).retire_eq]

theorem round_after {k : Nat} (busy : (s.after course k).pool.active ≠ []) :
    (s.after course k).pool.round = s.pool.round + k := by
  induction k with
  | zero => rfl
  | succ k ih =>
    -- a thread is active after the round, so there were turns in it, so there was one before it
    have turns : s.turns course k ≠ [] := by
      intro none
      rw [pool_after_succ, Pool.active_advance, Pool.listed_of_no_turns none] at busy
      exact busy rfl
    rw [pool_after_succ, Pool.round_advance, if_neg (by exact turns),
      ih ((loaded.turns_eq_nil_iff course k).not.mp turns), Nat.add_assoc]

theorem round_of_turns {k : Nat} (turns : s.turns course k ≠ []) :
    (s.after course (k + 1)).pool.round = s.pool.round + (k + 1) := by
  have before := (loaded.turns_eq_nil_iff course k).not.mp turns
  rw [pool_after_succ, Pool.round_advance, if_neg (by exact turns), loaded.round_after course before,
    Nat.add_assoc]

/-- The number that a thread is retired with is that of the round. -/
theorem round_of_departure {n r : Nat} {t : Thread} (left : (r, t) ∈ s.departures course n) :
    r ≤ n ∧ (s.after course r).pool.round = s.pool.round + r := by
  simp only [departures, List.mem_flatMap, List.mem_range, List.mem_map, Prod.mk.injEq] at left
  obtain ⟨k, inside, u, leaver, rfl, rfl⟩ := left
  refine ⟨inside, loaded.round_of_turns course fun none => ?_⟩
  rw [loaded.leavers_eq course k, Pool.listed_of_no_turns none] at leaver
  exact List.not_mem_nil leaver

end Loaded

/-! ### The order of the numbers -/

section Fresh

variable (fresh : s.Fresh)
include fresh

/-- Threads join in the order of their numbers, except for those that are started in one round. -/
theorem Fresh.joined_ordered (n : Nat) :
    (s.joined course n).Pairwise fun a b => a < b ∨ s.StartedTogether course a b := by
  induction n with
  | zero =>
    simp only [joined, forks, List.range_zero, List.flatMap_nil, List.map_nil, List.append_nil]
    exact fresh.ordered.imp .inl
  | succ n ih =>
    rw [joined_succ, List.pairwise_append]
    refine ⟨ih, List.pairwise_of_forall_mem_list fun a first b second => .inr ⟨n, first, second⟩, ?_⟩
    -- old numbers are below the next one, new numbers are not
    intro a old b new
    obtain ⟨c, started, rfl⟩ := List.mem_map.mp new
    have below := fresh.loaded.joined_numbered course old
    have above := (child_bounds course started).1
    exact .inl (Nat.lt_of_lt_of_le below above)

theorem Fresh.lt_of_joinedBefore {n a b : Nat} (before : s.JoinedBefore course n a b) :
    a < b ∨ s.StartedTogether course a b :=
  List.pairwise_iff_forall_sublist.mp (fresh.joined_ordered course n) before

end Fresh

theorem fresh_ofProgram (disk : Disk) (journal : Journal) (program : Stmt) :
    (ofProgram disk journal program).Fresh :=
  (fresh_empty _ disk journal).add (({} : World).launch program).2 rfl
    (fun _ member => absurd member List.not_mem_nil) (Nat.lt_succ_self 1)

/-! ### Running to the end -/

theorem answer_round (c : Course) : (s.round c).2 = !(s.round c).1.pool.active.isEmpty := by
  have answer := s.pool.answer_advance World.sweep (s.roundDisk World.sweep c) c.order
  rw [← pool_roundWith] at answer
  exact answer

theorem run_eq_after {course : Nat → Course} {n fuel : Nat} {s' : Scheduler}
    (ended : (s.after course n).run course fuel n = some s') :
    ∃ m, n ≤ m ∧ s' = s.after course m ∧ s'.pool.active = [] := by
  induction fuel generalizing n with
  | zero => simp [run] at ended
  | succ fuel ih =>
    simp only [run] at ended
    split at ended
    next more =>
      obtain ⟨m, le, same, idle⟩ := ih (n := n + 1) ended
      exact ⟨m, by omega, same, idle⟩
    next last =>
      cases ended
      refine ⟨n + 1, Nat.le_succ n, rfl, ?_⟩
      simpa using ((s.after course n).answer_round (course n)).symm.trans (Bool.eq_false_iff.mpr last)

end Scheduler

end Lockstep
