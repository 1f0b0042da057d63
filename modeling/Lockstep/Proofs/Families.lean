import Lockstep.Proofs.Isolation
import Lockstep.Proofs.Renumbering

/-!
Programs on different heaps do not disturb each other.

A thread starts others on its own heap only, so the threads that descend from some of the first ones can be
told by their heaps. A scheduler that has been given only these first ones goes through the same rounds, if
its threads get on in the same order. Where a log is kept, the two schedulers write different records to it,
but both logs go on from the same point with the time of the first record, and threads do not get past this
line.
-/

namespace Lockstep

namespace Scheduler

variable {s s' : Scheduler} {own : Nat → Bool} {ρ : Nat → Nat} {c c' : Course}

/-! ### Two schedulers side by side -/

/-- What is veiled in the steps of a round stays so, whatever records are written at its end. -/
theorem veiled_roundWith (logPath : s'.journal.logPath = s.journal.logPath)
    (busy : s.pool.retire.active ≠ []) (busy' : s'.pool.retire.active ≠ [])
    (veiled : s.journal.Veiled s.pool.active (s.roundDisk World.sweep c) (s'.roundDisk World.sweep c')) :
    (s.roundWith World.sweep c).1.journal.Veiled (s.roundWith World.sweep c).1.pool.active
      (s.roundWith World.sweep c).1.disk (s'.roundWith World.sweep c').1.disk := by
  obtain ⟨records, -, last⟩ := disk_roundWith World.sweep c busy
  obtain ⟨records', -, last'⟩ := disk_roundWith World.sweep c' busy'
  rw [active_roundWith, last, last']
  have stepped := veiled.listed World.sweep c.order
  exact (stepped.logAll logPath c.late c'.late records records').of_logPath
    (logPath_roundWith World.sweep c)

/-- The threads of the first scheduler are those of the second on some heaps, and read the same from both
disks as long as there are any. -/
structure Alongside (own : Nat → Bool) (ρ : Nat → Nat) (s s' : Scheduler) : Prop where
  pool : s.pool.Embeds own ρ s'.pool
  logPath : s'.journal.logPath = s.journal.logPath
  veiled : s.pool.active ≠ [] → s.journal.Veiled s.pool.active s.disk s'.disk

section Round

variable (tidy : s.pool.Tidy) (tidy' : s'.pool.Tidy)
  (same : c.order.filter (· < (kin own s'.pool.active).length) =
    restrict (s'.pool.active.map fun t => own t.heap) c'.order)
include tidy tidy' same

theorem alongside_roundWith (embeds : s.pool.Embeds own ρ s'.pool)
    (logPath : s'.journal.logPath = s.journal.logPath)
    (reads : s.pool.active ≠ [] → s.journal.Veiled s.pool.active (s.roundDisk World.sweep c)
      (s'.roundDisk World.sweep c')) :
    ∃ τ, (s.roundWith World.sweep c).1.Alongside own τ (s'.roundWith World.sweep c').1 := by
  rw [embeds.active, List.length_map] at same
  -- where there is a thread at all, it reads the same from both disks
  obtain ⟨τ, pool⟩ := embeds.advance tidy tidy' (fun t member ν h =>
    (reads (List.ne_nil_of_mem member)).stepBy member ν h) same
  rw [← pool_fst_roundWith, ← pool_fst_roundWith] at pool
  refine ⟨τ, pool, ?_, fun goesOn => ?_⟩
  · rw [logPath_roundWith, logPath_roundWith, logPath]
  · -- a thread that goes on has been there before, in either list
    have busy : s.pool.active ≠ [] := by
      intro idle
      rw [roundWith_of_idle _ _ (by rw [tidy.retire_eq, idle])] at goesOn
      exact goesOn (by rw [pool_retire, tidy.retire_eq, idle])
    have busy' : s'.pool.active ≠ [] := by
      intro idle
      have none := embeds.active
      rw [idle] at none
      exact busy (List.map_eq_nil_iff.mp none.symm)
    refine veiled_roundWith logPath ?_ ?_ (reads busy)
    · rwa [tidy.retire_eq]
    · rwa [tidy'.retire_eq]

theorem Alongside.roundWith (alongside : s.Alongside own ρ s') :
    ∃ τ, (s.roundWith World.sweep c).1.Alongside own τ (s'.roundWith World.sweep c').1 := by
  refine alongside_roundWith tidy tidy' same alongside.pool alongside.logPath fun busy => ?_
  rw [roundDisk_eq_logAll, roundDisk_eq_logAll]
  exact (alongside.veiled busy).logAll alongside.logPath c.early c'.early _ _

end Round

/-- The scheduler with no more than the given threads in its list. -/
def only (s : Scheduler) (threads : List Thread) : Scheduler :=
  { s with pool := { s.pool with active := threads } }

theorem Loaded.of_sublist (loaded : s.Loaded) {threads : List Thread}
    (sub : threads.Sublist s.pool.active) : (s.only threads).Loaded where
  started t member := loaded.started t (sub.subset member)
  distinct := loaded.distinct.sublist (sub.map Thread.id)
  numbered t member := loaded.numbered t (sub.subset member)
  retired := loaded.retired

theorem roundDisk_of_busy (busy : s.pool.retire.active ≠ []) :
    ∃ x xs, s.roundDisk World.sweep c = (s.journal.logAll c.early s.disk (x :: xs)).1 := by
  obtain ⟨t, ts, first⟩ := List.exists_cons_of_ne_nil busy
  rw [roundDisk_eq_logAll, first]
  exact ⟨_, _, rfl⟩

/-- If there is a log, the first record of both runs is written at the same time, and to its end. -/
def SameFirstRecord (s : Scheduler) (c c' : Course) : Prop :=
  s.journal.logPath ≠ none → c'.early 0 = c.early 0 ∧ (c.early 0).torn = none

section Loaded

variable (loaded : s.Loaded) (own : Nat → Bool)
include loaded

theorem Loaded.kin_loaded : (s.only (kin own s.pool.active)).Loaded :=
  loaded.of_sublist List.filter_sublist

theorem Loaded.embeds : (s.only (kin own s.pool.active)).pool.Embeds own id s.pool where
  world := ⟨fun _ _ => rfl, strictMono_id, fun _ less => less⟩
  active := (List.map_id _).symm
  retired := by
    have none : (s.only (kin own s.pool.active)).pool.retired = [] := loaded.retired
    rw [loaded.retired, none]
    rfl

/-- The first records of both runs begin with the same time. -/
theorem Loaded.veiled_roundDisk (record : s.SameFirstRecord c c') (busy : kin own s.pool.active ≠ []) :
    s.journal.Veiled (kin own s.pool.active)
      ((s.only (kin own s.pool.active)).roundDisk World.sweep c) (s.roundDisk World.sweep c') := by
  cases logPath : s.journal.logPath with
  | none =>
    have still : s.journal.Still s.disk := Journal.still_of_no_log logPath
    have first : (s.only (kin own s.pool.active)).roundDisk World.sweep c = s.disk := by
      rw [roundDisk_eq_logAll]
      exact still.logAll _ _
    rw [first, roundDisk_eq_logAll, still.logAll]
    exact .still still
  | some path =>
    obtain ⟨same, whole⟩ := record (by simp [logPath])
    have inRange (t : Thread) (member : t ∈ kin own s.pool.active) :
        t.files.Every (Handle.InRange s.disk) := by
      rw [loaded.started t (List.mem_filter.mp member).1]
      exact OpenFiles.Every.empty
    have busy' : s.pool.retire.active ≠ [] := by
      rw [loaded.tidy.retire_eq]
      intro idle
      rw [idle] at busy
      exact busy rfl
    have first : (s.only (kin own s.pool.active)).pool.retire.active ≠ [] := by
      rw [(loaded.kin_loaded own).tidy.retire_eq]
      exact busy
    -- neither list of records is empty, and the first records are put behind the same content
    obtain ⟨x, xs, disk⟩ := roundDisk_of_busy (c := c) first
    obtain ⟨y, ys, disk'⟩ := roundDisk_of_busy (c := c') busy'
    rw [disk, disk']
    exact s.journal.veiled_of_begun inRange c.early c'.early same (Writing.begun_of_whole whole x)
      (Writing.begun_of_whole whole y) xs ys

variable {course alone : Nat → Course} (record : s.SameFirstRecord (alone 0) (course 0))
include record

theorem Loaded.alongside_after {n : Nat}
    (same : ∀ k ≤ n, (alone k).order.filter (· < (kin own (s.after course k).pool.active).length) =
      restrict ((s.after course k).pool.active.map fun t => own t.heap) (course k).order) :
    ∃ ρ, ((s.only (kin own s.pool.active)).after alone (n + 1)).Alongside own ρ
      (s.after course (n + 1)) := by
  induction n with
  | zero =>
    -- before the first round there is no barrier yet, so it is this round that raises it
    exact alongside_roundWith (loaded.kin_loaded own).tidy loaded.tidy (same 0 (Nat.le_refl 0))
      (loaded.embeds own) rfl (loaded.veiled_roundDisk own record)
  | succ n ih =>
    obtain ⟨ρ, alongside⟩ := ih fun k le => same k (Nat.le_succ_of_le le)
    exact alongside.roundWith ((loaded.kin_loaded own).tidy_after alone _) (loaded.tidy_after course _)
      (same (n + 1) (Nat.le_refl _))

theorem Loaded.embeds_after {n : Nat}
    (same : ∀ k < n, (alone k).order.filter (· < (kin own (s.after course k).pool.active).length) =
      restrict ((s.after course k).pool.active.map fun t => own t.heap) (course k).order) :
    ∃ ρ, ((s.only (kin own s.pool.active)).after alone n).pool.Embeds own ρ
      (s.after course n).pool := by
  cases n with
  | zero => exact ⟨id, loaded.embeds own⟩
  | succ n =>
    obtain ⟨ρ, alongside⟩ := loaded.alongside_after own record fun k le => same k (Nat.lt_succ_of_le le)
    exact ⟨ρ, alongside.pool⟩

end Loaded

/-! ### Descent -/

variable (course : Nat → Course)

/-- The numbers of some threads and of those that descend from them, as far as they have been started in the
first `n` rounds. -/
def offspring (s : Scheduler) (founders : List Nat) : Nat → List Nat
  | 0 => founders
  | n + 1 =>
    let line := s.offspring founders n
    line ++ (((s.turns course n).filter fun u => u.thread.id ∈ line).filterMap Turn.child?).map Thread.id

theorem mem_kin_ids_iff {threads : List Thread} (distinct : (threads.map Thread.id).Nodup) {t : Thread}
    (member : t ∈ threads) : t.id ∈ (kin own threads).map Thread.id ↔ own t.heap := by
  constructor
  · intro listed
    obtain ⟨u, found, same⟩ := List.mem_map.mp listed
    obtain ⟨there, owned⟩ := List.mem_filter.mp found
    rwa [List.inj_on_of_nodup_map distinct there member same] at owned
  · intro owned
    exact List.mem_map_of_mem (List.mem_filter.mpr ⟨member, owned⟩)

section Descent

variable (loaded : s.Loaded)
include loaded

theorem Loaded.offspring_succ {founders : List Nat} {n : Nat}
    (known : ∀ t ∈ (s.after course n).pool.active, t.id ∈ s.offspring course founders n ↔ own t.heap) :
    s.offspring course founders (n + 1) =
      s.offspring course founders n ++ (kin own (s.children course n)).map Thread.id := by
  have same : (s.turns course n).filter (fun u => u.thread.id ∈ s.offspring course founders n) =
      kinTurns own (s.turns course n) := by
    apply List.filter_congr
    intro u turn
    rw [Bool.eq_iff_iff, decide_eq_true_iff]
    exact known u.thread (loaded.thread_mem_active course turn)
  rw [offspring, same, ← Pool.kin_children fun u turn => s.proper_of_mem_turns course turn]
  rfl

theorem Loaded.offspring_lt (own : Nat → Bool) (n : Nat) :
    ∀ i ∈ s.offspring course ((kin own s.pool.active).map Thread.id) n,
      i < (s.after course n).pool.world.nextThread := by
  induction n with
  | zero =>
    intro i member
    obtain ⟨t, found, rfl⟩ := List.mem_map.mp member
    exact loaded.numbered t (List.mem_filter.mp found).1
  | succ n ih =>
    intro i member
    rcases List.mem_append.mp member with older | newer
    · exact Nat.lt_of_lt_of_le (ih i older) (nextThread_mono course (Nat.le_succ n))
    · obtain ⟨c, found, rfl⟩ := List.mem_map.mp newer
      obtain ⟨u, turn, child⟩ := List.mem_filterMap.mp found
      have started : c ∈ s.children course n :=
        List.mem_filterMap.mpr ⟨u, (List.mem_filter.mp turn).1, child⟩
      exact (child_bounds course started).2

/-- A thread after a round had a turn in it, or was started in it, or had been retired before. -/
theorem Loaded.cases_after_succ {n : Nat} {t : Thread}
    (member : t ∈ (s.after course (n + 1)).pool.active ++ (s.after course (n + 1)).pool.retired) :
    (∃ u ∈ (s.after course n).pool.active ++ (s.after course n).pool.retired,
      t.id = u.id ∧ t.heap = u.heap) ∨ t ∈ s.children course n := by
  have listed : t ∈ (s.after course n).pool.listed World.sweep (s.diskAt course n) (course n).order ∨
      t ∈ (s.after course n).pool.retired := by
    rcases List.mem_append.mp member with active | retired
    · rw [pool_after_succ, Pool.active_advance] at active
      exact .inl (List.mem_filter.mp active).1
    · rw [loaded.retired_succ course n] at retired
      rcases List.mem_append.mp retired with before | ended
      · exact .inr before
      · exact .inl (List.mem_filter.mp ended).1
  rcases listed with listed | before
  · rcases List.mem_append.mp listed with settled | started
    · obtain ⟨u, turn, rfl⟩ := List.mem_map.mp settled
      have proper := s.proper_of_mem_turns course turn
      exact .inl ⟨u.thread, List.mem_append_left _ (loaded.thread_mem_active course turn),
        proper.id_settled, proper.heap_settled⟩
    · exact .inr started
  · exact .inl ⟨t, List.mem_append_right _ before, rfl, rfl⟩

/-- The threads that descend from the first ones on some heaps are the threads on these heaps. -/
theorem Loaded.mem_offspring_iff (own : Nat → Bool) (n : Nat) :
    ∀ t ∈ (s.after course n).pool.active ++ (s.after course n).pool.retired,
      t.id ∈ s.offspring course ((kin own s.pool.active).map Thread.id) n ↔ own t.heap := by
  induction n with
  | zero =>
    rw [after_zero, loaded.retired, List.append_nil, offspring]
    exact fun t member => mem_kin_ids_iff loaded.distinct member
  | succ n known =>
    intro t member
    rw [loaded.offspring_succ course fun t active => known t (List.mem_append_left _ active),
      List.mem_append]
    rcases loaded.cases_after_succ course member with ⟨u, before, id, heap⟩ | started
    · -- numbers that were there before the round are not given again
      rw [id, heap, ← known u before, or_iff_left]
      intro newer
      obtain ⟨c, found, same⟩ := List.mem_map.mp newer
      have bound := (loaded.tidy_after course n).numbered u before
      have bound' := (child_bounds course (List.mem_filter.mp found).1).1
      omega
    · rw [mem_kin_ids_iff (s.distinct_children course n) started, or_iff_right]
      intro older
      have bound := loaded.offspring_lt course own n _ older
      have bound' := (child_bounds course started).1
      omega

end Descent

/-! ### Orders of both runs -/

/-- Which threads of the round that follows `k` others descend from the threads `F`. -/
def descends (s : Scheduler) (F : List Thread) (k : Nat) : List Bool :=
  (s.after course k).pool.active.map fun t => t.id ∈ s.offspring course (F.map Thread.id) k

theorem Loaded.descends_eq (loaded : s.Loaded) (own : Nat → Bool) (k : Nat) :
    s.descends course (kin own s.pool.active) k =
      (s.after course k).pool.active.map fun t => own t.heap := by
  refine List.map_congr_left fun t member => ?_
  rw [Bool.eq_iff_iff, decide_eq_true_iff]
  exact loaded.mem_offspring_iff course own k t (List.mem_append_left _ member)

/-- Two runs, of a scheduler and of one that has been given the threads `F` only, in which the threads that
descend from `F` get on in the same order in the round that follows `k` others: what is left of the order of
the first run for these threads is the order of the second, as far as there are threads at its places. -/
def SameOrder (s : Scheduler) (F : List Thread) (course alone : Nat → Course) (k : Nat) : Prop :=
  (alone k).order.filter (· < (s.descends course F k).count true) =
    restrict (s.descends course F k) (course k).order

/-- A run in which the course of each round is laid down by a rule when the round begins. -/
def steered (s : Scheduler) (rule : Nat → Scheduler → Course) : Nat → Scheduler
  | 0 => s
  | k + 1 => ((s.steered rule k).roundWith World.sweep (rule k (s.steered rule k))).1

theorem after_steered (s : Scheduler) (rule : Nat → Scheduler → Course) (n : Nat) :
    s.after (fun k => rule k (s.steered rule k)) n = s.steered rule n := by
  induction n with
  | zero => rfl
  | succ n ih => rw [after_succ, ih, steered]

/-- For every run of the family alone there is one of the whole scheduler with the same order. -/
theorem Loaded.exists_sameOrder (loaded : s.Loaded) (own : Nat → Bool) (alone : Nat → Course) :
    ∃ order : Nat → List Nat, ∀ k, s.SameOrder (kin own s.pool.active)
      (fun k => { alone k with order := order k }) alone k := by
  -- the order of a round is chosen when the list of its threads is known
  have choice (k : Nat) (t : Scheduler) :=
    exists_restrict (t.pool.active.map fun t => own t.heap) (alone k).order
  choose whole left using choice
  let rule (k : Nat) (t : Scheduler) : Course := { alone k with order := whole k t }
  refine ⟨fun k => whole k (s.steered rule k), fun k => ?_⟩
  have reached : s.after (fun k => { alone k with order := whole k (s.steered rule k) }) k =
      s.steered rule k := s.after_steered rule k
  rw [SameOrder, loaded.descends_eq, reached]
  exact (left k (s.steered rule k)).symm

end Scheduler

end Lockstep
