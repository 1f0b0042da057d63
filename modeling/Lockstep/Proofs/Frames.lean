import Lockstep.Proofs.Census
import Lockstep.Proofs.Files
import Lockstep.Proofs.Registers

/-!
The frames of a run, and the history that is kept of them.

A round has two frames: one of the threads that are about to be stepped, after the collection, and one of
the threads that it ends with, before those that have ended are retired. The second is put to the history,
which keeps it if it fits into the budget together with the frames that it has kept before. So the history
is told by the frames and the budget alone, and where it has kept the frames of two rounds in a row, the
threads of the second are those that the first left unfinished, followed by the threads that were started
in between.
-/

namespace Lockstep

/-! ### Frames of a round -/

namespace Scheduler

section Round

variable (s : Scheduler) (c : Course)

/-- A scheduler in the middle of a round: the threads have been stepped, and none has been retired since. -/
def stepped : Scheduler :=
  ({ s.retire with pool := s.pool.retire.openRound World.sweep }.logAll c.early).stepAll c.order

@[simp] theorem journal_stepped : (s.stepped c).journal = s.journal := rfl

@[simp] theorem disk_stepped : (s.stepped c).disk = s.roundDisk World.sweep c := rfl

theorem frame_logAll (writings : Nat → Writing) : (s.logAll writings).frame = s.frame := rfl

theorem journal_record : s.record.journal = (s.journal.record s.frame).1 := rfl

theorem frame_stepped :
    (s.stepped c).frame = Frame.ofThreads (s.pool.round + 1)
      ((s.pool.world.sweep s.pool.retire.active).stepTogether (s.roundDisk World.sweep c) c.order
        s.pool.retire.active).1
      (s.pool.listed World.sweep (s.roundDisk World.sweep c) c.order) := by
  rw [← Pool.active_stepAll_openRound]
  rfl

theorem roundWith_of_busy (busy : s.pool.retire.active ≠ []) :
    (s.roundWith World.sweep c).1 = ((s.stepped c).logAll c.late).record.retire := by
  have going : s.retire.pool.active.isEmpty = false := by simpa using busy
  simp only [roundWith, going, Bool.false_eq_true, ↓reduceIte]
  rfl

end Round

/-! ### Frames of a run -/

variable (course : Nat → Course) (s : Scheduler)

/-- The threads of the round that follows `k` others, after the collection and before they are stepped. -/
def opening (k : Nat) : Frame :=
  Frame.ofThreads (k + 1) (s.during course k []).world (s.participants course k)

/-- The threads at the end of the round that follows `k` others: those that have been stepped in it, and
then those that have been started in it. -/
def closing (k : Nat) : Frame :=
  Frame.ofThreads (k + 1) (s.after course (k + 1)).pool.world
    ((s.turns course k).map Turn.settled ++ s.children course k)

variable {course s} {k : Nat}

theorem after_succ_of_no_turns (none : s.turns course k = []) :
    s.after course (k + 1) = (s.after course k).retire := by
  have idle :=
    (Pool.turns_eq_nil_iff World.sweep (s.diskAt course k) (course k).order (s.after course k).pool).mp none
  rw [after_succ, roundWith_of_idle _ _ idle]

theorem frame_stepped_after :
    ((s.after course k).stepped (course k)).frame =
      { s.closing course k with round := (s.after course k).pool.round + 1 } := by
  rw [frame_stepped, closing, pool_after_succ, Pool.world_advance]
  rfl

section Turns

variable (turns : s.turns course k ≠ [])
include turns

theorem after_succ_of_turns :
    s.after course (k + 1) =
      (((s.after course k).stepped (course k)).logAll (course k).late).record.retire := by
  apply roundWith_of_busy
  intro idle
  exact turns ((Pool.turns_eq_nil_iff World.sweep (s.diskAt course k) (course k).order _).mpr idle)

theorem disk_after_succ :
    (s.after course (k + 1)).disk =
      ((s.after course k).journal.logAll (course k).late (s.diskAt course k)
        (s.closing course k).threads).1 := by
  rw [after_succ_of_turns turns, disk_retire, disk_record, disk_logAll, journal_stepped, disk_stepped,
    frame_stepped_after, diskAt]

theorem journal_after_succ (round : (s.after course k).pool.round = k) :
    (s.after course (k + 1)).journal = ((s.after course k).journal.record (s.closing course k)).1 := by
  have frame : (((s.after course k).stepped (course k)).logAll (course k).late).frame =
      s.closing course k := by
    rw [frame_logAll, frame_stepped_after, round]
    rfl
  rw [after_succ_of_turns turns, journal_retire, journal_record, frame, journal_logAll, journal_stepped]

end Turns

end Scheduler

/-! ### Frames that fit -/

namespace Frame

/-- The frames that are kept of some if they are gone through in order: one is kept exactly if its size and
the sizes of those that have been kept before it are no more than the limit. -/
def fitting (limit : Nat) (fs : List Frame) : List Frame :=
  fs.foldl (fun kept f => if total (kept.map size) + f.size ≤ limit then kept ++ [f] else kept) []

variable (limit : Nat) (fs : List Frame)

theorem fitting_concat (f : Frame) :
    fitting limit (fs ++ [f]) =
      if total ((fitting limit fs).map size) + f.size ≤ limit then fitting limit fs ++ [f]
      else fitting limit fs := by
  rw [fitting, List.foldl_append]
  rfl

theorem fitting_sublist : (fitting limit fs).Sublist fs := by
  induction fs using List.reverseRecOn with
  | nil => exact .slnil
  | append_singleton fs f ih =>
    rw [fitting_concat]
    split
    · exact ih.append (List.Sublist.refl [f])
    · exact ih.trans (List.sublist_append_left fs [f])

theorem total_fitting_le : total ((fitting limit fs).map size) ≤ limit := by
  induction fs using List.reverseRecOn with
  | nil => exact Nat.zero_le limit
  | append_singleton fs f ih =>
    rw [fitting_concat]
    split
    next fits => simpa using fits
    · exact ih

end Frame

namespace Journal

variable {j : Journal} {f : Frame}

theorem record_of_fits (fits : total (j.history.frames.map Frame.size) + f.size ≤ j.history.limit) :
    (j.record f).1.history.frames = j.history.frames ++ [f] ∧
      (j.record f).1.history.limit = j.history.limit := by
  rw [← j.history.used_eq] at fits
  simp only [record, History.push, if_pos fits, and_self]

theorem record_of_exceeds (exceeds : ¬total (j.history.frames.map Frame.size) + f.size ≤ j.history.limit) :
    (j.record f).1 = j := by
  rw [← j.history.used_eq] at exceeds
  simp only [record, History.push, if_neg exceeds]

end Journal

/-! ### Frames of consecutive rounds -/

/-- How the last frame of a round goes on from that of the round before. First come the threads that the
earlier frame has as unfinished, in the same order. Then come others with larger numbers; they are unfinished,
have one statement to run, and have printed nothing and opened no file. -/
def Frame.GoesOnTo (f g : Frame) : Prop :=
  ∃ old new, g.threads = old ++ new ∧
    old.map Snapshot.id = (f.threads.filter (!·.finished)).map Snapshot.id ∧
    (∀ x ∈ f.threads, ∀ c ∈ new, x.id < c.id) ∧
    ∀ c ∈ new, c.finished = false ∧ c.stack.length = 1 ∧ c.output = [] ∧ c.files = []

namespace Scheduler

variable {s : Scheduler} (course : Nat → Course)

theorem ids_closing (k : Nat) :
    (s.closing course k).threads.map Snapshot.id =
      (((s.turns course k).map Turn.settled ++ s.children course k).map Thread.id) := by
  simp only [closing, Frame.ofThreads, List.map_map]
  rfl

/-- The threads that a round leaves unfinished are those of the next one. -/
theorem ids_unfinished (k : Nat) :
    ((s.closing course k).threads.filter (!·.finished)).map Snapshot.id =
      (s.after course (k + 1)).pool.active.map Thread.id := by
  rw [pool_after_succ, Pool.active_advance, closing, Frame.ofThreads, List.filter_map, List.map_map]
  simp only [Function.comp_def, Snapshot.ofThread, Bool.not_not]
  rfl

theorem round_after_succ (k : Nat) :
    (s.after course (k + 1)).pool.round =
      (s.after course k).pool.round + if s.turns course k = [] then 0 else 1 := by
  rw [pool_after_succ, Pool.round_advance]
  rfl

theorem round_after_le (start : s.pool.round = 0) (n : Nat) : (s.after course n).pool.round ≤ n := by
  induction n with
  | zero => rw [after_zero, start]
  | succ n ih =>
    rw [round_after_succ]
    split <;> omega

section Loaded

variable (loaded : s.Loaded)
include loaded

theorem Loaded.ids_settled (k : Nat) :
    ((s.turns course k).map Turn.settled).map Thread.id = (s.after course k).pool.active.map Thread.id := by
  rw [← (loaded.tidy_after course k).threads_turns (s.diskAt course k) (course k).order, List.map_map,
    List.map_map]
  apply List.map_congr_left
  intro u turn
  exact (s.proper_of_mem_turns course turn).id_settled

theorem Loaded.id_closing_lt {k : Nat} {x : Snapshot} (member : x ∈ (s.closing course k).threads) :
    x.id < (s.after course (k + 1)).pool.world.nextThread := by
  have listed := List.mem_map_of_mem (f := Snapshot.id) member
  rw [ids_closing, List.map_append, loaded.ids_settled course k] at listed
  rcases List.mem_append.mp listed with old | new
  · obtain ⟨t, before, same⟩ := List.mem_map.mp old
    have known := (loaded.tidy_after course k).numbered t (List.mem_append_left _ before)
    rw [← same]
    exact known.trans_le (nextThread_mono course (Nat.le_succ k))
  · obtain ⟨c, started, same⟩ := List.mem_map.mp new
    rw [← same]
    exact (child_bounds course started).2

theorem Loaded.goesOnTo (k : Nat) : (s.closing course k).GoesOnTo (s.closing course (k + 1)) := by
  let world := (s.after course (k + 2)).pool.world
  let snapshot (t : Thread) := Snapshot.ofThread (world.heap t.heap) t
  have numbers (ts : List Thread) : (ts.map snapshot).map Snapshot.id = ts.map Thread.id := by
    rw [List.map_map]
    rfl
  refine ⟨((s.turns course (k + 1)).map Turn.settled).map snapshot,
    (s.children course (k + 1)).map snapshot, ?_, ?_, ?_, ?_⟩
  · simp only [closing, Frame.ofThreads, List.map_append]
    rfl
  · rw [numbers, loaded.ids_settled, ids_unfinished]
  · intro x before c new
    obtain ⟨t, started, rfl⟩ := List.mem_map.mp new
    exact (loaded.id_closing_lt course before).trans_le (child_bounds course started).1
  · intro c new
    obtain ⟨t, started, rfl⟩ := List.mem_map.mp new
    obtain ⟨u, turn, child⟩ := List.mem_filterMap.mp started
    obtain ⟨body, rest, -, same⟩ := (s.proper_of_mem_turns course turn).child child
    rw [same]
    exact ⟨rfl, rfl, rfl, rfl⟩

/-! ### The history of a run -/

theorem Loaded.turns_eq_nil_of_le {k n : Nat} (le : k ≤ n) (none : s.turns course k = []) :
    s.turns course n = [] := by
  induction n, le using Nat.le_induction with
  | base => exact none
  | succ n _ ih =>
    rw [loaded.turns_eq_nil_iff, pool_after_succ, Pool.active_advance, Pool.listed_of_no_turns ih]
    rfl

/-- The rounds that count are the first ones. -/
theorem Loaded.lt_round_iff (start : s.pool.round = 0) {k n : Nat} (less : k < n) :
    k < (s.after course n).pool.round ↔ s.turns course k ≠ [] := by
  constructor
  · intro counted none
    -- from this round on nothing is counted any more
    have same : (s.after course n).pool.round = (s.after course k).pool.round := by
      refine Nat.le_induction rfl (fun m le ih => ?_) n (Nat.le_of_lt less)
      rw [round_after_succ, if_pos (loaded.turns_eq_nil_of_le course le none), ih, Nat.add_zero]
    have bound := round_after_le course start k
    omega
  · intro turns
    have grows : Monotone fun m => (s.after course m).pool.round :=
      monotone_nat_of_le_succ fun m => by rw [round_after_succ]; exact Nat.le_add_right _ _
    have here := loaded.round_of_turns course turns
    have later : (s.after course (k + 1)).pool.round ≤ (s.after course n).pool.round := grows less
    omega

section History

variable (start : s.pool.round = 0)
include start

theorem Loaded.journal_after_succ {k : Nat} (turns : s.turns course k ≠ []) :
    (s.after course (k + 1)).journal = ((s.after course k).journal.record (s.closing course k)).1 := by
  apply Scheduler.journal_after_succ turns
  rw [loaded.round_after course ((loaded.turns_eq_nil_iff course k).not.mp turns), start, Nat.zero_add]

theorem Loaded.round_succ {k : Nat} (turns : s.turns course k ≠ []) :
    (s.after course k).pool.round = k ∧ (s.after course (k + 1)).pool.round = k + 1 := by
  have before := loaded.round_after course ((loaded.turns_eq_nil_iff course k).not.mp turns)
  have after := loaded.round_of_turns course turns
  omega

theorem Loaded.history_after (new : s.journal.history.frames = []) (n : Nat) :
    (s.after course n).journal.history.limit = s.journal.history.limit ∧
      (s.after course n).journal.history.frames =
        Frame.fitting s.journal.history.limit
          ((List.range (s.after course n).pool.round).map (s.closing course)) := by
  induction n with
  | zero =>
    rw [after_zero, start]
    exact ⟨rfl, new⟩
  | succ n ih =>
    obtain ⟨limit, kept⟩ := ih
    by_cases turns : s.turns course n = []
    · -- a round that does not count leaves no frame
      rw [after_succ_of_no_turns turns]
      exact ⟨limit, kept⟩
    · obtain ⟨before, after⟩ := loaded.round_succ course start turns
      rw [before] at kept
      rw [loaded.journal_after_succ course start turns, after, List.range_succ, List.map_append,
        List.map_singleton, Frame.fitting_concat, ← kept, ← limit]
      split
      next fits =>
        obtain ⟨frames, limit⟩ := Journal.record_of_fits fits
        exact ⟨limit, frames⟩
      next exceeds =>
        rw [Journal.record_of_exceeds exceeds]
        exact ⟨rfl, rfl⟩

end History

end Loaded

/-- The history of a run is made of the frames that fit. Give a new scheduler threads that have just been
started, an empty history and any budget, and let it run, whatever the order is in which the threads of each
round get on. The rounds that count are the first `N`, and have the numbers from one to `N`. Going through
their last frames in order, the history has kept exactly those that fitted into the budget together with the
ones kept before; any other has left it as it was. What has been kept never takes more than the budget. Where
the frames of two rounds in a row have been kept, the second goes on from the first: it has the threads that
the first has as unfinished, and then new ones. -/
theorem history_keeps_what_fits (s : Scheduler) (loaded : s.Loaded) (start : s.pool.round = 0)
    (new : s.journal.history.frames = []) (course : Nat → Course) (n : Nat) :
    let limit := s.journal.history.limit
    let history (m : Nat) := (s.after course m).journal.history
    let N := (s.after course n).pool.round
    let rounds := (List.range N).map (s.closing course)
    ((∀ k < n, k < N ↔ s.turns course k ≠ []) ∧ rounds.map Frame.round = List.range' 1 N) ∧
    ((history n).frames = Frame.fitting limit rounds ∧ (history n).frames.Sublist rounds) ∧
    (∀ k < N,
      let size := total ((history k).frames.map Frame.size) + (s.closing course k).size
      (size ≤ limit → (history (k + 1)).frames = (history k).frames ++ [s.closing course k]) ∧
      (limit < size → history (k + 1) = history k)) ∧
    total ((history n).frames.map Frame.size) ≤ limit ∧
    ∀ f ∈ (history n).frames, ∀ g ∈ (history n).frames, g.round = f.round + 1 → f.GoesOnTo g := by
  intro limit history N rounds
  have kept : (history n).frames = Frame.fitting limit rounds := (loaded.history_after course start new n).2
  have sub : (history n).frames.Sublist rounds := by
    rw [kept]
    exact Frame.fitting_sublist limit rounds
  refine ⟨⟨fun k less => loaded.lt_round_iff course start less, ?_⟩, ⟨kept, sub⟩, fun k counted => ?_, ?_, ?_⟩
  · rw [List.map_map, List.range'_eq_map_range]
    exact List.map_congr_left fun k _ => Nat.add_comm k 1
  · have turns : s.turns course k ≠ [] :=
      (loaded.lt_round_iff course start (counted.trans_le (round_after_le course start n))).mp counted
    have limit_eq : (history k).limit = limit := (loaded.history_after course start new k).1
    simp only [← limit_eq, history, loaded.journal_after_succ course start turns]
    refine ⟨fun fits => (Journal.record_of_fits fits).1, fun exceeds => ?_⟩
    rw [Journal.record_of_exceeds (Nat.not_le.mpr exceeds)]
  · rw [kept]
    exact Frame.total_fitting_le limit rounds
  · intro f first g second next
    obtain ⟨i, -, rfl⟩ := List.mem_map.mp (sub.subset first)
    obtain ⟨j, -, rfl⟩ := List.mem_map.mp (sub.subset second)
    -- the frames have the numbers of their rounds, so the rounds are consecutive
    obtain rfl : j = i + 1 := by
      have numbers : j + 1 = i + 1 + 1 := next
      omega
    exact loaded.goesOnTo course i

/-- A thread that starts another in its second round, and a budget of 800 bytes. The frames of the first two
rounds are kept. That of the third, in which the second thread completes, does not fit any more; that of the
fourth, which has one thread only, does. -/
theorem history_keeps_what_fits_after_a_gap :
    let program := Stmt.ofList [.fork .nop, .nop, .nop]
    let s := ofProgram (.blank []) { history := { limit := 800 } } program
    let course := fun _ => Course.smooth ⟨2024, 1, 1, 0, 0, 0⟩ [1, 1]
    let history := (s.after course 7).journal.history
    s.Loaded ∧ (s.after course 7).pool.round = 5 ∧
    history.frames.map Frame.round = [1, 2, 4] ∧
    history.frames = Frame.fitting 800 ((List.range 5).map (s.closing course)) ∧
    (s.after course 3).journal.history = (s.after course 2).journal.history ∧
    (s.closing course 0).GoesOnTo (s.closing course 1) := by
  intro program s course history
  have loaded : s.Loaded := (fresh_ofProgram _ _ _).loaded
  have count : (s.after course 7).pool.round = 5 := by decide +kernel
  have rounds : history.frames.map Frame.round = [1, 2, 4] := by decide +kernel
  have first : s.closing course 0 ∈ history.frames := by decide +kernel
  have second : s.closing course 1 ∈ history.frames := by decide +kernel
  have exceeds : 800 < total ((s.after course 2).journal.history.frames.map Frame.size) +
      (s.closing course 2).size := by decide +kernel
  obtain ⟨-, ⟨fitting, -⟩, step, -, follow⟩ := history_keeps_what_fits s loaded rfl rfl course 7
  rw [count] at fitting step
  refine ⟨loaded, count, rounds, fitting, ?_,
    follow (s.closing course 0) first (s.closing course 1) second rfl⟩
  simpa only [Nat.reduceAdd] using (step 2 (by decide)).2 exceeds

end Scheduler

end Lockstep
