import Lockstep.Proofs.Frames
import Lockstep.Proofs.Selection

/-!
The number of the round on the screen.

The status bar counts the rounds of the history, while a frame carries the number that its round had in the
run. A round whose frame did not fit into the budget is missing in the history and is not counted, though the
history may go on with a later one. So the bar shows how many rounds have been kept up to the one on the
screen, which is at most the number of that round, and is equal to it exactly if no round up to it has been
passed over.
-/

namespace Lockstep

/-! ### Ranks in an increasing list -/

section Rank

variable {ks : List Nat} (sorted : ks.Pairwise (· < ·))
include sorted

theorem filter_le_subperm_range (k : Nat) : (ks.filter (· ≤ k)).Subperm (List.range (k + 1)) := by
  have distinct : ks.Nodup := sorted.imp Nat.ne_of_lt
  apply (distinct.filter _).subperm
  intro j member
  simpa [Nat.lt_succ_iff] using (List.mem_filter.mp member).2

variable {i k : Nat} (place : ks[i]? = some k)
include place

/-- The numbers up to one of the list are those that stand before it, and itself. -/
theorem length_filter_le_of_sorted : (ks.filter (· ≤ k)).length = i + 1 := by
  induction ks generalizing i with
  | nil => simp at place
  | cons a rest ih =>
    obtain ⟨above, sorted⟩ := List.pairwise_cons.mp sorted
    cases i with
    | zero =>
      obtain rfl : a = k := by simpa using place
      have none : rest.filter (· ≤ a) = [] := by
        rw [List.filter_eq_nil_iff]
        intro b member
        simpa using above b member
      simp [none]
    | succ i =>
      have later : rest[i]? = some k := by simpa using place
      have less : a < k := above k (List.mem_of_getElem? later)
      rw [List.filter_cons_of_pos (by simpa using less.le), List.length_cons, ih sorted later]

theorem index_le_of_sorted : i ≤ k := by
  have few := (filter_le_subperm_range sorted k).length_le
  rw [length_filter_le_of_sorted sorted place, List.length_range] at few
  omega

/-- A number is at the index that is equal to it exactly if no smaller number is missing. -/
theorem index_eq_iff_of_sorted : i = k ↔ ∀ j ≤ k, j ∈ ks := by
  have rank := length_filter_le_of_sorted sorted place
  constructor
  · intro same j le
    have all : (ks.filter (· ≤ k)).Perm (List.range (k + 1)) := by
      apply (filter_le_subperm_range sorted k).perm_of_length_le
      rw [rank, same, List.length_range]
    have member := all.mem_iff.mpr (List.mem_range.mpr (Nat.lt_succ_of_le le))
    exact (List.mem_filter.mp member).1
  · intro all
    have many : (List.range (k + 1)).Subperm (ks.filter (· ≤ k)) := by
      apply List.nodup_range.subperm
      intro j member
      have le : j ≤ k := Nat.le_of_lt_succ (List.mem_range.mp member)
      exact List.mem_filter.mpr ⟨all j le, by simpa using le⟩
    have enough := many.length_le
    have bound := index_le_of_sorted sorted place
    rw [rank, List.length_range] at enough
    omega

end Rank

/-! ### Rounds that have been kept -/

theorem Frame.fitting_of_total_le {limit : Nat} {fs : List Frame} (fits : total (fs.map size) ≤ limit) :
    fitting limit fs = fs := by
  induction fs using List.reverseRecOn with
  | nil => rfl
  | append_singleton fs f ih =>
    rw [List.map_append, total_append, List.map_singleton, total_cons, total_nil, Nat.add_zero] at fits
    rw [fitting_concat, ih (Nat.le_trans (Nat.le_add_right _ _) fits), if_pos fits]

namespace Scheduler

variable {s : Scheduler} (course : Nat → Course)

/-- The history has the last frames of some rounds, in order. -/
theorem Loaded.exists_kept (loaded : s.Loaded) (start : s.pool.round = 0)
    (new : s.journal.history.frames = []) (n : Nat) :
    ∃ ks : List Nat, ks.Sublist (List.range (s.after course n).pool.round) ∧
      (s.after course n).journal.history.frames = ks.map (s.closing course) := by
  have kept := (loaded.history_after course start new n).2
  apply List.sublist_map_iff.mp
  rw [kept]
  exact Frame.fitting_sublist _ _

/-- The number on the screen is that of the round on the screen exactly if no round up to this one has been
passed over. Give a new scheduler threads that have just been started, an empty history and any budget, run
any number of rounds, whatever the order is in which the threads of each round get on, and look at the history
with any moves of the viewer. The status bar shows the number of rounds that the history has up to the one on
the screen. This is at most the number that the round had in the run, and equal to it under the given
condition; in particular if all rounds fit into the budget together. -/
theorem round_number_right_iff_none_missing (s : Scheduler) (loaded : s.Loaded) (start : s.pool.round = 0)
    (new : s.journal.history.frames = []) (course : Nat → Course) (n : Nat) (moves : List Viewer.Move) :
    let rounds := (List.range (s.after course n).pool.round).map (s.closing course)
    let frames := (s.after course n).journal.history.frames
    let v := (Viewer.ofHistory frames).run moves
    let number := StatusBar.roundNumber v
    (∃ rest, StatusBar.left v = Row.ofLine (StatusBar.badge Palette.accent)
      (" Round " ++ number.repr ++ "/" ++ frames.length.repr ++ " ") ++ rest) ∧
    ∀ r, v.round? = some r →
      (r ∈ rounds ∧ r = s.closing course (r.round - 1) ∧ ∀ t, v.thread? = some t → t ∈ r.threads) ∧
      number = (frames.filter (·.round ≤ r.round)).length ∧
      number ≤ r.round ∧
      (number = r.round ↔ ∀ k < r.round, s.closing course k ∈ frames) ∧
      (total (rounds.map Frame.size) ≤ s.journal.history.limit → number = r.round) := by
  intro rounds frames v number
  have history : v.history = frames := ((Viewer.onHistory_ofHistory frames).run moves).1
  refine ⟨⟨_, by rw [StatusBar.left, history, List.append_assoc, List.append_assoc]⟩, fun r round => ?_⟩
  obtain ⟨ks, sub, kept⟩ := loaded.exists_kept course start new n
  change frames = ks.map (s.closing course) at kept
  have sorted : ks.Pairwise (· < ·) := List.pairwise_lt_range.sublist sub
  obtain ⟨k, place, rfl⟩ : ∃ k, ks[v.position]? = some k ∧ s.closing course k = r := by
    rw [Viewer.round?, history, kept, List.getElem?_map] at round
    exact Option.map_eq_some_iff.mp round
  have counted : k < (s.after course n).pool.round :=
    List.mem_range.mp (sub.subset (List.mem_of_getElem? place))
  -- a frame has the number of its round, so the history has a frame exactly if it has kept the round
  have present (j : Nat) : s.closing course j ∈ frames ↔ j ∈ ks := by
    rw [kept, List.mem_map_of_injective]
    intro i j same
    exact Nat.succ.inj (congrArg Frame.round same)
  have right : number = k + 1 ↔ ∀ j < k + 1, s.closing course j ∈ frames := by
    simp only [present, Nat.lt_succ_iff, ← index_eq_iff_of_sorted sorted place]
    exact Nat.succ_inj
  refine ⟨⟨?_, ?_, fun t shown => ?_⟩, ?_, ?_, right, fun fits => right.mpr fun j less => ?_⟩
  · exact List.mem_map_of_mem (List.mem_range.mpr counted)
  · rfl
  · rw [Viewer.thread?_of_round round] at shown
    exact List.mem_of_getElem? shown
  · have upTo : frames.filter (·.round ≤ k + 1) = (ks.filter (· ≤ k)).map (s.closing course) := by
      rw [kept, List.filter_map]
      congr 2
      funext j
      simp [closing, Frame.ofThreads]
    change number = (frames.filter (·.round ≤ k + 1)).length
    rw [upTo, List.length_map, length_filter_le_of_sorted sorted place]
    rfl
  · exact Nat.succ_le_succ (index_le_of_sorted sorted place)
  · have all : frames = rounds := by
      rw [← Frame.fitting_of_total_le fits]
      exact (loaded.history_after course start new n).2
    rw [all]
    exact List.mem_map_of_mem (List.mem_range.mpr (Nat.lt_of_lt_of_le less counted))

/-- A budget that keeps the first, the second and the fourth round: the number is right in the second round.
-/
theorem round_number_right_iff_none_missing_second_round :
    let program := Stmt.ofList [.fork .nop, .nop, .nop]
    let s := ofProgram (.blank []) { history := { limit := 800 } } program
    let course := fun _ => Course.smooth ⟨2024, 1, 1, 0, 0, 0⟩ [1]
    let frames := (s.after course 7).journal.history.frames
    let v := (Viewer.ofHistory frames).run [.key .right, .draw (Size.layout ⟨80, 25⟩)]
    s.Loaded ∧ s.pool.round = 0 ∧ s.journal.history.frames = [] ∧
    frames.map Frame.round = [1, 2, 4] ∧ v.round? = some (s.closing course 1) ∧
    (∀ k < 2, s.closing course k ∈ frames) ∧ StatusBar.roundNumber v = (s.closing course 1).round := by
  intro program s course frames v
  have loaded : s.Loaded := (fresh_ofProgram _ _ _).loaded
  have kept : frames.map Frame.round = [1, 2, 4] := by decide +kernel
  have round : v.round? = some (s.closing course 1) := by decide +kernel
  have present : ∀ k < 2, s.closing course k ∈ frames := by decide +kernel
  obtain ⟨-, -, -, right, -⟩ := (round_number_right_iff_none_missing s loaded rfl rfl course 7
    [.key .right, .draw (Size.layout ⟨80, 25⟩)]).2 (s.closing course 1) round
  exact ⟨loaded, rfl, rfl, kept, round, present, right.mpr present⟩

/-- The first round has two statements left to run, and a budget of 197 bytes is too small for its frame; that
of the second round fits. It is the only one in the history, and the status bar says that it is the first. -/
theorem round_number_wrong_after_missing_round :
    let s := ofProgram (.blank []) { history := { limit := 197 } } (.seq .nop .nop)
    let v := Viewer.ofHistory (s.after (fun _ => .smooth ⟨2024, 1, 1, 0, 0, 0⟩) 3).journal.history.frames
    v.round?.map Frame.round = some 2 ∧ StatusBar.roundNumber v = 1 := by
  intro s v
  exact ⟨by decide +kernel, rfl⟩

end Scheduler

end Lockstep
