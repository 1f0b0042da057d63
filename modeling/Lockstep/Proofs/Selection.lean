import Lockstep.Proofs.Viewing
import Mathlib.Data.List.Nodup

/-!
The selection is a cursor on the circle of threads of a round.

The viewer remembers a number, not an index, and the number need not occur in the round on screen. What is
shown and what the keys move from are found in two different ways, which agree: both are the thread at the
cursor, the index of the selected thread or else the first one. The keys turn the cursor, so they can be undone,
and a full turn leads back. No other move touches the remembered number, so a round that is seen again shows
the same thread again.
-/

namespace Lockstep.Viewer

/-- The index in a round of the selected thread, or of the first one if the selected one is not there. -/
def cursor (selected : Option Nat) (r : Frame) : Nat :=
  (selected.bind fun id => r.threads.findIdx? (·.id = id)).getD 0

section

variable {r : Frame}

/-- What is shown is what the keys move from. -/
theorem shown?_eq (selected : Option Nat) (r : Frame) : shown? selected r = r.threads[cursor selected r]? := by
  cases selected with
  | none => simp [shown?, cursor, List.head?_eq_getElem?]
  | some id =>
    have search : r.threads.find? (·.id = id) = r.threads[r.threads.findIdx (·.id = id)]? :=
      List.find?_eq_getElem?_findIdx
    simp only [shown?, cursor, Option.bind_some]
    cases found : r.threads.findIdx? (·.id = id) with
    | none =>
      -- both searches fail, and both fall back on the first thread
      have absent := List.find?_eq_none.mpr fun t member =>
        Bool.eq_false_iff.mp (List.findIdx?_eq_none_iff.mp found t member)
      simp only [absent, Option.none_or, Option.getD_none, List.head?_eq_getElem?]
    | some i =>
      obtain ⟨inside, index⟩ := List.findIdx?_eq_some_iff_findIdx_eq.mp found
      rw [index, List.getElem?_eq_getElem inside] at search
      simp only [search, Option.some_or, Option.getD_some, List.getElem?_eq_getElem inside]

theorem cursor_lt (selected : Option Nat) (some_ : r.threads ≠ []) : cursor selected r < r.threads.length := by
  rw [cursor]
  cases found : selected.bind fun id => r.threads.findIdx? (·.id = id) with
  | none => exact List.length_pos_iff.mpr some_
  | some i =>
    obtain ⟨id, -, search⟩ := Option.bind_eq_some_iff.mp found
    exact (List.findIdx?_eq_some_iff_findIdx_eq.mp search).1

/-- Threads with different numbers are found where they stand. -/
theorem cursor_of_getElem? (distinct : (r.threads.map (·.id)).Nodup) {i : Nat} {t : Snapshot}
    (at_ : r.threads[i]? = some t) : cursor (some t.id) r = i := by
  obtain ⟨inside, rfl⟩ := List.getElem?_eq_some_iff.mp at_
  have found : r.threads.findIdx? (·.id = (r.threads[i]).id) = some i := by
    refine List.findIdx?_eq_some_iff_getElem.mpr ⟨inside, by simp, fun j before => ?_⟩
    -- a thread before it has another number
    have different := List.pairwise_iff_getElem.mp (List.pairwise_map.mp distinct) j i (by omega) inside before
    simpa using different
  rw [cursor, Option.bind_some, found, Option.getD_some]

variable (v : Viewer)

theorem thread?_of_round {v : Viewer} (round : v.round? = some r) :
    v.thread? = r.threads[cursor v.selected r]? := by
  rw [thread?, round, Option.bind_some, shown?_eq]

@[simp] theorem round?_select (delta : Int) : (v.select delta).round? = v.round? := by
  obtain ⟨selected, message, chosen⟩ := v.select_eq delta
  rw [chosen, round?, round?]

/-- The keys turn the cursor. -/
theorem cursor_select {v : Viewer} (round : v.round? = some r) (some_ : r.threads ≠ [])
    (distinct : (r.threads.map (·.id)).Nodup) (delta : Int) :
    (cursor (v.select delta).selected r : Int) = (cursor v.selected r + delta) % r.threads.length := by
  have threads : 0 < r.threads.length := List.length_pos_iff.mpr some_
  have least := Int.emod_nonneg (cursor v.selected r + delta) (b := r.threads.length) (by omega)
  have below := Int.emod_lt_of_pos (cursor v.selected r + delta) (b := r.threads.length) (by omega)
  have inside : ((cursor v.selected r + delta) % r.threads.length).toNat < r.threads.length := by omega
  -- the remainder is an index of the round, so there is a thread to choose
  have chosen : (v.select delta).selected =
      some (r.threads[((cursor v.selected r + delta) % r.threads.length).toNat]).id := by
    simp only [select, round]
    split
    next outside => exact absurd inside (by simpa [cursor] using outside)
    next t there =>
      rw [← (List.getElem?_eq_some_iff.mp there).2]
      rfl
  rw [chosen, cursor_of_getElem? distinct (List.getElem?_eq_getElem inside), Int.toNat_of_nonneg least]

/-- How far some moves take the selection in all. -/
def turns : List Move → Int
  | [] => 0
  | m :: rest => m.turn + turns rest

theorem turns_replicate_down (n : Nat) : turns (List.replicate n (.key .down)) = n := by
  induction n with
  | zero => rfl
  | succ n ih =>
    rw [List.replicate_succ, turns, ih]
    simp [Move.turn, Move.key]
    omega

theorem round?_run {v : Viewer} {moves : List Move} (selections : ∀ m ∈ moves, m.isSelection = true) :
    (v.run moves).round? = v.round? := by
  have kept : ∀ m ∈ moves, ∀ w : Viewer, w.round? = v.round? → (w.apply m).round? = v.round? := by
    intro m member w same
    rw [w.apply_of_isSelection (selections m member), round?_select, same]
  exact run_invariant kept rfl

/-- Several moves of the selection turn the cursor by what they add up to. -/
theorem cursor_run {v : Viewer} (round : v.round? = some r) (some_ : r.threads ≠ [])
    (distinct : (r.threads.map (·.id)).Nodup) {moves : List Move}
    (selections : ∀ m ∈ moves, m.isSelection = true) :
    (cursor (v.run moves).selected r : Int) = (cursor v.selected r + turns moves) % r.threads.length := by
  induction moves generalizing v with
  | nil =>
    have below := cursor_lt v.selected some_
    rw [run_nil, turns, Int.add_zero, Int.emod_eq_of_lt (by omega) (by omega)]
  | cons m rest ih =>
    obtain ⟨first, later⟩ := List.forall_mem_cons.mp selections
    have stays : (v.select m.turn).round? = some r := by rw [round?_select, round]
    calc (cursor (v.run (m :: rest)).selected r : Int)
        = (cursor (v.select m.turn).selected r + turns rest) % r.threads.length := by
          rw [run_cons, v.apply_of_isSelection first, ih stays later]
      _ = (cursor v.selected r + m.turn + turns rest) % r.threads.length := by
          rw [cursor_select round some_ distinct, Int.emod_add_emod]
      _ = (cursor v.selected r + turns (m :: rest)) % r.threads.length := by
          rw [turns, Int.add_assoc]

/-- The thread on screen after some moves of the selection, counted from the one before. -/
theorem thread?_run {v : Viewer} (round : v.round? = some r) (some_ : r.threads ≠ [])
    (distinct : (r.threads.map (·.id)).Nodup) {moves : List Move}
    (selections : ∀ m ∈ moves, m.isSelection = true) {k : Nat}
    (turned : (cursor v.selected r + turns moves) % r.threads.length = (k : Int)) :
    (v.run moves).thread? = r.threads[k]? := by
  have there : (v.run moves).round? = some r := by rw [round?_run selections, round]
  have index := cursor_run round some_ distinct selections
  rw [thread?_of_round there, Int.ofNat_inj.mp (index.trans turned)]

/-- A full turn leads back. -/
theorem thread?_run_of_full_turn {v : Viewer} {moves : List Move}
    (distinct : ∀ r, v.round? = some r → (r.threads.map (·.id)).Nodup)
    (selections : ∀ m ∈ moves, m.isSelection = true)
    (full : ∀ r, v.round? = some r → turns moves % r.threads.length = 0) :
    (v.run moves).thread? = v.thread? := by
  have there := round?_run (v := v) selections
  -- without a round, or without threads in it, there is nothing on screen before and after
  cases round : v.round? with
  | none => rw [thread?, thread?, there, round, Option.bind_none, Option.bind_none]
  | some r =>
    by_cases empty : r.threads = []
    · rw [thread?_of_round round, thread?_of_round (there.trans round), empty]
      rfl
    · have below := cursor_lt v.selected empty
      rw [thread?_of_round round]
      refine thread?_run round empty (distinct r round) selections ?_
      rw [← Int.add_emod_emod, full r round, Int.add_zero, Int.emod_eq_of_lt (by omega) (by omega)]

theorem cursor_eq_of_thread? {v : Viewer} (round : v.round? = some r)
    (distinct : (r.threads.map (·.id)).Nodup) {i : Nat} {t : Snapshot} (at_ : r.threads[i]? = some t)
    (shown : v.thread? = some t) : cursor v.selected r = i := by
  rw [thread?_of_round round, ← at_] at shown
  have inside : i < r.threads.length := (List.getElem?_eq_some_iff.mp at_).1
  exact ((List.getElem?_inj inside (List.Nodup.of_map _ distinct)).mp shown.symm).symm

theorem thread?_isSome_iff : v.thread?.isSome ↔ ∃ r, v.round? = some r ∧ r.threads ≠ [] := by
  cases round : v.round? with
  | none => simp [thread?, round]
  | some r =>
    rw [thread?_of_round round]
    constructor
    · intro shown
      refine ⟨r, rfl, ?_⟩
      rintro empty
      simp [empty] at shown
    · rintro ⟨_, same, some_⟩
      cases Option.some.inj same
      rw [List.getElem?_eq_getElem (cursor_lt v.selected some_), Option.isSome_some]

end

/-- Moves that leave the selection alone show the same thread in a round that they come back to. -/
theorem thread?_of_return {v : Viewer} {moves : List Move} (others : ∀ m ∈ moves, m.isSelection = false)
    (back : (v.run moves).position = v.position) : (v.run moves).thread? = v.thread? := by
  have kept : ∀ m ∈ moves, ∀ w : Viewer, w.history = v.history ∧ w.selected = v.selected →
      (w.apply m).history = v.history ∧ (w.apply m).selected = v.selected := by
    rintro m member w ⟨history, selected⟩
    have moved := w.navigates_apply (others m member)
    exact ⟨moved.history.trans history, moved.selected.trans selected⟩
  obtain ⟨history, selected⟩ := run_invariant kept ⟨rfl, rfl⟩
  rw [thread?, thread?, round?, round?, history, selected, back]

/-- The selection is a cursor on the circle of threads of a round. In a history whose rounds have threads with
different numbers, after any moves: a thread is on screen exactly if there is a round on screen and it has
threads; one key shows the next thread of the round and another one the previous thread, also where the first
thread stands in for the selected one; each of them undoes the other, and as many presses as the round has
threads lead back to the thread on screen; and moves without these two keys show the same thread whenever they
come back to the round. -/
theorem selection_goes_round (history : List Frame)
    (distinct : ∀ r ∈ history, (r.threads.map (·.id)).Nodup) (moves : List Move) :
    let v := (ofHistory history).run moves
    (v.thread?.isSome ↔ ∃ r, v.round? = some r ∧ r.threads ≠ []) ∧
    (∀ r i t, v.round? = some r → r.threads[i]? = some t → v.thread? = some t →
      let n := r.threads.length
      ((v.press .down).round? = some r ∧ (v.press .down).thread? = r.threads[(i + 1) % n]?) ∧
      ((v.press .up).round? = some r ∧ (v.press .up).thread? = r.threads[(i + (n - 1)) % n]?)) ∧
    ((v.press .down).press .up).thread? = v.thread? ∧
    ((v.press .up).press .down).thread? = v.thread? ∧
    (∀ r, v.round? = some r →
      (v.run (List.replicate r.threads.length (.key .down))).thread? = v.thread?) ∧
    (∀ later, (∀ m ∈ later, m.isSelection = false) → (v.run later).position = v.position →
      (v.run later).thread? = v.thread?) := by
  intro v
  have shown : v.history = history := ((onHistory_ofHistory history).run moves).1
  have different (r : Frame) (round : v.round? = some r) : (r.threads.map (·.id)).Nodup := by
    rw [round?, shown] at round
    exact distinct r (List.mem_of_getElem? round)
  have down : ∀ m ∈ [Move.key .down], m.isSelection = true := by decide
  have up : ∀ m ∈ [Move.key .up], m.isSelection = true := by decide
  have downUp : ∀ m ∈ [Move.key .down, Move.key .up], m.isSelection = true := by decide
  have upDown : ∀ m ∈ [Move.key .up, Move.key .down], m.isSelection = true := by decide
  refine ⟨v.thread?_isSome_iff, fun r i t round at_ onScreen => ?_, ?_, ?_, fun r round => ?_,
    fun later => thread?_of_return⟩
  · intro n
    have some_ : r.threads ≠ [] := by
      rintro empty
      simp [empty] at at_
    have threads : 0 < n := List.length_pos_iff.mpr some_
    have index := cursor_eq_of_thread? round (different r round) at_ onScreen
    refine ⟨⟨(v.round?_select 1).trans round, ?_⟩, ⟨(v.round?_select (-1)).trans round, ?_⟩⟩
    · refine thread?_run round some_ (different r round) down ?_
      rw [index]
      rfl
    · refine thread?_run round some_ (different r round) up ?_
      -- one back is all but one on
      have around : (i : Int) + turns [.key .up] = i + (n - 1 : Nat) - n := by
        rw [show turns [.key .up] = -1 from rfl]
        omega
      rw [index, around, Int.sub_emod_right]
      rfl
  · exact thread?_run_of_full_turn different downUp fun r _ => Int.zero_emod _
  · exact thread?_run_of_full_turn different upDown fun r _ => Int.zero_emod _
  · refine thread?_run_of_full_turn different ?_ fun r' round' => ?_
    · intro m member
      rw [List.eq_of_mem_replicate member]
      decide
    · cases Option.some.inj (round.symm.trans round')
      rw [turns_replicate_down, Int.emod_self]

/-- The third thread is selected in the second round and does not occur in the third one, where another thread
stands in for it. -/
theorem selection_goes_round_stand_in :
    let round (n : Nat) (ids : List Nat) : Frame := ⟨n, ids.map fun id => { id }⟩
    let history := [round 1 [1], round 2 [1, 2, 3], round 3 [2, 4]]
    let v := (ofHistory history).run [.key .right, .key .up, .key .right]
    let later : List Move := [.key .left, .key .backspace, .tick, .draw (Size.layout ⟨80, 25⟩), .key .enter]
    (∀ r ∈ history, (r.threads.map (·.id)).Nodup) ∧
    v.selected = some 3 ∧ v.thread? = some { id := 2 } ∧
    (v.press .down).thread? = some { id := 4 } ∧ (v.press .up).thread? = some { id := 4 } ∧
    (∀ m ∈ later, m.isSelection = false) ∧ (v.run later).position = v.position ∧
    (v.run later).thread? = v.thread? := by
  intro round history v later
  have distinct : ∀ r ∈ history, (r.threads.map (·.id)).Nodup := by decide
  have onScreen : v.thread? = some { id := 2 } := by decide
  have others : ∀ m ∈ later, m.isSelection = false := by decide
  obtain ⟨-, keys, -, -, -, back⟩ :=
    selection_goes_round history distinct [.key .right, .key .up, .key .right]
  obtain ⟨⟨-, down⟩, -, up⟩ := keys (round 3 [2, 4]) 0 { id := 2 } (by decide) (by decide) onScreen
  exact ⟨distinct, by decide, onScreen, down, up, others, by decide, back later others (by decide)⟩

end Lockstep.Viewer
