import Lockstep.Viewer.Event
import Lockstep.Viewer.Screen

/-!
The viewer in use.

Events, the time for the next round and drawing reach the viewer in any order. Few of them matter to where it
stands: keys and playback move it along the history, never past its ends, and leave the selection alone; two
keys move the selection and leave the position alone; drawing only cuts scroll offsets down. Playback goes one
round on each time it is due and stops when it is due at the last round.
-/

namespace Lockstep.Viewer

/-- What can happen to a viewer while it is in use. -/
inductive Move where
  /-- The terminal reports an event. -/
  | event (e : Event)
  /-- The time for the next round has come. -/
  | tick
  /-- The viewer is drawn, with panes of the given sizes. -/
  | draw (l : Layout)
deriving DecidableEq

namespace Move

/-- A key is pressed. -/
def key (k : Key) : Move :=
  .event (.press k)

/-- Whether a key is pressed. -/
def isKey : Move → Bool
  | .event (.press _) => true
  | _ => false

/-- Whether one of the keys is pressed that move the selection. -/
def isSelection (m : Move) : Bool :=
  m = key .up || m = key .down

/-- How far a move takes the selection along the threads of a round. -/
def turn (m : Move) : Int :=
  if m = key .up then -1 else if m = key .down then 1 else 0

end Move

/-- The viewer after a move. -/
def apply (v : Viewer) : Move → Viewer
  | .event e => v.handle e
  | .tick => v.tick
  | .draw l => v.drawn l

/-- The viewer after some moves. -/
def run (v : Viewer) (moves : List Move) : Viewer :=
  moves.foldl apply v

variable (v : Viewer)

@[simp] theorem run_nil : v.run [] = v := rfl

@[simp] theorem run_cons (m : Move) (moves : List Move) : v.run (m :: moves) = (v.apply m).run moves := rfl

/-- What every move of some kind keeps holds after any number of them. -/
theorem run_invariant {Inv : Viewer → Prop} {moves : List Move}
    (preserved : ∀ m ∈ moves, ∀ v, Inv v → Inv (v.apply m)) {v : Viewer} (initial : Inv v) :
    Inv (v.run moves) := by
  induction moves generalizing v with
  | nil => exact initial
  | cons m rest ih =>
    obtain ⟨first, later⟩ := List.forall_mem_cons.mp preserved
    exact ih later (first v initial)

/-! ### Along the history -/

/-- The second viewer shows the same history with the same thread selected, and stands within the history if
the first one does. -/
structure Navigates (v v' : Viewer) : Prop where
  history : v'.history = v.history
  selected : v'.selected = v.selected
  inRange : v.position ≤ v.last → v'.position ≤ v.last

/-- A change that concerns neither the history nor the selection nor the position. -/
theorem navigates_of_eq {v v' : Viewer}
    (same : (v'.history, v'.selected, v'.position) = (v.history, v.selected, v.position)) :
    Navigates v v' := by
  simp only [Prod.mk.injEq] at same
  obtain ⟨history, selected, position⟩ := same
  exact ⟨history, selected, fun inRange => position ▸ inRange⟩

theorem forward_of_lt {v : Viewer} {n : Nat} (before : v.position < v.last) :
    v.forward n = ({ v with
      position := min (v.position + n) v.last, scroll := v.scroll.set .output Scroll.bottom }, true) := by
  rw [forward, if_neg (by omega)]

theorem forward_of_le {v : Viewer} {n : Nat} (atEnd : v.last ≤ v.position) : v.forward n = (v, false) := by
  rw [forward, if_pos atEnd]

theorem navigates_forward (n : Nat) : Navigates v (v.forward n).1 := by
  by_cases before : v.position < v.last
  · rw [forward_of_lt before]
    exact ⟨rfl, rfl, fun _ => Nat.min_le_right ..⟩
  · rw [forward_of_le (Nat.le_of_not_lt before)]
    exact navigates_of_eq rfl

theorem navigates_back (n : Nat) : Navigates v (v.back n).1 := by
  rw [back]
  split
  · exact navigates_of_eq rfl
  · exact ⟨rfl, rfl, fun inRange => Nat.le_trans (Nat.sub_le ..) inRange⟩

theorem pressLeft_eq : ∃ message, v.pressLeft = { ({ v with playing := false }.back 1).1 with message } := by
  rw [pressLeft]
  split
  next before => exact ⟨_, by rw [before]⟩
  next before => exact ⟨_, by rw [before]⟩

theorem pressRight_eq :
    ∃ message, v.pressRight = { ({ v with playing := false }.forward 1).1 with message } := by
  rw [pressRight]
  split
  next after => exact ⟨_, by rw [after]⟩
  next after => exact ⟨_, by rw [after]⟩

theorem navigates_pressLeft : Navigates v v.pressLeft := by
  obtain ⟨message, left⟩ := v.pressLeft_eq
  obtain ⟨history, selected, inRange⟩ := navigates_back { v with playing := false } 1
  rw [left]
  exact ⟨history, selected, inRange⟩

theorem navigates_pressRight : Navigates v v.pressRight := by
  obtain ⟨message, right⟩ := v.pressRight_eq
  obtain ⟨history, selected, inRange⟩ := navigates_forward { v with playing := false } 1
  rw [right]
  exact ⟨history, selected, inRange⟩

theorem navigates_togglePlay : Navigates v v.togglePlay := by
  rw [togglePlay]
  split
  · exact navigates_of_eq rfl
  · exact navigates_of_eq rfl

theorem tick_of_not_playing {v : Viewer} (still : v.playing = false) : v.tick = v := by
  rw [tick, if_neg (by simp [still])]

theorem tick_of_lt {v : Viewer} (playing : v.playing = true) (before : v.position < v.last) :
    v.tick = { v with
      position := v.position + 1, scroll := v.scroll.set .output Scroll.bottom } := by
  rw [tick, if_pos playing, forward_of_lt before]
  simp only [Nat.min_eq_left before]

theorem tick_of_le {v : Viewer} (playing : v.playing = true) (atEnd : v.last ≤ v.position) :
    v.tick = { v with playing := false, message := "Playback complete" } := by
  rw [tick, if_pos playing, forward_of_le atEnd]

theorem navigates_tick : Navigates v v.tick := by
  by_cases playing : v.playing = true
  · by_cases before : v.position < v.last
    · rw [tick_of_lt playing before]
      exact ⟨rfl, rfl, fun _ => before⟩
    · rw [tick_of_le playing (Nat.le_of_not_lt before)]
      exact navigates_of_eq rfl
  · rw [tick_of_not_playing (by simpa using playing)]
    exact navigates_of_eq rfl

theorem press_char (c : Char) : v.press (.char c) =
    if c = 'q' ∨ c = 'Q' then { v with quit := true } else if c = ' ' then v.togglePlay else v := by
  unfold press
  split <;> simp_all

theorem navigates_press {k : Key} (up : k ≠ .up) (down : k ≠ .down) : Navigates v (v.press k) := by
  cases k with
  | char c =>
    rw [press_char]
    split
    · exact navigates_of_eq rfl
    · split
      · exact v.navigates_togglePlay
      · exact navigates_of_eq rfl
  | left => exact v.navigates_pressLeft
  | right => exact v.navigates_pressRight
  | up => exact absurd rfl up
  | down => exact absurd rfl down
  -- the two jumps do not depend on where the viewer stood
  | enter => exact ⟨rfl, rfl, fun _ => Nat.le_refl _⟩
  | backspace => exact ⟨rfl, rfl, fun _ => Nat.zero_le _⟩
  | _ => exact navigates_of_eq rfl

/-- Every move but the two that move the selection. -/
theorem navigates_apply {m : Move} (other : m.isSelection = false) : Navigates v (v.apply m) := by
  cases m with
  | tick => exact v.navigates_tick
  | draw s => exact navigates_of_eq rfl
  | event e =>
    cases e with
    | press k =>
      simp only [Move.isSelection, Move.key, Bool.or_eq_false_iff, decide_eq_false_iff_not, Move.event.injEq,
        Event.press.injEq] at other
      exact v.navigates_press other.1 other.2
    | _ => exact navigates_of_eq rfl

/-- The two moves that move the selection. -/
theorem apply_of_isSelection {m : Move} (selection : m.isSelection = true) :
    v.apply m = v.select m.turn := by
  simp only [Move.isSelection, Bool.or_eq_true, decide_eq_true_eq] at selection
  rcases selection with rfl | rfl
  · rfl
  · rfl

/-- Moving the selection changes nothing else but the message. -/
theorem select_eq (delta : Int) :
    ∃ selected message, v.select delta = { v with selected, message } := by
  unfold select
  split
  · exact ⟨_, _, rfl⟩
  · dsimp only
    split
    · exact ⟨_, _, rfl⟩
    · exact ⟨_, _, rfl⟩

/-- The viewer shows the given history and stands at one of its rounds, or at its start if it is empty. -/
def OnHistory (history : List Frame) (v : Viewer) : Prop :=
  v.history = history ∧ v.position ≤ v.last

theorem onHistory_ofHistory (history : List Frame) : (ofHistory history).OnHistory history :=
  ⟨rfl, Nat.zero_le _⟩

theorem OnHistory.apply {history : List Frame} {v : Viewer} (on : v.OnHistory history) (m : Move) :
    (v.apply m).OnHistory history := by
  obtain ⟨rfl, inRange⟩ := on
  cases kind : m.isSelection with
  | false =>
    -- which round is the last one depends on the history alone
    have moved := v.navigates_apply kind
    refine ⟨moved.history, ?_⟩
    rw [last, moved.history]
    exact moved.inRange inRange
  | true =>
    obtain ⟨selected, message, chosen⟩ := v.select_eq m.turn
    rw [v.apply_of_isSelection kind, chosen]
    exact ⟨rfl, inRange⟩

theorem OnHistory.run {history : List Frame} {v : Viewer} (on : v.OnHistory history) (moves : List Move) :
    (v.run moves).OnHistory history :=
  run_invariant (fun m _ _ on => on.apply m) on

theorem OnHistory.last_eq {history : List Frame} {v : Viewer} (on : v.OnHistory history) :
    v.last = history.length - 1 := by
  rw [last, on.1]

/-! ### Playback -/

theorem position_pressRight {v : Viewer} (before : v.position < v.last) :
    v.pressRight.position = v.position + 1 := by
  obtain ⟨message, right⟩ := v.pressRight_eq
  have there : { v with playing := false }.position < { v with playing := false }.last := before
  rw [right, forward_of_lt there]
  exact Nat.min_eq_left before

theorem position_pressLeft (v : Viewer) : v.pressLeft.position = v.position - 1 := by
  obtain ⟨message, left⟩ := v.pressLeft_eq
  rw [left, back]
  split
  next first =>
    have start : v.position = 0 := first
    simp [start]
  · rfl

/-- How far playback has come when it was started at a position and has been due a number of times since. -/
def Played (start due : Nat) (v : Viewer) : Prop :=
  if start + due ≤ v.last then v.position = start + due ∧ v.playing = true
  else v.position = v.last ∧ v.playing = false ∧ v.message = "Playback complete"

theorem Played.tick {start due : Nat} {v : Viewer} (played : Played start due v) :
    Played start (due + 1) v.tick := by
  unfold Played at played
  split at played
  next within =>
    obtain ⟨position, playing⟩ := played
    by_cases before : v.position < v.last
    · have within : start + (due + 1) ≤ v.last := by omega
      rw [tick_of_lt playing before]
      refine (if_pos within).mpr ⟨?_, playing⟩
      simp only [position, Nat.add_assoc]
    · -- the last round has been shown, and there is no other
      have past : ¬ start + (due + 1) ≤ v.last := by omega
      have atEnd : v.position = v.last := by omega
      rw [tick_of_le playing (Nat.le_of_not_lt before)]
      exact (if_neg past).mpr ⟨atEnd, rfl, rfl⟩
  next past =>
    have past : ¬ start + (due + 1) ≤ v.last := by omega
    rw [tick_of_not_playing played.2.1]
    exact (if_neg past).mpr played

theorem Played.run {start due : Nat} {v : Viewer} (played : Played start due v) {later : List Move}
    (untouched : ∀ m ∈ later, m.isKey = false) :
    Played start (due + later.count .tick) (v.run later) := by
  induction later generalizing due v with
  | nil => exact played
  | cons m rest ih =>
    obtain ⟨first, others⟩ := List.forall_mem_cons.mp untouched
    cases m with
    | tick =>
      rw [List.count_cons_self, Nat.add_comm _ 1, ← Nat.add_assoc]
      exact ih played.tick others
    | draw s =>
      -- drawing changes scroll offsets only
      rw [List.count_cons_of_ne (by simp)]
      exact ih played others
    | event e =>
      rw [List.count_cons_of_ne (by simp)]
      cases e with
      | press k => cases first
      | _ => exact ih played others

/-- Navigation stays within the history, and playback visits every round that is left once. After any moves
the position is that of a round of the history, or zero if there is none, and going one round on and back
again restores it. If playback is switched on then and no key is pressed any more, whatever else happens, each
time it is due shows the next round while it goes on playing, until it is due at the last round: there it
stays, stops playing and says so, and being due has no effect from then on. -/
theorem playback_visits_every_round (history : List Frame) (moves : List Move) :
    let v := (ofHistory history).run moves
    (v.position < history.length ∨ history = [] ∧ v.position = 0) ∧
    (v.position ≠ history.length - 1 → (v.run [.key .right, .key .left]).position = v.position) ∧
    (history ≠ [] → v.playing = false → ∀ later : List Move, (∀ m ∈ later, m.isKey = false) →
      let w := v.run (.key (.char ' ') :: later)
      let due := later.count .tick
      (due ≤ history.length - 1 - v.position →
        w.position = v.position + due ∧ w.round? = history[v.position + due]? ∧ w.playing = true) ∧
      (history.length - v.position ≤ due →
        w.position = history.length - 1 ∧ w.playing = false ∧ w.message = "Playback complete" ∧
        w.tick = w)) := by
  intro v
  have on : v.OnHistory history := (onHistory_ofHistory history).run moves
  have inRange : v.position ≤ history.length - 1 := on.last_eq ▸ on.2
  refine ⟨?_, fun notLast => ?_, fun some_ still later untouched => ?_⟩
  · cases history with
    | nil => exact .inr ⟨rfl, Nat.le_zero.mp inRange⟩
    | cons r rest => exact .inl (Nat.lt_of_le_of_lt inRange (Nat.lt_succ_self _))
  · have before : v.position < v.last := by rw [on.last_eq]; omega
    change v.pressRight.pressLeft.position = v.position
    rw [position_pressLeft, position_pressRight before, Nat.add_sub_cancel]
  · intro w due
    have switched : v.togglePlay = { v with playing := true, message := "Playing..." } := by
      rw [togglePlay, if_neg (by simp [still])]
    -- switching playback on does not move the viewer, and it has not been due yet
    have started : Played v.position 0 v.togglePlay := by
      rw [switched]
      exact (if_pos on.2).mpr ⟨rfl, rfl⟩
    have played : Played v.position due w := by
      have run := started.run untouched
      rwa [Nat.zero_add] at run
    have there : w.OnHistory history := on.run _
    rw [Played, there.last_eq] at played
    have rounds : 0 < history.length := List.length_pos_iff.mpr some_
    constructor
    · intro left
      obtain ⟨position, playing⟩ := (if_pos (by omega)).mp played
      exact ⟨position, by rw [round?, there.1, position], playing⟩
    · intro past
      obtain ⟨position, stopped, message⟩ := (if_neg (by omega)).mp played
      exact ⟨position, stopped, message, tick_of_not_playing stopped⟩

/-- Playback from the second of three rounds, drawn in between and with a key released: the third round is
shown when it is due for the first time, and the second time ends it. -/
theorem playback_visits_every_round_from_second :
    let history : List Frame := [⟨1, []⟩, ⟨2, []⟩, ⟨3, []⟩]
    let v := (ofHistory history).run [.key .right, .key .right, .draw (Size.layout ⟨80, 25⟩), .key .left]
    let later : List Move := [.draw (Size.layout ⟨80, 25⟩), .tick, .event (.release .right)]
    history ≠ [] ∧ v.position = 1 ∧ v.playing = false ∧ (∀ m ∈ later ++ [.tick], m.isKey = false) ∧
    (v.run [.key .right, .key .left]).position = v.position ∧
    (v.run (.key (.char ' ') :: later)).round? = some ⟨3, []⟩ ∧
    (v.run (.key (.char ' ') :: later)).playing = true ∧
    (v.run (.key (.char ' ') :: later ++ [.tick])).position = 2 ∧
    (v.run (.key (.char ' ') :: later ++ [.tick])).message = "Playback complete" := by
  intro history v later
  have untouched : ∀ m ∈ later ++ [.tick], m.isKey = false := by decide
  obtain ⟨-, restored, playback⟩ := playback_visits_every_round history
    [.key .right, .key .right, .draw (Size.layout ⟨80, 25⟩), .key .left]
  have playback := playback (by decide) (by rfl)
  obtain ⟨-, third, playing⟩ :=
    (playback later fun m member => untouched m (List.mem_append_left _ member)).1 (by decide)
  obtain ⟨position, -, message, -⟩ := (playback (later ++ [.tick]) untouched).2 (by decide)
  exact ⟨by decide, by rfl, by rfl, untouched, restored (by decide), third, playing, position, message⟩

end Lockstep.Viewer
