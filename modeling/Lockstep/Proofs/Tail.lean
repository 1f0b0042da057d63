import Lockstep.Proofs.Scrolling
import Lockstep.Scheduler

/-!
The end of the output.

Jumping to the last round, or going on by one, asks for an offset past every printed value; drawing cuts it
down to that of the last full window. A window is full when it has as many entries as the pane has rows. An
entry with several lines takes several rows, though, and what does not fit any more is left out at the lower
end. So the value that was printed last is on the screen exactly if the entries of the window have no more
lines in all than the pane has rows.
-/

namespace Lockstep

/-! ### Rows of a window -/

/-- The rows that an entry takes in a window with `w` cells inside its border; the first cell is blank. -/
def Item.rows (w : Nat) (i : Item) : Picture :=
  i.lines.map fun line => Row.fill 1 {} ' ' ++ line.fit (w - 1) i.style

theorem total_map_of_ones {α : Type} {count : α → Nat} {xs : List α} (ones : ∀ x ∈ xs, count x = 1) :
    total (xs.map count) = xs.length := by
  induction xs with
  | nil => rfl
  | cons x rest ih =>
    obtain ⟨first, others⟩ := List.forall_mem_cons.mp ones
    rw [List.map_cons, total_cons, first, ih others, List.length_cons, Nat.add_comm]

namespace Window

/-- How many of some entries are drawn into the given number of rows: those from the top up to the first one
that does not fit any more. -/
def drawnCount : Nat → List Item → Nat
  | _, [] => 0
  | room, i :: rest => if i.height ≤ room then drawnCount (room - i.height) rest + 1 else 0

theorem listInside_eq (w room : Nat) (items : List Item) :
    listInside w room items = (items.take (drawnCount room items)).flatMap (Item.rows w) := by
  induction items generalizing room with
  | nil => rfl
  | cons i rest ih =>
    simp only [listInside, stackRows, drawnCount] at ih ⊢
    split
    next fits =>
      -- the entry takes its rows, and the rest of the list gets the rows that are left
      rw [List.map_append, ih, List.take_succ_cons, List.flatMap_cons, Item.rows, List.map_map]
      rfl
    next => rfl

/-- All entries are drawn if they fit together. -/
theorem length_le_drawnCount_iff (room : Nat) (items : List Item) :
    items.length ≤ drawnCount room items ↔ total (items.map Item.height) ≤ room := by
  induction items generalizing room with
  | nil => simp
  | cons i rest ih =>
    rw [drawnCount, List.length_cons, List.map_cons, total_cons]
    split
    next fits =>
      rw [Nat.add_le_add_iff_right, ih]
      omega
    next tall => omega

/-- All of some texts are drawn if their lines fit. -/
theorem texts_drawn_iff (room : Nat) (style : Style) (texts : List String) :
    texts.length ≤ drawnCount room (texts.map (Item.ofText style)) ↔
      total (texts.map fun x => (Item.textLines x).length) ≤ room := by
  have heights : (texts.map (Item.ofText style)).map Item.height =
      texts.map fun x => (Item.textLines x).length := by
    simp [Item.height, Item.ofText]
  have fit := length_le_drawnCount_iff room (texts.map (Item.ofText style))
  rwa [List.length_map, heights] at fit

end Window

namespace Viewer

/-! ### Entries on the screen -/

variable (v : Viewer) (l : Layout)

/-- The number of entries of a pane that are drawn. -/
def drawnCount (p : Pane) : Nat :=
  Window.drawnCount ((l.pane p).height - 2) (Window.slice (v.items p) (l.pane p).height (v.offset l p))

/-- Entry `i` of a pane is on the screen when the viewer is drawn. -/
def Draws (p : Pane) (i : Nat) : Prop :=
  v.offset l p ≤ i ∧ i < v.offset l p + v.drawnCount l p

instance (p : Pane) (i : Nat) : Decidable (v.Draws l p i) :=
  inferInstanceAs (Decidable (_ ∧ _))

/-! ### Moves to the end of the output -/

/-- The move jumps to the last round, or goes on to the next one by a key or by playback. -/
def Advances (v : Viewer) (m : Move) : Prop :=
  m = .key .enter ∨ (m = .key .right ∨ m = .tick) ∧ v.position < (v.apply m).position

theorem get_output_forward {v : Viewer} {n : Nat} (moved : v.position < (v.forward n).1.position) :
    (v.forward n).1.scroll.get .output = Scroll.bottom := by
  by_cases before : v.position < v.last
  · rw [forward_of_lt before]
    simp
  · rw [forward_of_le (Nat.le_of_not_lt before)] at moved
    exact absurd moved (Nat.lt_irrefl _)

/-- Whichever move it is, the end of the output is asked for. -/
theorem Advances.get_output {v : Viewer} {m : Move} (advances : v.Advances m) :
    (v.apply m).scroll.get .output = Scroll.bottom := by
  -- the key and playback ask for it only where there is a round to go to
  rcases advances with rfl | ⟨rfl | rfl, moved⟩
  · simp [Move.key, apply, handle, press]
  · obtain ⟨message, right⟩ := v.pressRight_eq
    change v.pressRight.scroll.get .output = Scroll.bottom
    change v.position < v.pressRight.position at moved
    rw [right] at moved ⊢
    exact get_output_forward (v := { v with playing := false }) moved
  · change v.tick.scroll.get .output = Scroll.bottom
    change v.position < v.tick.position at moved
    by_cases playing : v.playing = true
    · by_cases before : v.position < v.last
      · rw [tick_of_lt playing before]
        simp
      · rw [tick_of_le playing (Nat.le_of_not_lt before)] at moved
        exact absurd moved (Nat.lt_irrefl _)
    · rw [tick_of_not_playing (by simpa using playing)] at moved
      exact absurd moved (Nat.lt_irrefl _)

/-! ### The last entry -/

theorem output_items {v : Viewer} {t : Snapshot} (shown : v.thread? = some t) :
    v.items .output = t.output.map (Item.ofText { fg := some Palette.text }) := by
  rw [items, shown]
  rfl

/-- The output at its end: the last entries, as many as the pane has rows. -/
theorem Advances.slice_output {v : Viewer} {l : Layout} {m : Move} (advances : v.Advances m)
    (inside : 3 ≤ (l.pane .output).height)
    (countable : ((v.apply m).items .output).length ≤ Scroll.bottom) :
    let w := v.apply m
    let rows := (l.pane .output).height - 2
    w.offset l .output = (w.items .output).length - rows ∧
      Window.slice (w.items .output) (l.pane .output).height (w.offset l .output) =
        (w.items .output).drop ((w.items .output).length - rows) := by
  intro w rows
  have visible : Window.visible (l.pane .output).height = rows := by
    simp only [Window.visible, rows]
    omega
  have start : w.offset l .output = (w.items .output).length - rows := by
    rw [offset, Window.clamp_eq, advances.get_output, visible]
    exact Nat.min_eq_right (Nat.le_trans (Nat.sub_le _ _) countable)
  refine ⟨start, ?_⟩
  rw [start, Window.slice, visible]
  apply List.take_of_length_le
  rw [List.length_drop]
  omega

/-- The last value that was printed is on the screen exactly if the last values, as many as the pane has rows,
have no more lines in all than it has rows. Take any viewer, a jump to the last round or a step to the next
one, and panes of any sizes, among them one for the output with a row inside its border. When the viewer is
drawn next, with a thread that has printed something, and no more than an offset can count, the output shows
entries from the first of those last values on, and the last one is among them under that condition; in
particular if each of them is a single line. -/
theorem tail_drawn_iff_lines_fit (v : Viewer) (m : Move) (advances : v.Advances m) (l : Layout)
    (inside : 3 ≤ (l.pane .output).height) (t : Snapshot) (shown : (v.apply m).thread? = some t)
    (printed : t.output ≠ []) (countable : t.output.length ≤ Scroll.bottom) :
    let w := v.apply m
    let rows := (l.pane .output).height - 2
    let tail := t.output.drop (t.output.length - rows)
    let lines (x : String) := (Item.textLines x).length
    let entry (x : String) := (Item.ofText { fg := some Palette.text } x).rows ((l.pane .output).width - 2)
    w.drawPane l .output =
      Window.frame (l.pane .output).width (l.pane .output).height "Output" (w.focus = .output)
        ((tail.take (w.drawnCount l .output)).flatMap entry) ∧
    (w.Draws l .output (t.output.length - 1) ↔ total (tail.map lines) ≤ rows) ∧
    ((∀ x ∈ tail, lines x = 1) → w.Draws l .output (t.output.length - 1)) := by
  intro w rows tail lines entry
  have entries : w.items .output = t.output.map (Item.ofText { fg := some Palette.text }) := output_items shown
  have count : (w.items .output).length = t.output.length := by rw [entries, List.length_map]
  obtain ⟨start, window⟩ := advances.slice_output inside (count.symm ▸ countable)
  rw [count] at start window
  rw [entries, ← List.map_drop] at window
  have drawn : w.drawnCount l .output =
      Window.drawnCount rows (tail.map (Item.ofText { fg := some Palette.text })) := by
    rw [drawnCount, ← window, entries]
  have some_ : 0 < t.output.length := List.length_pos_iff.mpr printed
  have length : tail.length = min t.output.length rows := by
    rw [List.length_drop]
    omega
  -- the last value is drawn exactly if all entries of the window are
  have last : w.Draws l .output (t.output.length - 1) ↔ total (tail.map lines) ≤ rows := by
    rw [Draws, start, drawn, ← Window.texts_drawn_iff rows { fg := some Palette.text } tail, length]
    omega
  refine ⟨?_, last, fun single => last.mpr ?_⟩
  · have listed : w.items .output ≠ [] := by
      rw [entries]
      simpa using printed
    rw [drawPane_of_items listed, entries, window, Window.listInside_eq, ← drawn, ← List.map_take,
      List.flatMap_map]
    rfl
  · rw [total_map_of_ones single, length]
    exact Nat.min_le_right _ _

/-- Going on to a round in which six values have been printed, into five rows: the first value, which has two
lines, is scrolled out of sight, and the last one is on the screen. -/
theorem tail_drawn_iff_lines_fit_next_round :
    let t : Snapshot := { id := 1, output := ["1\n2", "3", "4", "5", "6", "7"] }
    let v := ofHistory [⟨1, []⟩, ⟨2, [t]⟩]
    let l := Size.layout ⟨80, 21⟩
    let w := v.apply (.key .right)
    v.Advances (.key .right) ∧ (l.pane .output).height = 7 ∧ w.thread? = some t ∧ t.output ≠ [] ∧
    t.output.length ≤ Scroll.bottom ∧ (∀ x ∈ t.output.drop 1, (Item.textLines x).length = 1) ∧
    w.Draws l .output 5 := by
  intro t v l w
  have advances : v.Advances (.key .right) := .inr ⟨.inl rfl, by decide⟩
  have height : (l.pane .output).height = 7 := by decide
  have shown : w.thread? = some t := by decide
  have single : ∀ x ∈ t.output.drop 1, (Item.textLines x).length = 1 := by decide
  obtain ⟨-, -, drawn⟩ :=
    tail_drawn_iff_lines_fit v (.key .right) advances l (by decide) t shown (by decide) (by decide)
  simp only [height] at drawn
  exact ⟨advances, height, shown, by decide, by decide, single, drawn single⟩

/-- A program prints a text of five lines and then a short one. At the end of the run the output has a window
with both entries and five rows, so that the first entry leaves no room for the last one. -/
theorem tail_hidden_by_long_entry :
    let program := Stmt.seq (.print (.string "1\n2\n3\n4\n5")) (.print (.string "6"))
    let s := Scheduler.ofProgram (.blank []) {} program
    let course := fun _ => Course.smooth ⟨2024, 1, 1, 0, 0, 0⟩
    let v := ofHistory (s.rounds course 3 0).journal.history.frames
    let l := Size.layout ⟨80, 21⟩
    let w := v.apply (.key .enter)
    v.Advances (.key .enter) ∧ (l.pane .output).height - 2 = 5 ∧
    w.thread?.map Snapshot.output = some ["\"1\n2\n3\n4\n5\"", "\"6\""] ∧
    (Item.textLines "\"6\"").length = 1 ∧ w.Draws l .output 0 ∧ ¬w.Draws l .output 1 := by
  intro program s course v l w
  exact ⟨.inl rfl, by decide, by decide +kernel, by decide, by decide +kernel, by decide +kernel⟩

end Viewer

end Lockstep
