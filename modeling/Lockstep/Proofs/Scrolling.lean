import Lockstep.Proofs.Viewing

/-!
Scrolling.

Drawing cuts the offset of a pane down to that of the last full window, so that no room is left empty while
there are entries above; drawing once more changes nothing. On a viewer that has been drawn, the two keys that
scroll move the pane that has the focus by one entry, no further than to the last full window, and nothing
else. So a pane can be scrolled through from its first entry to its last.
-/

namespace Lockstep

/-! ### Windows -/

namespace Window

theorem clamp_eq (total h offset : Nat) : clamp total h offset = min offset (total - visible h) := by
  rw [clamp]
  split <;> omega

@[simp] theorem clamp_clamp (total h offset : Nat) :
    clamp total h (clamp total h offset) = clamp total h offset := by
  simp only [clamp_eq]
  omega

theorem getElem?_slice {α : Type} (items : List α) {h offset i : Nat} (inside : i < visible h) :
    (slice items h offset)[i]? = items[offset + i]? := by
  rw [slice, List.getElem?_take_of_lt inside, List.getElem?_drop]

/-- A window at an offset that has been cut down is full, or holds all entries. -/
theorem length_slice_clamp {α : Type} (items : List α) (h offset : Nat) :
    (slice items h (clamp items.length h offset)).length = min items.length (visible h) := by
  simp only [slice, clamp_eq, List.length_take, List.length_drop]
  omega

end Window

/-! ### Offsets of a viewer -/

namespace Scroll

theorem ext_get {a b : Scroll} (same : ∀ p, a.get p = b.get p) : a = b := by
  cases a
  cases b
  simp only [mk.injEq]
  exact ⟨same .stack, same .symbols, same .heap, same .files, same .output⟩

@[simp] theorem set_set (a : Scroll) (p : Pane) (m n : Nat) : (a.set p m).set p n = a.set p n :=
  ext_get fun q => by
    simp only [get_set]
    split <;> rfl

@[simp] theorem set_get (a : Scroll) (p : Pane) : a.set p (a.get p) = a :=
  ext_get fun q => by
    rw [get_set]
    split
    next same => rw [same]
    next => rfl

end Scroll

namespace Viewer

variable {v : Viewer} {l : Layout}

@[simp] theorem get_scroll_drawn (v : Viewer) (l : Layout) (p : Pane) :
    (v.drawn l).scroll.get p = v.offset l p := by
  cases p <;> rfl

/-- Drawing a viewer twice is drawing it once. -/
@[simp] theorem drawn_drawn (v : Viewer) (l : Layout) : (v.drawn l).drawn l = v.drawn l := by
  have same (p : Pane) : (v.drawn l).offset l p = v.offset l p := by
    rw [offset, get_scroll_drawn]
    exact Window.clamp_clamp _ _ _
  have kept : ((v.drawn l).drawn l).scroll = (v.drawn l).scroll :=
    Scroll.ext_get fun p => by rw [get_scroll_drawn, get_scroll_drawn, same]
  exact congrArg (fun scroll => { v with scroll }) kept

/-- A pane that has entries shows those from its offset on. -/
theorem drawPane_of_items {p : Pane} (some_ : v.items p ≠ []) :
    v.drawPane l p = Window.frame (l.pane p).width (l.pane p).height p.title (v.focus = p)
      (Window.listInside ((l.pane p).width - 2) ((l.pane p).height - 2)
        (Window.slice (v.items p) (l.pane p).height (v.offset l p))) := by
  have listed : (v.items p).isEmpty = false := by simpa using some_
  rw [drawPane, Window.draw, listed]
  rfl

/-- The viewer with the pane that has the focus moved to an offset. -/
def scrolledTo (v : Viewer) (n : Nat) : Viewer :=
  { v with scroll := v.scroll.set v.focus n }

/-- The offset of the pane that has the focus. -/
def focusOffset (v : Viewer) : Nat :=
  v.scroll.get v.focus

/-- The offset at which the last full window of the pane that has the focus begins. -/
def lastOffset (v : Viewer) (l : Layout) : Nat :=
  (v.items v.focus).length - Window.visible (l.pane v.focus).height

@[simp] theorem focusOffset_scrolledTo (v : Viewer) (n : Nat) : (v.scrolledTo n).focusOffset = n := by
  simp [focusOffset, scrolledTo]

@[simp] theorem lastOffset_scrolledTo (v : Viewer) (l : Layout) (n : Nat) :
    (v.scrolledTo n).lastOffset l = v.lastOffset l := rfl

@[simp] theorem scrolledTo_scrolledTo (v : Viewer) (m n : Nat) :
    (v.scrolledTo m).scrolledTo n = v.scrolledTo n := by
  simp only [scrolledTo, Scroll.set_set]

@[simp] theorem scrolledTo_focusOffset (v : Viewer) : v.scrolledTo v.focusOffset = v := by
  simp only [scrolledTo, focusOffset, Scroll.set_get]

theorem get_scroll_scrolledTo {p : Pane} (other : p ≠ v.focus) (n : Nat) :
    (v.scrolledTo n).scroll.get p = v.scroll.get p := by
  simp only [scrolledTo, Scroll.get_set, if_neg other]

/-- On a viewer that has been drawn, only the pane that is moved is cut down. -/
theorem drawn_scrolledTo (settled : v.drawn l = v) (n : Nat) :
    (v.scrolledTo n).drawn l = v.scrolledTo (min n (v.lastOffset l)) := by
  have offsets : ((v.scrolledTo n).drawn l).scroll = (v.scrolledTo (min n (v.lastOffset l))).scroll := by
    apply Scroll.ext_get
    intro p
    rw [get_scroll_drawn]
    by_cases same : p = v.focus
    · subst same
      have moved : (v.scrolledTo n).scroll.get v.focus = n := focusOffset_scrolledTo v n
      rw [offset, moved, Window.clamp_eq]
      exact (focusOffset_scrolledTo v _).symm
    · -- the other panes have been cut down before
      have kept : v.offset l p = v.scroll.get p := by
        rw [← get_scroll_drawn, settled]
      rw [offset, get_scroll_scrolledTo same, get_scroll_scrolledTo same]
      exact kept
  exact congrArg (fun scroll => { v with scroll }) offsets

theorem focusOffset_le (settled : v.drawn l = v) : v.focusOffset ≤ v.lastOffset l := by
  -- moving the pane to where it stands changes nothing, and cuts the offset down
  have bounded := drawn_scrolledTo settled v.focusOffset
  rw [scrolledTo_focusOffset, settled] at bounded
  have same := congrArg focusOffset bounded
  rw [focusOffset_scrolledTo] at same
  omega

/-! ### Keys that scroll -/

theorem press_pageDown (v : Viewer) :
    v.press .pageDown = v.scrolledTo (min (v.focusOffset + 1) Scroll.bottom) := rfl

theorem press_pageUp (v : Viewer) : v.press .pageUp = v.scrolledTo (v.focusOffset - 1) := rfl

/-- Each of the two keys moves the pane that has the focus, and does nothing else. -/
theorem press_eq_scrolledTo {k : Key} (scrolls : k ∈ [Key.pageDown, Key.pageUp]) (v : Viewer) :
    ∃ n, v.press k = v.scrolledTo n := by
  simp only [List.mem_cons, List.not_mem_nil, or_false] at scrolls
  rcases scrolls with rfl | rfl
  · exact ⟨_, v.press_pageDown⟩
  · exact ⟨_, v.press_pageUp⟩

variable (settled : v.drawn l = v) (countable : v.lastOffset l ≤ Scroll.bottom)
include settled countable

theorem drawn_pageDown :
    (v.press .pageDown).drawn l = v.scrolledTo (min (v.focusOffset + 1) (v.lastOffset l)) := by
  rw [press_pageDown, drawn_scrolledTo settled]
  congr 1
  omega

/-- Pressing the key several times, with the viewer drawn after each. -/
theorem run_pageDowns (k : Nat) :
    v.run (List.replicate k [.key .pageDown, .draw l]).flatten =
      v.scrolledTo (min (v.focusOffset + k) (v.lastOffset l)) := by
  induction k generalizing v with
  | zero =>
    have bounded := focusOffset_le settled
    simp [Nat.min_eq_left bounded]
  | succ k ih =>
    -- the first press leaves a viewer that has been drawn, with the same last window
    have again : ((v.press .pageDown).drawn l).drawn l = (v.press .pageDown).drawn l := drawn_drawn _ _
    have bound : ((v.press .pageDown).drawn l).lastOffset l ≤ Scroll.bottom := by
      rw [drawn_pageDown settled countable]
      exact countable
    have rest := ih again bound
    rw [List.replicate_succ, List.flatten_cons, List.cons_append, List.cons_append, List.nil_append]
    change ((v.press .pageDown).drawn l).run _ = _
    rw [rest, drawn_pageDown settled countable, focusOffset_scrolledTo, lastOffset_scrolledTo,
      scrolledTo_scrolledTo]
    congr 1
    omega

/-- The other key leads back, unless the pane was at its end. -/
theorem run_pageDown_pageUp (below : v.focusOffset < v.lastOffset l) :
    v.run [.key .pageDown, .draw l, .key .pageUp, .draw l] = v := by
  have down : (v.press .pageDown).drawn l = v.scrolledTo (v.focusOffset + 1) := by
    rw [drawn_pageDown settled countable, Nat.min_eq_left below]
  have up : (v.scrolledTo (v.focusOffset + 1)).press .pageUp = v := by
    rw [press_pageUp, focusOffset_scrolledTo, scrolledTo_scrolledTo, Nat.add_sub_cancel,
      scrolledTo_focusOffset]
  change (((v.press .pageDown).drawn l).press .pageUp).drawn l = v
  rw [down, up, settled]

omit settled countable

/-- A pane always shows a full window, and can be scrolled through. Take any entries, any height of a pane and
any offset, the largest one included: drawing leaves the offset at zero if the entries fit, and otherwise cuts
it down to that of the last full window; as many entries as fit are handed to the window, one after another
from the offset on; and the offset stays when it is cut down again. So it is with each pane of a viewer that
is drawn, whatever the sizes of the panes are. If the viewer is drawn after every key, then in the pane that
has the focus, provided that an offset can count its entries: the key that scrolls down, pressed `k` times
from the top, leads to offset `k` or the last full window, so that each entry is in the window for some `k`;
the key that scrolls up undoes it unless the window was the last; and neither key moves another pane. -/
theorem scrolling_reaches_every_entry :
    (∀ (α : Type) (items : List α) (h asked : Nat),
      let total := items.length
      let rows := max (h - 2) 1
      let o := Window.clamp total h asked
      o = (if total ≤ rows then 0 else min asked (total - rows)) ∧
      (Window.slice items h o).length = min total rows ∧
      (∀ i < min total rows, (Window.slice items h o)[i]? = items[o + i]?) ∧
      Window.clamp total h o = o) ∧
    ∀ (v : Viewer) (l : Layout),
      let w := v.drawn l
      let total := (v.items v.focus).length
      let rows := max ((l.pane v.focus).height - 2) 1
      let offset (u : Viewer) := u.scroll.get v.focus
      let downs (k : Nat) := w.run (List.replicate k [.key .pageDown, .draw l]).flatten
      (∀ p, w.scroll.get p = Window.clamp (v.items p).length (l.pane p).height (v.scroll.get p) ∧
        w.items p = v.items p ∧
        (v.items p ≠ [] →
          v.drawPane l p = Window.frame (l.pane p).width (l.pane p).height p.title (v.focus = p)
            (Window.listInside ((l.pane p).width - 2) ((l.pane p).height - 2)
              (Window.slice (v.items p) (l.pane p).height (w.scroll.get p))))) ∧
      w.drawn l = w ∧
      (total ≤ Scroll.bottom → offset w = 0 →
        (∀ k, offset (downs k) = min k (total - rows)) ∧
        ∀ i < total, ∃ k, offset (downs k) ≤ i ∧ i < offset (downs k) + rows) ∧
      (total ≤ Scroll.bottom → offset w < total - rows →
        w.run [.key .pageDown, .draw l, .key .pageUp, .draw l] = w) ∧
      ∀ k ∈ [Key.pageDown, Key.pageUp], ∀ p ≠ v.focus,
        (v.press k).scroll.get p = v.scroll.get p ∧
          ((w.press k).drawn l).scroll.get p = w.scroll.get p := by
  refine ⟨fun α items h asked => ?_, fun v l => ?_⟩
  · intro total rows o
    refine ⟨?_, Window.length_slice_clamp items h asked, fun i inside => ?_, Window.clamp_clamp _ _ _⟩
    · rw [show o = min asked (total - rows) from Window.clamp_eq _ _ _]
      split <;> omega
    · exact Window.getElem?_slice items (Nat.lt_of_lt_of_le inside (Nat.min_le_right _ _))
  · intro w total rows offset downs
    have settled : w.drawn l = w := drawn_drawn v l
    have countable (bounded : total ≤ Scroll.bottom) : w.lastOffset l ≤ Scroll.bottom :=
      Nat.le_trans (Nat.sub_le _ _) bounded
    refine ⟨fun p => ⟨get_scroll_drawn v l p, rfl, fun some_ => ?_⟩, settled, fun bounded top => ?_,
      fun bounded below => run_pageDown_pageUp settled (countable bounded) below, ?_⟩
    · rw [get_scroll_drawn]
      exact drawPane_of_items some_
    · have reached (k : Nat) : offset (downs k) = min k (total - rows) := by
        have there : downs k = w.scrolledTo (min (w.focusOffset + k) (w.lastOffset l)) :=
          run_pageDowns settled (countable bounded) k
        rw [there, show w.focusOffset = 0 from top, Nat.zero_add]
        exact focusOffset_scrolledTo w _
      refine ⟨reached, fun i inside => ⟨i, ?_⟩⟩
      -- after `i` presses the entry is the first one of the window, or the window is the last one
      rw [reached]
      omega
    · intro k scrolls p other
      obtain ⟨m, before⟩ := v.press_eq_scrolledTo scrolls
      obtain ⟨n, after⟩ := w.press_eq_scrolledTo scrolls
      rw [before, after, drawn_scrolledTo settled]
      exact ⟨get_scroll_scrolledTo other m, get_scroll_scrolledTo (v := w) other _⟩

/-- Seven printed values in a pane with five rows, one of them empty and one with a line break: three presses
scroll by two entries, which leads to the last window. -/
theorem scrolling_reaches_every_entry_five_rows :
    let texts := ["1", "2", "", "4\n5", "6", "7", "8"]
    let v := (ofHistory [⟨1, [{ id := 1, output := texts }]⟩]).run (List.replicate 4 (.key .tab))
    let l := Size.layout ⟨80, 21⟩
    let w := v.drawn l
    let offset (u : Viewer) := u.scroll.get .output
    let downs (k : Nat) := w.run (List.replicate k [.key .pageDown, .draw l]).flatten
    v.focus = .output ∧ (l.pane .output).height - 2 = 5 ∧ (v.items .output).length = 7 ∧
    7 ≤ Scroll.bottom ∧ offset w = 0 ∧ offset (downs 3) = 2 ∧
    (∃ k, offset (downs k) ≤ 6 ∧ 6 < offset (downs k) + 5) ∧
    w.run [.key .pageDown, .draw l, .key .pageUp, .draw l] = w := by
  intro texts v l w offset downs
  have bounded : 7 ≤ Scroll.bottom := by decide
  have top : offset w = 0 := by decide
  have rows : max ((l.pane v.focus).height - 2) 1 = 5 := by decide
  have counted : (v.items v.focus).length = 7 := rfl
  obtain ⟨-, -, scrolls, undone, -⟩ := scrolling_reaches_every_entry.2 v l
  simp only [rows, counted] at scrolls undone
  obtain ⟨reached, every⟩ := scrolls bounded top
  exact ⟨rfl, by decide, rfl, bounded, top, reached 3, every 6 (by decide), undone bounded (by decide)⟩

end Viewer

end Lockstep
