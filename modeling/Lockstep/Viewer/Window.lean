import Lockstep.Text.Lines
import Lockstep.Viewer.Palette

/-!
A bordered window on a list of entries.

The window shows as many entries as it has rows, from an offset on. The offset is cut down so that the
window is full whenever there are enough entries. An entry takes as many rows as its text has lines;
the first entry that does not fit any more is left out, and everything after it.
-/

namespace Lockstep

/-- An entry of a list: its lines, and the style of the rows that it takes. -/
structure Item where
  style : Style
  lines : List Row

namespace Item

/-- A line without the line feed at its end, or the carriage return and line feed there. -/
def dropLineEnd (line : List Char) : List Char :=
  match line.reverse with
  | '\n' :: '\r' :: rest => rest.reverse
  | '\n' :: rest => rest.reverse
  | _ => line

/-- The lines of a text for display; an empty text has one empty line. -/
def textLines (s : String) : List String :=
  match Text.segments (· = '\n') s.toList with
  | [] => [""]
  | lines => lines.map fun l => String.ofList (dropLineEnd l)

/-- A text in one style. -/
def ofText (style : Style) (s : String) : Item where
  style := style
  lines := (textLines s).map (Row.ofText style)

/-- A name with its value, on one line. -/
def binding (nameColor : Color) (name value : String) : Item where
  style := {}
  lines := [Row.ofText { fg := some nameColor } name ++
    Row.ofText { fg := some Palette.muted } " -> " ++
    Row.ofText { fg := some Palette.text } value]

/-- The number of rows that an entry takes. -/
def height (i : Item) : Nat :=
  i.lines.length

end Item

namespace Window

/-- The number of entries that a pane of height `h` shows; two rows are border. -/
def visible (h : Nat) : Nat :=
  max (h - 2) 1

/-- The offset at which `total` entries are shown when `offset` is asked for. -/
def clamp (total h offset : Nat) : Nat :=
  if visible h < total then min offset (total - visible h) else 0

/-- The entries from an offset on that are handed to the window. -/
def slice {α : Type} (items : List α) (h offset : Nat) : List α :=
  (items.drop offset).take (visible h)

/-- Rows for the entries from the top, as long as they fit into the given number of rows. -/
def stackRows (w : Nat) : Nat → List Item → Picture
  | _, [] => []
  | room, i :: rest =>
    if i.height ≤ room then
      i.lines.map (Row.fit w i.style) ++ stackRows w (room - i.height) rest
    else []

/-- The style of the border and the title. -/
def borderStyle (focused : Bool) : Style :=
  if focused then { fg := some Palette.bright, bold := true }
  else { fg := some Palette.muted }

/-- A frame of `w` by `h` cells around a picture, with a title in its upper side. Where there is no room
for all of the frame, its upper left corner is drawn. -/
def frame (w h : Nat) (title : String) (focused : Bool) (inside : Picture) : Picture :=
  let border := borderStyle focused
  let side (l m r : Char) (label : String) : Row :=
    Row.fill 1 border l ++
      (Row.ofText border label ++ Row.fill (w - 2 - label.length) border m).take (w - 2) ++
      Row.fill 1 border r
  let middle := (inside.fit (w - 2) (h - 2) {}).map fun row =>
    Row.fill 1 border '│' ++ row.fit (w - 2) {} ++ Row.fill 1 border '│'
  Picture.clip w h (side '┌' '─' '┐' (" " ++ title ++ " ") :: middle ++ [side '└' '─' '┘' ""])

/-- A frame has the height that is asked for, also where there is no room for its sides. -/
@[simp] theorem length_frame (w h : Nat) (title : String) (focused : Bool) (inside : Picture) :
    (frame w h title focused inside).length = h := by
  simp only [frame, Picture.length_clip, Picture.length_fit, List.length_append, List.length_cons,
    List.length_map, List.length_nil]
  omega

/-- The inside of a window without entries: a remark. -/
def emptyInside (w h : Nat) (remark : String) : Picture :=
  let style : Style := { fg := some Palette.muted }
  Picture.fit w h style [(Row.ofText style remark).fit w style]

/-- The inside of a window on some entries, which are indented by one cell. -/
def listInside (w h : Nat) (items : List Item) : Picture :=
  (stackRows (w - 1) h items).map (Row.fill 1 {} ' ' ++ ·)

/-- A window of `w` by `h` cells on some entries, at an offset that has been cut down. -/
def draw (w h : Nat) (title remark : String) (focused : Bool) (items : List Item) (offset : Nat) :
    Picture :=
  frame w h title focused <|
    if items.isEmpty then emptyInside (w - 2) (h - 2) remark
    else listInside (w - 2) (h - 2) (slice items h offset)

end Window

end Lockstep
