/-!
Cells of a terminal screen, and rows of them.

A row is built from pieces of styled text and then fitted to a width. A picture is a list of rows.

A line break in a text has no cell of its own: a line feed is not drawn, and a carriage return with the
line feed after it goes into the cell next to it, or is not drawn either.
-/

namespace Lockstep

/-- A colour. -/
inductive Color where
  | black
  | rgb (r g b : UInt8)
deriving DecidableEq

/-- How a cell is drawn; a colour that is missing is that of the terminal. -/
structure Style where
  fg : Option Color := none
  bg : Option Color := none
  bold : Bool := false
deriving DecidableEq

/-- One cell: what stands in it, and how it is drawn. It holds a single character, beside which there
may be line breaks. -/
structure Cell where
  glyph : List Char
  style : Style
deriving DecidableEq

/-- Cells from left to right. -/
abbrev Row := List Cell

/-- Rows from top to bottom. -/
abbrev Picture := List Row

namespace Row

/-- A carriage return with the line feed after it. -/
def lineBreak : List Char := ['\r', '\n']

/-- A text in pieces that are drawn as one: a carriage return together with the line feed after it, and
any other character alone. Line feeds that stand alone are left out. -/
def pieces : List Char → List (List Char)
  | '\r' :: '\n' :: rest => lineBreak :: pieces rest
  | '\n' :: rest => pieces rest
  | c :: rest => [c] :: pieces rest
  | [] => []

/-- The piece `first` and those after it, where every line break goes into the piece before it. -/
def attach (first : List Char) : List (List Char) → List (List Char)
  | [] => [first]
  | p :: rest =>
    if p = lineBreak then attach (first ++ p) rest else first :: attach p rest

/-- The pieces of a text with the line breaks attached to their neighbours: to the piece before, and at
the start of the text to the first piece after. Nothing is left of a text of line breaks only. -/
def glyphs (s : String) : List (List Char) :=
  let ps := pieces s.toList
  match ps.dropWhile (· = lineBreak) with
  | [] => []
  | p :: rest => attach ((ps.takeWhile (· = lineBreak)).flatten ++ p) rest

/-- A styled text as cells, one for each character; line breaks stand in the cells of their
neighbours. -/
def ofText (style : Style) (s : String) : Row :=
  (glyphs s).map fun glyph => { glyph, style }

/-- A styled text as cells, one for each character; line breaks are not drawn. -/
def ofLine (style : Style) (s : String) : Row :=
  ((pieces s.toList).filter (· ≠ lineBreak)).map fun glyph => { glyph, style }

/-- A character repeated. -/
def fill (n : Nat) (style : Style) (c : Char) : Row :=
  List.replicate n { glyph := [c], style }

/-- A row of exactly `w` cells: cut on the right, or filled up with blanks. -/
def fit (w : Nat) (style : Style) (r : Row) : Row :=
  r.take w ++ fill (w - r.length) style ' '

/-- A row of exactly `w` cells with the given one at its right end, or cut on the right if it is
wider. -/
def fitRight (w : Nat) (style : Style) (r : Row) : Row :=
  fill (w - r.length) style ' ' ++ r.take w

@[simp] theorem length_fit (w : Nat) (style : Style) (r : Row) : (r.fit w style).length = w := by
  simp only [fit, fill, List.length_append, List.length_take, List.length_replicate]
  omega

@[simp] theorem length_fitRight (w : Nat) (style : Style) (r : Row) :
    (r.fitRight w style).length = w := by
  simp only [fitRight, fill, List.length_append, List.length_take, List.length_replicate]
  omega

/-- The characters of a row without the blanks at its end. -/
def text (r : Row) : String :=
  String.ofList (((r.flatMap (·.glyph)).reverse.dropWhile (· = ' ')).reverse)

/-- The stretches of a row that have one style each, with what stands in their cells. -/
def runs : Row → List (Style × List (List Char))
  | [] => []
  | c :: rest =>
    match runs rest with
    | [] => [(c.style, [c.glyph])]
    | (style, glyphs) :: more =>
      if style = c.style then (style, c.glyph :: glyphs) :: more
      else (c.style, [c.glyph]) :: (style, glyphs) :: more

end Row

namespace Picture

/-- A picture of exactly `h` rows of `w` cells: cut below, or filled up with blank rows. -/
def fit (w h : Nat) (style : Style) (p : Picture) : Picture :=
  p.take h ++ List.replicate (h - p.length) (Row.fill w style ' ')

/-- The upper left corner of a picture: at most `h` rows of at most `w` cells. -/
def clip (w h : Nat) (p : Picture) : Picture :=
  (p.take h).map (·.take w)

@[simp] theorem length_fit (w h : Nat) (style : Style) (p : Picture) :
    (p.fit w h style).length = h := by
  simp only [fit, List.length_append, List.length_take, List.length_replicate]
  omega

@[simp] theorem length_clip (w h : Nat) (p : Picture) :
    (p.clip w h).length = min h p.length := by
  simp only [clip, List.length_map, List.length_take]

/-- Two pictures side by side. -/
def beside (p q : Picture) : Picture :=
  List.zipWith (· ++ ·) p q

end Picture

end Lockstep
