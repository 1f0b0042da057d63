import Lockstep.Viewer.Event
import Lockstep.Viewer.Screen

/-!
Pictures as terminal escape sequences, and lines of input as keys.
-/

namespace Lockstep.Terminal

/-- The escape character with which control sequences start. -/
def escape : String := "\x1b["

/-- Enters the alternate screen and hides the cursor. -/
def enter : String := escape ++ "?1049h" ++ escape ++ "?25l"

/-- Shows the cursor and leaves the alternate screen. -/
def leave : String := escape ++ "?25h" ++ escape ++ "?1049l"

/-- The code of a colour on a layer: 30 for the foreground, 40 for the background. -/
def colorCode (layer : Nat) : Option Color → String
  | none => (layer + 9).repr
  | some .black => layer.repr
  | some (.rgb r g b) =>
    (layer + 8).repr ++ ";2;" ++ r.toNat.repr ++ ";" ++ g.toNat.repr ++ ";" ++ b.toNat.repr

/-- The sequence that selects a style. -/
def select (s : Style) : String :=
  escape ++ "0" ++ (if s.bold then ";1" else "") ++ ";" ++ colorCode 30 s.fg ++ ";" ++
    colorCode 40 s.bg ++ "m"

/-- A row as styled text. -/
def rowText (r : Row) : String :=
  String.join ((Row.runs r).map fun run => select run.1 ++ String.ofList run.2.flatten)

/-- A picture drawn from the upper left corner on. -/
def pictureText (p : Picture) : String :=
  escape ++ "H" ++ "\r\n".intercalate (p.map rowText) ++ escape ++ "0m"

/-- The keys that some characters stand for. -/
def keys : List Char → List Key
  | '\x1b' :: '[' :: 'A' :: rest => .up :: keys rest
  | '\x1b' :: '[' :: 'B' :: rest => .down :: keys rest
  | '\x1b' :: '[' :: 'C' :: rest => .right :: keys rest
  | '\x1b' :: '[' :: 'D' :: rest => .left :: keys rest
  | '\x1b' :: '[' :: '5' :: '~' :: rest => .pageUp :: keys rest
  | '\x1b' :: '[' :: '6' :: '~' :: rest => .pageDown :: keys rest
  | '\x1b' :: rest => .other :: keys rest
  | '\t' :: rest => .tab :: keys rest
  | '\x7f' :: rest => .backspace :: keys rest
  | '\x08' :: rest => .backspace :: keys rest
  | c :: rest => .char c :: keys rest
  | [] => []

/-- The keys in a line of input. The end of the line counts as a key only if nothing stands before
it. -/
def lineKeys (line : String) : List Key :=
  match line.toList.filter fun c => c ≠ '\n' && c ≠ '\r' with
  | [] => [.enter]
  | cs => keys cs

end Lockstep.Terminal
