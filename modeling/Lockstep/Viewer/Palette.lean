import Lockstep.Viewer.Cell

/-!
The colours of the viewer.
-/

namespace Lockstep.Palette

/-- Plain text. -/
def text : Color := .rgb 205 214 244

/-- The statement that runs next, and the round number. -/
def accent : Color := .rgb 137 180 250

/-- File names, threads that are still running, and playback. -/
def pending : Color := .rgb 250 179 135

/-- Separators, keys and remarks. -/
def muted : Color := .rgb 108 112 134

/-- Threads that have ended. -/
def done : Color := .rgb 166 227 161

/-- Threads that have failed, and the end of the history. -/
def failed : Color := .rgb 243 139 168

/-- The border of the pane that has the focus, and addresses of cells. -/
def bright : Color := .rgb 249 226 175

/-- The background of the status bar and of the statement that runs next. -/
def band : Color := .rgb 50 50 70

/-- Names of variables. -/
def name : Color := .rgb 148 226 213

end Lockstep.Palette
