import Lockstep.Total

/-!
Texts as sequences of lines.
-/

namespace Lockstep.Text

/-- The text that holds the given lines, each ended by a line feed. -/
def unlines (ls : List String) : String :=
  String.join (ls.map (· ++ "\n"))

theorem unlines_cons (l : String) (ls : List String) :
    unlines (l :: ls) = l ++ "\n" ++ unlines ls := by
  simp [unlines, String.join_cons]

/-- A list cut after every element that satisfies `p`. No piece is empty, and the pieces together are
the list. -/
def segments {α : Type} (p : α → Bool) : List α → List (List α)
  | [] => []
  | a :: rest =>
    if p a then [a] :: segments p rest
    else match segments p rest with
      | [] => [[a]]
      | s :: more => (a :: s) :: more

@[simp] theorem flatten_segments {α : Type} (p : α → Bool) (xs : List α) :
    (segments p xs).flatten = xs := by
  induction xs with
  | nil => rfl
  | cons a rest ih =>
    rw [segments]
    split
    · simp [ih]
    · split
      next empty => simpa [empty] using ih
      next s more cut => simpa [cut] using ih

/-- The sum of the lengths of some texts in bytes. -/
def byteCount (texts : List String) : Nat :=
  total (texts.map String.utf8ByteSize)

end Lockstep.Text
