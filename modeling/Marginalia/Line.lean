import Marginalia.Span.Basic
import Marginalia.Text.Slice

/-!
# Lines of a sample

Only the line feed ends a line.  A carriage return before it belongs to the line.
-/

namespace Marginalia
set_option autoImplicit false

/-- A line without its line feed, and the index of its first character. -/
structure Line where
  start : Nat
  text : List Char
deriving DecidableEq

namespace Line

/-- The line with its line feed; it ends one past the text when the last line has none. -/
def span (l : Line) : Span := ⟨l.start, l.start + l.text.length + 1⟩

def place (start : Nat) : List (List Char) → List Line
  | [] => []
  | text :: rest => ⟨start, text⟩ :: place (start + text.length + 1) rest

def all (code : List Char) : List Line := place 0 (Text.splitOn '\n' code)

def select {α : Type} (recognise : List Char → Option α) (code : List Char) : List (Line × α) :=
  (all code).filterMap fun l => (recognise l.text).map fun a => (l, a)

def withoutReturn (text : List Char) : List Char :=
  (Text.dropEnding? ['\r'] text).getD text

@[simp] theorem length_place (start : Nat) (texts : List (List Char)) :
    (place start texts).length = texts.length := by
  induction texts generalizing start with
  | nil => rfl
  | cons text rest ih => simp [place, ih]

@[simp] theorem map_text_place (start : Nat) (texts : List (List Char)) :
    (place start texts).map Line.text = texts := by
  induction texts generalizing start with
  | nil => rfl
  | cons text rest ih => simp [place, ih]

theorem map_text_all (code : List Char) : (all code).map Line.text = Text.splitOn '\n' code :=
  map_text_place 0 _

end Line

end Marginalia
