import Marginalia.Text.Slice

/-!
# Positions

An index into a text and a position, a line and a column in it, are two ways to name a place.
An index past the end lies on the last line, and a negative one on the first.
-/

namespace Marginalia
set_option autoImplicit false

structure Position where
  line : Nat
  column : Int
deriving DecidableEq

namespace Position

/-- The lines of a text, each with its line feed. -/
def withFeeds : List (List Char) → List (List Char)
  | [] => []
  | [last] => [last]
  | text :: rest => (text ++ ['\n']) :: withFeeds rest

def linesOf (code : List Char) : List (List Char) := withFeeds (Text.splitOn '\n' code)

/-- Walk the lines from the one with the given number until the index falls into one of them. -/
def locate (line : Nat) (i : Int) : List (List Char) → Position
  | [] => ⟨line, i⟩
  | [_] => ⟨line, i⟩
  | text :: rest =>
    if i < text.length then ⟨line, i⟩ else locate (line + 1) (i - text.length) rest

def ofIndex (code : List Char) (i : Int) : Position := locate 0 i (linesOf code)

/-- The index of a line and a column; a negative line counts from the last one. -/
def indexOf (code : List Char) (line column : Int) : Int :=
  let lines := linesOf code
  (lines.take (Text.place lines.length line)).flatten.length + column

def toIndex (code : List Char) (p : Position) : Int := indexOf code p.line p.column

/-- The same column on the line above; the first line stands above itself. -/
def above (code : List Char) (i : Int) : Int :=
  let p := ofIndex code i
  toIndex code ⟨p.line - 1, p.column⟩

theorem flatten_withFeeds (texts : List (List Char)) :
    (withFeeds texts).flatten = ['\n'].intercalate texts := by
  induction texts with
  | nil => rfl
  | cons text rest ih =>
    cases rest with
    | nil => simp [withFeeds]
    | cons next more => simp [withFeeds, ih]

@[simp] theorem length_withFeeds (texts : List (List Char)) :
    (withFeeds texts).length = texts.length := by
  induction texts with
  | nil => rfl
  | cons text rest ih =>
    cases rest with
    | nil => rfl
    | cons next more => simpa [withFeeds] using ih

theorem length_linesOf (code : List Char) : (linesOf code).length = code.count '\n' + 1 := by
  simp [linesOf, Text.length_splitOn]

end Position

end Marginalia
