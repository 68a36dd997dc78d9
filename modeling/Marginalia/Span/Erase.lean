import Marginalia.Span.Merge
import Marginalia.Text.Slice

/-!
# Erasing spans

Spans are cut out of a text from the last to the first, so that the bounds of those still to be
cut stay right.  Whatever stands in the text moves with it: a mark before the cut stays, a mark
that reaches into the cut is lost, and a mark behind it moves back by the size of the cut.
-/

namespace Marginalia.Span
set_option autoImplicit false

/-- The start of a mark whose text was cut. -/
def lost : Int := -1

def cutText (text : List Char) (s : Span) : List Char :=
  Text.upTo text s.start ++ Text.onward text s.stop

/-- The start of a mark of the given length after one cut. -/
def moveStart (length : Int) (start : Int) (s : Span) : Int :=
  if start + length ≤ s.start then start
  else if start < s.stop then lost
  else start - s.size

def eraseText (text : List Char) (removals : List Span) : List Char :=
  (mergeDescending removals).foldl cutText text

/-- The start of a mark of the given length after all cuts. -/
def eraseStart (length start : Int) (removals : List Span) : Int :=
  (mergeDescending removals).foldl (moveStart length) start

@[simp] theorem eraseText_nil (text : List Char) : eraseText text [] = text := by
  simp [eraseText, mergeDescending]

@[simp] theorem eraseStart_nil (length start : Int) : eraseStart length start [] = start := by
  simp [eraseStart, mergeDescending]

theorem cutText_of_nonneg {text : List Char} {s : Span} (h : 0 ≤ s.start) (h' : s.start ≤ s.stop) :
    cutText text s = text.take s.start.toNat ++ text.drop s.stop.toNat := by
  have hstop : 0 ≤ s.stop := Int.le_trans h h'
  simp [cutText, Text.upTo, Text.onward, Text.place_of_nonneg h, Text.place_of_nonneg hstop]

end Marginalia.Span
