/-!
# Spans

A span is a stretch of a text given by its bounds.  As a set of characters it is half-open; a
caret that stands at either end of a span is said to touch it.  Spans may be reversed.
-/

namespace Marginalia
set_option autoImplicit false

structure Span where
  start : Int
  stop : Int
deriving DecidableEq

namespace Span

def contains (s : Span) (i : Int) : Bool := s.start ≤ i && i < s.stop

/-- The index lies in the span or at its end. -/
def touches (s : Span) (i : Int) : Bool := s.start ≤ i && i ≤ s.stop

/-- The index lies between the bounds and at neither of them. -/
def encloses (s : Span) (i : Int) : Bool := s.start < i && i < s.stop

/-- A bound of one span touches the other. -/
def meets (a b : Span) : Bool :=
  b.touches a.start || b.touches a.stop || a.touches b.start || a.touches b.stop

def size (s : Span) : Int := s.stop - s.start

@[simp] theorem contains_iff (s : Span) (i : Int) :
    s.contains i = true ↔ s.start ≤ i ∧ i < s.stop := by
  simp [contains]

@[simp] theorem touches_iff (s : Span) (i : Int) :
    s.touches i = true ↔ s.start ≤ i ∧ i ≤ s.stop := by
  simp [touches]

@[simp] theorem encloses_iff (s : Span) (i : Int) :
    s.encloses i = true ↔ s.start < i ∧ i < s.stop := by
  simp [encloses]

theorem meets_comm (a b : Span) : a.meets b = b.meets a := by
  simp only [meets]
  cases a.touches b.start <;> cases a.touches b.stop <;>
    cases b.touches a.start <;> cases b.touches a.stop <;> rfl

end Span

end Marginalia
