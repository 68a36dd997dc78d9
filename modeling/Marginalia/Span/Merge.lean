import Marginalia.Sorting
import Marginalia.Span.Basic

/-!
# Merged spans

Spans in the order of their starts, where every span that overlaps or touches the one before it
has been joined to it.
-/

namespace Marginalia.Span
set_option autoImplicit false

def byStart (spans : List Span) : List Span :=
  Sorting.sort (fun a b => decide (a.start ≤ b.start)) spans

/-- Join spans in the order of their starts to the open one for as long as they reach it. -/
def coalesce (opened : Span) : List Span → List Span
  | [] => [opened]
  | s :: rest =>
    if s.start ≤ opened.stop then coalesce ⟨opened.start, max opened.stop s.stop⟩ rest
    else opened :: coalesce s rest

/-- Join all spans of a list that is in the order of its starts. -/
def join : List Span → List Span
  | [] => []
  | s :: rest => coalesce s rest

def merge (spans : List Span) : List Span := join (byStart spans)

def mergeDescending (spans : List Span) : List Span :=
  Sorting.sort (fun a b => decide (b.start ≤ a.start)) (merge spans)

@[simp] theorem merge_nil : merge [] = [] := by
  rfl

theorem byStart_perm (spans : List Span) : (byStart spans).Perm spans :=
  Sorting.sort_perm _ spans

theorem mergeDescending_perm (spans : List Span) : (mergeDescending spans).Perm (merge spans) :=
  Sorting.sort_perm _ _

end Marginalia.Span
