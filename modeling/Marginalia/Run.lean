import Marginalia.Run.Collect
import Marginalia.Run.Diagnose
import Marginalia.Run.Emit

/-!
# Runs

A run reads the sample, registers its files and collects notes, adds the errors, replaces the
sample by the emitted text if that is wanted, erases what is to be removed and gives the notes
their final positions.
-/

namespace Marginalia
set_option autoImplicit false

structure Result where
  code : List Char
  notes : List Note
  plan : Plan

namespace Work

/-- Move a tag off the directive lines behind it, so that it stands on the first text that stays.
A tag inside a cut or a marker line stays where it is and is lost with the text around it. -/
def anchor (plan : Plan) (n : Note) : Note :=
  let flagSpans := plan.flags.map Flag.span
  let others := plan.removals.filter fun r => !flagSpans.contains r
  if !n.isTag || others.any (·.encloses n.start) then n
  else match (Span.merge plan.removals).find? (·.encloses n.start) with
    | some s => { n with start := s.stop }
    | none => n

/-- Erase the removals from the text and from under the notes. -/
def erase (plan : Plan) (code : List Char) : Work (List Char × Plan) := do
  let spans := Span.mergeDescending plan.removals
  let notes := (← get).notes.map fun n => (anchor plan n).erase plan.removals
  modify fun d => { d with notes }
  report (.erased spans.length (notes.filter fun n => 0 ≤ n.start).length)
  return (Span.eraseText code plan.removals, { plan with removals := spans })

def finish (plan : Plan) (code : List Char) : Work Result := do
  let (final, plan) ← if plan.behaviour.keepNotations then pure (code, plan) else erase plan code
  return ⟨final, Note.resolveAll final (← get).notes, plan⟩

/-- A whole run from the plan of its caller. -/
def run (job : Job) (start : Plan) : Work Result := do
  let (plan, tags) ← ofExcept (start.read job.vocabulary job.root job.code)
  addNotes tags
  populate job plan
  diagnose job plan
  let (shown, plan) ← emit job plan
  finish plan shown

end Work

end Marginalia
