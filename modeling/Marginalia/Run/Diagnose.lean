import Marginalia.Expectation
import Marginalia.Run.Draft

/-!
# Errors of a sample

When all files are registered, the errors of the source files become notes.  The caller's filter
goes over all notes at this point, and what it leaves of the errors is held against the declared
codes.
-/

namespace Marginalia.Work
set_option autoImplicit false

def errorId (code start length : Int) : String :=
  "err-" ++ toString code ++ "-" ++ toString start ++ "-" ++ toString length

/-- The note of an error that is neither silenced nor, if that is asked for, in a removed place. -/
def errorNote? (plan : Plan) (s : Section) (e : Checker.Diagnostic) : Option Note :=
  let start := e.start + s.offset
  if e.path != s.path || plan.behaviour.ignoredCodes.contains e.code then none
  else if plan.behaviour.noErrorsCutted && plan.removes start then none
  else some
    { start, length := e.length
      body := .error e.code s.filename (errorId e.code start e.length) e.message e.category }

def errorNotes (job : Job) (plan : Plan) : Work (List Note) := do
  if plan.behaviour.noErrors = .all then return []
  let sources := plan.sections.filter fun s => Language.isSource s.extension
  let notes ← sources.mapM fun s => do
    return (← perform job plan (.diagnostics s.path)).filterMap (errorNote? plan s)
  return notes.flatten

def reported? (n : Note) : Option Reported :=
  match n.body with
  | .error code filename _ text _ => some ⟨code, n.start, filename, text⟩
  | _ => none

def expect (expected : List Int) (root : String) (errors : List Note) : Work Unit := do
  let listed := errors.filterMap reported?
  match Expectation.event? expected listed with
  | some e => report e
  | none => pure ()
  ofExcept (Expectation.check expected root listed)

def diagnose (job : Job) (plan : Plan) : Work Unit := do
  let found ← errorNotes job plan
  let keep := job.kept.getD fun _ => true
  let errors := found.filter keep
  modify fun d => { d with notes := d.notes.filter keep ++ errors }
  if !plan.behaviour.noErrorValidation && plan.behaviour.noErrors != .all then
    expect plan.behaviour.errors job.root errors

end Marginalia.Work
