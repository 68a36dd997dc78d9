import Marginalia.Plan
import Marginalia.World

/-!
# The state of a run

A run holds the world, the number of the checker it works with, the notes collected so far, the
files it has registered and a journal of its calls.  The checker is asked for when it is first
needed, so a run that needs none builds none.  A failing run keeps the world it has reached.
-/

namespace Marginalia
set_option autoImplicit false

/-- What a run is given and never changes. -/
structure Job where
  code : List Char
  root : String
  vocabulary : Flag.Vocabulary
  script : Checker.Script
  /-- The slot of the cache to use; without one every run has a checker of its own. -/
  slot : Option Nat
  /-- Whether information about an identifier is wanted: its text, its start and its file. -/
  wanted : Option (String → Int → String → Bool)
  /-- Whether a note is kept. -/
  kept : Option (Note → Bool)

structure Draft where
  world : World
  checker : Option Nat := none
  notes : List Note := []
  registered : List String := []
  /-- The calls to the checker so far. -/
  journal : List Checker.Call := []

abbrev Work := ExceptT Failure (StateM Draft)

namespace Work

def exec {α : Type} (work : Work α) (d : Draft) : Except Failure α × Draft :=
  StateT.run (ExceptT.run work) d

def addNotes (notes : List Note) : Work Unit :=
  modify fun d => { d with notes := d.notes ++ notes }

def report (e : Event) : Work Unit :=
  modify fun d => { d with world := d.world.report e }

def ofExcept {α : Type} : Except Failure α → Work α
  | .ok a => pure a
  | .error e => throw e

/-- The number of the run's checker, which is built or found when it is first asked for. -/
def checkerNumber (job : Job) (plan : Plan) : Work Nat := do
  let d ← get
  match d.checker with
  | some n => return n
  | none =>
    let (found, world) := d.world.acquire job.slot job.script plan.options
    set { d with world }
    let n ← ofExcept found
    modify fun d => { d with checker := some n }
    return n

/-- Call the run's checker.  The call is entered in the journal before it is answered. -/
def perform (job : Job) (plan : Plan) (call : Checker.Call) : Work call.Answer := do
  let n ← checkerNumber job plan
  let d ← get
  let (answer, world) := d.world.perform plan.options n call
  set { d with world, journal := d.journal ++ [call] }
  ofExcept answer

def quickInfo (job : Job) (plan : Plan) (s : Section) (i : Int) : Work (Option QuickInfo) :=
  perform job plan (.info s.path (i - s.offset))

def identifiers (s : Section) : Work (List Identifier) := do
  let d ← get
  let (found, world) := d.world.identifiers s.content s.extension
  set { d with world }
  return (← ofExcept found).map (Identifier.shift s.offset)

def isWanted (job : Job) (s : Section) (x : Identifier) : Work Bool :=
  match job.wanted with
  | none => return true
  | some wanted => do
    let call : HoverCall := ⟨String.ofList x.text, x.span.start, s.filename⟩
    modify fun d => { d with world := { d.world with hoverCalls := d.world.hoverCalls ++ [call] } }
    return wanted call.target call.start call.filename

end Work

end Marginalia
