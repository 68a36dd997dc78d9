import Marginalia.Run.Draft

/-!
# Showing the emitted text

Instead of the sample a run can show what the checker emits for one of its files.  The checker is
given the files as they are after erasure; the shown text then replaces the sample, and notes and
removals are dropped with it.
-/

namespace Marginalia.Work
set_option autoImplicit false

/-- Bring the registered files up to date with the erased sample. -/
def updateFiles (job : Job) (plan : Plan) : Work Unit := do
  let erased := Span.eraseText job.code plan.removals
  (Section.split erased (Plan.defaultName plan.extension) job.root).forM fun s => do
    if (← get).registered.contains s.path then
      perform job plan (.update s.path s.content)

def defaultShown (plan : Plan) : String :=
  if ((plan.options.get? "jsx").getD .null).equalsInt Schema.preserveMarkup then "index.jsx"
  else "index.js"

/-- The name of the output to show; an empty name counts as none. -/
def shownName (plan : Plan) : String :=
  match plan.behaviour.showEmittedFile with
  | some name => if name.isEmpty then defaultShown plan else name
  | none => defaultShown plan

/-- The file whose output is shown: any one if all files have one output, else the first one with
the same stem. -/
def sourceFor? (plan : Plan) (shown : String) : Option String :=
  let bundled := ((plan.options.get? "outFile").getD .null).truthy
  let sameStem := plan.sections.find? fun s => Language.stem s.filename == Language.stem shown
  ((if bundled then plan.sections.head? else none).or sameStem).map Section.filename

/-- The output to show and the plan without removals. -/
def showOutput (job : Job) (plan : Plan) : Work (List Char × Plan) := do
  updateFiles job plan
  let shown := shownName plan
  match sourceFor? plan shown with
  | none => throw (.missingSource shown (plan.sections.map Section.filename))
  | some source =>
    let outputs ← perform job plan (.emit (job.root ++ source))
    let path := job.root ++ shown
    match outputs.find? fun o => o.name == path || o.name == shown with
    | none => throw (.missingOutput shown path (outputs.map Checker.Output.name))
    | some output =>
      report (.emitShown source output.name)
      modify fun d => { d with notes := [] }
      return (output.text,
        { plan with extension := Language.extensionOf output.name, removals := [] })

def emit (job : Job) (plan : Plan) : Work (List Char × Plan) :=
  if plan.behaviour.showEmit then showOutput job plan else return (job.code, plan)

end Marginalia.Work
