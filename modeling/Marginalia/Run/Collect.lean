import Marginalia.Run.Draft

/-!
# Collecting the notes of a section

Every section that a checker takes is registered.  Unless the emitted text is shown, the notes of
its identifiers and the answers to the markers that point into it are collected: hovers first, then
queries, highlights and completions.
-/

namespace Marginalia.Work
set_option autoImplicit false

def infoOf (target : List Char) (q : QuickInfo) : Info := ⟨q.text, q.docs, String.ofList target⟩

/-- The hover of an identifier that stays, is wanted and is known to the checker. -/
def hover? (job : Job) (plan : Plan) (s : Section) (x : Identifier) : Work (Option Note) := do
  if plan.removes x.span.start then return none
  if !(← isWanted job s x) then return none
  match ← quickInfo job plan s x.span.start with
  | none => return none
  | some q =>
    return some { start := x.span.start, length := x.text.length, body := .hover (infoOf x.text q) }

/-- The line of a marker, counted from one, which stands below the line it points at. -/
def markerLine (job : Job) (target : Int) : Int := (Position.ofIndex job.code target).line + 2

def unresolved {α : Type} (job : Job) (s : Section) (kind : MarkerKind) (target : Int) : Work α :=
  throw (.unresolvedMarker kind (markerLine job target) s.filename)

/-- The answer to a query: the first identifier that the caret touches, at the caret's place. -/
def query (job : Job) (plan : Plan) (s : Section) (xs : List Identifier) (i : Int) : Work Note := do
  match xs.find? (·.span.touches i) with
  | none => unresolved job s .query i
  | some x =>
    match ← quickInfo job plan s i with
    | none => unresolved job s .query i
    | some q =>
      return { start := i, length := x.text.length, body := .query (infoOf x.text q) }

def highlighted? (job : Job) (plan : Plan) (s : Section) (h : Highlight) (x : Identifier) :
    Work (Option Note) := do
  if !x.span.meets h.span then return none
  match ← quickInfo job plan s x.span.start with
  | none => return none
  | some q =>
    return some
      { start := x.span.start, length := x.text.length, body := .highlight (infoOf x.text q) h.label }

/-- One note for every known identifier that meets the highlighted stretch, at least one. -/
def highlight (job : Job) (plan : Plan) (s : Section) (xs : List Identifier) (h : Highlight) :
    Work (List Note) := do
  let notes ← xs.filterMapM (highlighted? job plan s h)
  if notes.isEmpty then unresolved job s .highlight h.span.start
  return notes

/-- What has been typed before a caret: the end of the text before it without blanks and points.
A line feed right before the caret is passed over. -/
def typedBefore (before : List Char) : List Char :=
  let backwards := match before.reverse with
    | '\n' :: rest => rest
    | all => all
  (backwards.takeWhile fun c => !Text.isBlank c && c != '.').reverse

/-- The completions at a caret that stays: those that continue what has been typed. -/
def completion? (job : Job) (plan : Plan) (s : Section) (i : Int) : Work (Option Note) := do
  if plan.removes i then return none
  let offered ← perform job plan (.completions s.path (i - s.offset))
  if offered.isNone && !plan.behaviour.noErrorValidation then unresolved job s .completion i
  let typed := typedBefore (Text.upTo job.code i)
  let entries := (offered.getD []).filter fun e => typed.isPrefixOf e.name.toList
  return some { start := i, length := 0, body := .completion entries (String.ofList typed) }

def collect (job : Job) (plan : Plan) (s : Section) : Work Unit := do
  let queries := plan.asked.queries.filter s.contains
  let highlights := plan.asked.highlights.filter fun h => s.contains h.span.start
  let completions := plan.asked.completions.filter s.contains
  let hovers := !plan.behaviour.noStaticSemanticInfo
  let xs ← if hovers || !queries.isEmpty || !highlights.isEmpty then identifiers s else pure []
  if hovers then
    addNotes (← xs.filterMapM (hover? job plan s))
  addNotes (← queries.mapM (query job plan s xs))
  highlights.forM fun h => do addNotes (← highlight job plan s xs h)
  addNotes (← completions.filterMapM (completion? job plan s))

def register (job : Job) (plan : Plan) (s : Section) : Work Unit := do
  perform job plan (.create s.path s.content)
  modify fun d => { d with registered := d.registered ++ [s.path] }
  report (.fileRegistered s.path s.content.length s.offset)

/-- Register the sections one after the other and collect their notes. -/
def populate (job : Job) (plan : Plan) : Work Unit :=
  (plan.sections.filter plan.registers).forM fun s => do
    register job plan s
    if !plan.behaviour.showEmit then collect job plan s

end Marginalia.Work
