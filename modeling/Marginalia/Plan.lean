import Marginalia.Cut
import Marginalia.Flag
import Marginalia.Marker
import Marginalia.Note
import Marginalia.Section

/-!
# Plans

What a run knows about its sample: the options in effect, the spans to erase, the sections and the
places that are asked about.  Reading the directives of a sample completes the plan of its caller
and needs no checker.
-/

namespace Marginalia
set_option autoImplicit false

structure Plan where
  extension : String
  options : Entries
  behaviour : Behaviour
  asked : Marker.Requests := {}
  removals : List Span := []
  flags : List Flag := []
  sections : List Section := []

namespace Plan

def defaultName (extension : String) : String := "index." ++ extension

def applyFlag (p : Plan) (f : Flag) : Plan :=
  match f.kind with
  | .compiler => { p with options := p.options.set f.name f.value }
  | .behaviour =>
    match Behaviour.Field.ofSpelling? f.name with
    | some field => { p with behaviour := p.behaviour.set field f.value }
    | none => p
  | _ => p

/-- The note of a tag: it stands behind the tag's line and has no length. -/
def tagNote? (f : Flag) : Option Note :=
  match f.kind, f.value with
  | .tag, .str s => some { start := f.span.stop, length := 0, body := .tag f.name (some s) }
  | .tag, _ => some { start := f.span.stop, length := 0, body := .tag f.name none }
  | _, _ => none

def unknownNames (flags : List Flag) : List String :=
  (flags.filter (·.kind == .unknown)).map Flag.name

/-- Unknown flags are refused unless errors are not checked, and the emitted text cannot keep the
directives of the sample. -/
def checkOptions (p : Plan) : Except Failure Unit :=
  let unknown := unknownNames p.flags
  if !p.behaviour.noErrorValidation && !unknown.isEmpty then .error (.unknownFlags unknown)
  else if p.behaviour.showEmit && p.behaviour.keepNotations then .error .incompatibleOptions
  else .ok ()

/-- The plan after its flags, before cuts and markers. -/
def withFlags (p : Plan) (flags : List Flag) : Plan :=
  { flags.foldl applyFlag p with flags, removals := flags.map Flag.span }

/-- Read the directives of a sample. -/
def read (p : Plan) (vocabulary : Flag.Vocabulary) (root : String) (code : List Char) :
    Except Failure (Plan × List Note) := do
  let flags ← Flag.findAll vocabulary code
  let flagged := p.withFlags flags
  flagged.checkOptions
  let cuts ← Cut.findAll code
  let plan := { flagged with
    removals := flagged.removals ++ cuts ++ Marker.removals code
    asked := Marker.requests code flagged.asked
    sections := Section.split code (defaultName p.extension) root }
  return (plan, flags.filterMap tagNote?)

/-- The character at the index is going to be erased. -/
def removes (p : Plan) (i : Int) : Bool := p.removals.any (·.contains i)

/-- Files that a checker takes; data files only if modules may be made of them. -/
def registers (p : Plan) (s : Section) : Bool :=
  if s.extension == "json" then ((p.options.get? "resolveJsonModule").getD .null).truthy
  else Language.isSource s.extension

end Plan

end Marginalia
