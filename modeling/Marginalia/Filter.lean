import Marginalia.Note

/-!
# Filters

Declarative forms of the two questions that a caller can answer: whether information about an
identifier is wanted, and whether a note is kept.
-/

namespace Marginalia
set_option autoImplicit false

/-- Limits on the identifiers whose information is wanted; an absent limit allows everything. -/
structure HoverFilter where
  only : Option (List String) := none
  except : Option (List String) := none
  files : Option (List String) := none
  least : Option Int := none

def HoverFilter.accepts (f : HoverFilter) (target : String) (start : Int) (filename : String) : Bool :=
  f.only.all (·.contains target) && f.except.all (!·.contains target) &&
    f.files.all (·.contains filename) && f.least.all (· ≤ start)

/-- What is dropped from the notes. -/
structure NoteFilter where
  kinds : List String := []
  codes : List Int := []
  targets : List String := []
  below : Option Int := none

def Note.code? (n : Note) : Option Int :=
  match n.body with
  | .error code _ _ _ _ => some code
  | _ => none

def Note.target? (n : Note) : Option String :=
  match n.body with
  | .hover info => some info.target
  | .query info => some info.target
  | .highlight info _ => some info.target
  | _ => none

def NoteFilter.keeps (f : NoteFilter) (n : Note) : Bool :=
  !f.kinds.contains n.kindName && n.code?.all (!f.codes.contains ·) &&
    n.target?.all (!f.targets.contains ·) && f.below.all (· ≤ n.start)

end Marginalia
