import Marginalia.Decode.Primitive
import Marginalia.Position
import Marginalia.Span.Erase

/-!
# Notes

A note is what a run says about a place of the sample: the information under an identifier, an
answer to a marker, an error or a tag.  A note whose text has been erased has a negative start.
-/

namespace Marginalia
set_option autoImplicit false

/-- An entry of a completion list. -/
structure Completion where
  name : String
  kind : String := ""
  sortText : String := ""
deriving DecidableEq

/-- Information about an identifier, the target. -/
structure Info where
  text : String
  docs : Option String
  target : String
deriving DecidableEq

inductive Note.Body where
  | hover (info : Info)
  | query (info : Info)
  | highlight (info : Info) (label : Option String)
  | completion (entries : List Completion) (typed : String)
  | error (code : Int) (filename id text : String) (level : Int)
  | tag (name : String) (text : Option String)
deriving DecidableEq

structure Note where
  start : Int
  length : Int
  line : Option Int := none
  column : Option Int := none
  body : Note.Body
deriving DecidableEq

namespace Note

def Body.kindName : Body → String
  | hover _ => "hover"
  | query _ => "query"
  | highlight _ _ => "highlight"
  | completion _ _ => "completion"
  | error _ _ _ _ _ => "error"
  | tag _ _ => "tag"

def kindName (n : Note) : String := n.body.kindName

def isTag (n : Note) : Bool := n.kindName == "tag"

/-- The note after the spans have been erased from its text. -/
def erase (removals : List Span) (n : Note) : Note :=
  { n with start := Span.eraseStart n.length n.start removals }

/-- Notes are shown by start, and at one start by the name of their kind. -/
def precedes (a b : Note) : Bool :=
  a.start < b.start || (a.start == b.start && decide (a.kindName ≤ b.kindName))

def resolve (code : List Char) (n : Note) : Note :=
  let p := Position.ofIndex code n.start
  { n with line := some p.line, column := some p.column }

/-- Drop the lost notes, put the others in order and give them their positions. -/
def resolveAll (code : List Char) (notes : List Note) : List Note :=
  (Sorting.sort precedes (notes.filter fun n => 0 ≤ n.start)).map (resolve code)

open Decode

def leastStart : Int := Span.lost

def decodeInfo (entries : Entries) : Checked Info :=
  Info.mk <$> required entries "text" string
    <*> defaulted entries "docs" none (nullable string)
    <*> required entries "target" string

def decodeCompletion : Value → Checked Completion
  | .map entries =>
    Completion.mk <$> required entries "name" string
      <*> defaulted entries "kind" "" string
      <*> defaulted entries "sort_text" "" string
  | _ => Checked.fault .notRecord

def decodeErrorBody (entries : Entries) : Checked Body :=
  Body.error <$> required entries "code" integer
    <*> required entries "filename" string
    <*> required entries "id" string
    <*> required entries "text" string
    <*> required entries "level" integer

def decodeBody? (entries : Entries) (kind : String) : Option (Checked Body) :=
  match kind with
  | "hover" => some (Body.hover <$> decodeInfo entries)
  | "query" => some (Body.query <$> decodeInfo entries)
  | "highlight" => some (Body.highlight <$> decodeInfo entries
      <*> defaulted entries "label" none (nullable string))
  | "completion" => some (Body.completion
      <$> required entries "completions" (listOf decodeCompletion)
      <*> required entries "completions_prefix" string)
  | "error" => some (decodeErrorBody entries)
  | "tag" => some (Body.tag <$> required entries "name" string
      <*> defaulted entries "text" none (nullable string))
  | _ => none

/-- A note with the given body; the faults of the common fields come first. -/
def decodeWith (entries : Entries) (body : Checked Body) : Checked Note :=
  Note.mk <$> required entries "start" (integerFrom leastStart)
    <*> required entries "length" integer
    <*> defaulted entries "line" none (nullable integer)
    <*> defaulted entries "character" none (nullable integer)
    <*> body

def decode : Value → Checked Note
  | .map entries =>
    match Entries.get? entries "type" with
    | none => Checked.fault .noTag
    | some (.str kind) =>
      match decodeBody? entries kind with
      | some body => (decodeWith entries body).under (.key kind)
      | none => Checked.fault .unknownTag
    | some _ => Checked.fault .unknownTag
  | _ => Checked.fault .notTagged

/-- A note of the kind `error`, whose `type` need not be given but must be right if it is. -/
def decodeError : Value → Checked Note
  | .map entries =>
    decodeWith entries
      (defaulted entries "type" () (exactly "error") *> decodeErrorBody entries)
  | _ => Checked.fault .notRecord

@[simp] theorem erase_nil (n : Note) : n.erase [] = n := by
  simp [erase]

theorem kindName_erase (removals : List Span) (n : Note) : (n.erase removals).kindName = n.kindName :=
  rfl

end Note

end Marginalia
