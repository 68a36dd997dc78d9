import Marginalia.Behaviour
import Marginalia.Directive
import Marginalia.Schema.Declaration
import Marginalia.Sorting

/-!
# Flags

A flag line sets a compiler option or a behaviour option, or is a tag of the caller's own.  A name
is first sought among the custom tags, then in the schema without regard to case, then among the
behaviour options.
-/

namespace Marginalia
set_option autoImplicit false

inductive Flag.Kind where
  | compiler
  | behaviour
  | tag
  | unknown
deriving DecidableEq

structure Flag where
  kind : Flag.Kind
  name : String
  value : Value
  span : Span

namespace Flag

/-- What names can mean in a sample. -/
structure Vocabulary where
  tags : List String
  declarations : List Declaration

/-- The first declaration whose name agrees in lower case. -/
def Vocabulary.declaration? (v : Vocabulary) (name : String) : Option Declaration :=
  v.declarations.find? fun d => Text.lower d.name == Text.lower name

/-- What a name with its value means, wherever the flag stands. -/
def read (v : Vocabulary) (name : String) (value : Value) : Except Failure (Span → Flag) :=
  if v.tags.contains name then .ok (Flag.mk .tag name value)
  else match v.declaration? name with
    | some d => (d.coerce value).map fun coerced => Flag.mk .compiler d.name coerced
    | none =>
      match Behaviour.Field.ofSpelling? name with
      | some f => (f.coerce value).map fun coerced => Flag.mk .behaviour name coerced
      | none => .ok (Flag.mk .unknown name value)

def parse (v : Vocabulary) (name : String) (value : Value) (span : Span) : Except Failure Flag :=
  (read v name value).map fun place => place span

def decodeSpan (start stop : Value) : Checked Span :=
  Span.mk <$> (Decode.integer start).under (.key "start")
    <*> (Decode.integer stop).under (.key "end")

/-- A flag of a caller's own.  Its place is looked at once its name and value are right. -/
def decode (v : Vocabulary) (name : String) (value start stop : Value) : Except Failure Flag :=
  (read v name value).bind fun place =>
    ((decodeSpan start stop).toExcept Failure.malformed).map place

def bareLines (code : List Char) : List (Line × String) := Line.select Directive.bare? code

def valuedLines (code : List Char) : List (Line × String × String) :=
  (Line.select Directive.valued? code).filter fun (_, name, _) => name != Directive.fileFlag

/-- All flags of a sample in the order of its lines.  Flags without a value are read first, so the
first of them that is wrong is reported even if a wrong flag with a value stands before it. -/
def findAll (v : Vocabulary) (code : List Char) : Except Failure (List Flag) := do
  let bare ← (bareLines code).mapM fun (l, name) => parse v name (.bool true) l.span
  let valued ← (valuedLines code).mapM fun (l, name, value) => parse v name (.str value) l.span
  return Sorting.sort (fun a b => decide (a.span.start ≤ b.span.start)) (bare ++ valued)

end Flag

end Marginalia
