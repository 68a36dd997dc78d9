import Marginalia.Run

/-!
# Annotators

An annotator carries what its calls have in common: a checker script, options, tags, filters, the
root of the file names and the cache to use.  A call gives a sample and may add to or override each
of these.  Options are merged from the defaults to the annotator's to the call's; the directives of
the sample come last.
-/

namespace Marginalia
set_option autoImplicit false

/-- The root of all file names: with forward slashes, and with one at its end. -/
def rootPath (s : String) : String :=
  let cs := s.toList.map fun c => if c = '\\' then '/' else c
  String.ofList (if cs.getLast? = some '/' then cs else cs ++ ['/'])

def defaultRoot : String := "/"

def ambientRoot (surrounding : Option String) : String := rootPath (surrounding.getD defaultRoot)

def chooseRoot (given surrounding : Option String) : String :=
  match given with
  | some s => if s.isEmpty then ambientRoot surrounding else rootPath s
  | none => ambientRoot surrounding

structure Annotator where
  script : Checker.Script := {}
  options : Entries := []
  /-- Behaviour options under their plain spelling. -/
  behaviour : Entries := []
  tags : List String := []
  declarations : List Declaration := Schema.defaultDeclarations
  wanted : Option (String → Int → String → Bool) := none
  kept : Option (Note → Bool) := none
  root : String := defaultRoot
  slot : Option Nat := none

/-- One call of an annotator. -/
structure Request where
  code : List Char
  language : String := "ts"
  options : Entries := []
  behaviour : Entries := []
  tags : Option (List String) := none
  wanted : Option (String → Int → String → Bool) := none
  kept : Option (Note → Bool) := none
  queries : List Value := []
  completions : List Value := []
  highlights : List Value := []

namespace Request

open Decode

def decodeHighlight : Value → Checked Highlight
  | .list vs =>
    let item {α : Type} (i : Nat) (decode : Value → Checked α) : Checked α :=
      match vs[i]? with
      | some v => (decode v).under (.index i)
      | none => (Checked.fault .missing).under (.index i)
    if 3 < vs.length then Checked.fault .tooManyItems
    else (fun start stop label => ⟨⟨start, stop⟩, label⟩) <$> item 0 integer <*> item 1 integer
      <*> item 2 (nullable string)
  | _ => Checked.fault .notTriple

def asked (r : Request) : Checked Marker.Requests :=
  Marker.Requests.mk
    <$> (Checked.items integer 0 r.queries).under (.key "position_queries")
    <*> (Checked.items integer 0 r.completions).under (.key "position_completions")
    <*> (Checked.items decodeHighlight 0 r.highlights).under (.key "position_highlights")

end Request

namespace Annotator

/-- The plan of a call before its sample is read. -/
def plan (a : Annotator) (r : Request) : Except Failure Plan := do
  let extension ← Language.extensionOfTag r.language
  let behaviour ←
    (Behaviour.decode (Entries.merge a.behaviour r.behaviour)).toExcept Failure.malformed
  let asked ← r.asked.toExcept Failure.malformed
  let options := Entries.merge (Entries.merge Schema.defaultOptions a.options) r.options
  return { extension, options, behaviour, asked }

def job (a : Annotator) (r : Request) : Job where
  code := r.code
  root := a.root
  vocabulary := ⟨r.tags.getD a.tags, a.declarations⟩
  script := a.script
  slot := a.slot
  wanted := r.wanted.or a.wanted
  kept := r.kept.or a.kept

/-- Annotate a sample.  The world is kept as far as a failing call has come. -/
def annotate (a : Annotator) (r : Request) (w : World) : Except Failure Result × World :=
  match a.plan r with
  | .error e => (.error e, w)
  | .ok plan =>
    let (result, draft) := Work.exec (Work.run (a.job r) plan) { world := w }
    (result, draft.world)

end Annotator

end Marginalia
