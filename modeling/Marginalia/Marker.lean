import Marginalia.Directive
import Marginalia.Failure
import Marginalia.Position

/-!
# Position markers

A marker line is a comment with a caret that points at the line above: `^?` asks for information,
`^|` for completions, and a run of carets highlights what it underlines, with an optional label.
-/

namespace Marginalia
set_option autoImplicit false

/-- A highlighted stretch of a sample and its label. -/
structure Highlight where
  span : Span
  label : Option String
deriving DecidableEq

/-- What is asked at which index of the sample. -/
structure Marker.Requests where
  queries : List Int := []
  completions : List Int := []
  highlights : List Highlight := []

namespace Marker

inductive Sign where
  | query
  | completion
  | highlight (carets : Nat) (label : Option String)
deriving DecidableEq

/-- A marker read off its line: the column of its first caret and what it asks. -/
structure Form where
  column : Nat
  sign : Sign
deriving DecidableEq

/-- The rest of a marker line is empty or set off by a space; a carriage return may end it. -/
def isRest (rest : List Char) : Bool :=
  rest == [] || rest == ['\r'] || rest.head? == some ' '

def label? (rest : List Char) : Option String :=
  let label := Text.strip rest
  if label.isEmpty then none else some (String.ofList label)

def sign? (text : List Char) : Option Sign :=
  match text with
  | '?' :: rest => if isRest rest then some .query else none
  | '|' :: rest => if isRest rest then some .completion else none
  | _ =>
    let carets := (text.takeWhile (· == '^')).length
    let rest := text.drop carets
    if 0 < carets && isRest rest then some (.highlight (carets + 1) (label? rest)) else none

def form? (line : List Char) : Option Form :=
  let indented := line.dropWhile Directive.isGap
  match indented with
  | '/' :: '/' :: comment =>
    match comment.dropWhile Directive.isGap with
    | '^' :: rest =>
      (sign? rest).map fun sign => ⟨line.length - rest.length - 1, sign⟩
    | _ => none
  | _ => none

def lines (code : List Char) : List (Line × Form) := Line.select form? code

/-- The index that a marker points at. -/
def target (code : List Char) (l : Line) (f : Form) : Int :=
  Position.above code (l.start + f.column)

def Requests.add (code : List Char) (asked : Requests) : Line × Form → Requests
  | (l, f) =>
    let i := target code l f
    match f.sign with
    | .query => { asked with queries := asked.queries ++ [i] }
    | .completion => { asked with completions := asked.completions ++ [i] }
    | .highlight carets label =>
      { asked with highlights := asked.highlights ++ [⟨⟨i, i + carets⟩, label⟩] }

/-- The requests of all markers of a sample, behind those that are already there. -/
def requests (code : List Char) (asked : Requests) : Requests :=
  (lines code).foldl (Requests.add code) asked

def removals (code : List Char) : List Span := (lines code).map fun (l, _) => l.span

end Marker

end Marginalia
