import Marginalia.Directive
import Marginalia.Failure

/-!
# Cuts

A cut line hides a part of the sample: everything up to it, everything from it on, or, with a line
that begins and a line that ends, what stands between.  The lines that begin and end a cut are
paired in order: the first with the first, the second with the second.
-/

namespace Marginalia.Cut
set_option autoImplicit false

inductive Mark where
  | before
  | after
  | begins
  | ends
deriving DecidableEq

def Mark.words : Mark → List String
  | before => ["cut", "cut-before"]
  | after => ["cut-after"]
  | begins => ["cut-start"]
  | ends => ["cut-end"]

def isIndent (c : Char) : Bool :=
  c == ' ' || c == '\t' || c.toNat == 11 || c.toNat == 12

/-- The text between the slashes of a cut line and its end. -/
def text? (line : List Char) : Option (List Char) :=
  (Directive.afterSlashes? (line.dropWhile isIndent)).map Line.withoutReturn

def isMark (mark : Mark) (line : List Char) : Bool :=
  match text? line with
  | some text => mark.words.any fun word => text == ("---" ++ word ++ "---").toList
  | none => false

def lines (mark : Mark) (code : List Char) : List Line :=
  (Line.all code).filter fun l => isMark mark l.text

def pairs : List Line → List Line → Except Failure (List Span)
  | first :: begins, last :: ends =>
    if last.start < first.start then .error (.mismatchedCuts (.order first.start last.start))
    else (pairs begins ends).map (⟨first.span.start, last.span.stop⟩ :: ·)
  | _, _ => .ok []

/-- The hidden spans: up to the last line that cuts before, from the first that cuts after, and
between paired lines. -/
def findAll (code : List Char) : Except Failure (List Span) := do
  let before := (lines .before code).getLast?.toList.map fun l => ⟨0, l.span.stop⟩
  let after := (lines .after code).head?.toList.map fun l => ⟨l.start, code.length⟩
  let begins := lines .begins code
  let ends := lines .ends code
  if begins.length ≠ ends.length then
    .error (.mismatchedCuts (.counts begins.length ends.length))
  else
    return before ++ after ++ (← pairs begins ends)

end Marginalia.Cut
