import Marginalia.Checker.Basic
import Marginalia.Text.Word

/-!
# Information and completions

Information is looked up by the word under the caret.
-/

namespace Marginalia.Checker
set_option autoImplicit false

/-- A word of a text and where it starts. -/
structure Word where
  start : Nat
  text : List Char
deriving DecidableEq

def isWordStart (c : Char) : Bool := c.isAlpha || c == '_' || c == '$'

def isWordPart (c : Char) : Bool := Text.isWordChar c || c == '$'

/-- The words of a text that starts at index `i`: an ASCII letter, an underscore or a dollar sign
and all word characters behind it.  `opened` is the word being read, its characters backwards. -/
def wordsFrom (opened : Option Word) (i : Nat) : List Char → List Word
  | [] => (opened.map fun w => ⟨w.start, w.text.reverse⟩).toList
  | c :: rest =>
    match opened with
    | some w =>
      if isWordPart c then wordsFrom (some ⟨w.start, c :: w.text⟩) (i + 1) rest
      else ⟨w.start, w.text.reverse⟩ :: wordsFrom none (i + 1) rest
    | none =>
      if isWordStart c then wordsFrom (some ⟨i, [c]⟩) (i + 1) rest
      else wordsFrom none (i + 1) rest

def words (text : List Char) : List Word := wordsFrom none 0 text

/-- The first word that a caret at the offset stands in or at the end of. -/
def wordAt? (text : List Char) (offset : Int) : Option Word :=
  (words text).find? fun w => Span.touches ⟨w.start, w.start + w.text.length⟩ offset

def infoAt (c : Checker) (path : String) (offset : Int) : Except Failure (Option QuickInfo) :=
  (c.textOf path).map fun text =>
    (wordAt? text offset).bind fun w => c.quickInfo.lookup (String.ofList w.text)

/-- The checker after a request for information, which is kept even if it fails. -/
def note (c : Checker) (path : String) (offset : Int) : Checker :=
  { c with requests := c.requests ++ [(path, offset)] }

def completions? (c : Checker) (path : String) : Option (List Completion) :=
  match c.file? path with
  | some _ => c.offered
  | none => none

end Marginalia.Checker
