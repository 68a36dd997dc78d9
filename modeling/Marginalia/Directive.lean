import Marginalia.Line
import Marginalia.Text.Blank
import Marginalia.Text.Word

/-!
# Directive lines

The forms of the lines that steer a run.  A flag line starts in the first column with two slashes,
at most one blank and an at sign; it is bare or has a value behind a colon.  A file line is the
flag line that names a file.  Each recogniser looks at one line without its line feed.
-/

namespace Marginalia.Directive
set_option autoImplicit false

def isGap (c : Char) : Bool := c == ' ' || c == '\t'

/-- The text behind two slashes and at most one space or tab. -/
def afterSlashes? : List Char → Option (List Char)
  | '/' :: '/' :: c :: rest => some (if isGap c then rest else c :: rest)
  | ['/', '/'] => some []
  | _ => none

def afterAt? (line : List Char) : Option (List Char) :=
  match afterSlashes? line with
  | some ('@' :: rest) => some rest
  | _ => none

/-- The name that a flag line starts with, and the text after the name. -/
def flagName? (line : List Char) : Option (List Char × List Char) :=
  match afterAt? line with
  | some body =>
    let name := body.takeWhile Text.isWordChar
    if name.isEmpty then none else some (name, body.dropWhile Text.isWordChar)
  | none => none

/-- The name of a flag line without a value. -/
def bare? (line : List Char) : Option String :=
  match flagName? line with
  | some (name, after) =>
    if after = [] ∨ after = ['\r'] then some (String.ofList name) else none
  | none => none

/-- The name and the value of a flag line with a value: everything behind the colon, without the
blanks around it.  At least one character follows the colon. -/
def valued? (line : List Char) : Option (String × String) :=
  match flagName? line with
  | some (name, ':' :: c :: value) =>
    some (String.ofList name, String.ofList (Text.strip (c :: value)))
  | _ => none

def fileFlag : String := "filename"

/-- The name of a file line: what follows the colon and one space, without blanks at its end. -/
def fileName? (line : List Char) : Option String :=
  match afterAt? line with
  | some body =>
    let opening := fileFlag.toList ++ [':', ' ']
    let name := body.drop opening.length
    if opening.isPrefixOf body && !name.isEmpty then
      some (String.ofList (Text.stripRight name))
    else none
  | none => none

end Marginalia.Directive
