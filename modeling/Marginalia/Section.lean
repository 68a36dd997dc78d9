import Marginalia.Directive
import Marginalia.Language

/-!
# Sections

A sample is cut into sections, the files it stands for, at its file lines.  The file line belongs
to the section that it opens.  What stands before the first file line is a section of its own.
-/

namespace Marginalia
set_option autoImplicit false

structure Section where
  offset : Nat
  filename : String
  path : String
  content : List Char
  extension : String
deriving DecidableEq

namespace Section

def make (root : String) (offset : Nat) (filename : String) (content : List Char) : Section :=
  ⟨offset, filename, root ++ filename, content, Language.extensionOf filename⟩

/-- The first index after the section. -/
def stop (s : Section) : Nat := s.offset + s.content.length

def contains (s : Section) (i : Int) : Bool := s.offset ≤ i && i < s.stop

/-- The name of the leading section when a file line claims the default name. -/
def reservedName : String := "__index__.ts"

def fileLines (code : List Char) : List (Line × String) := Line.select Directive.fileName? code

/-- The sections from `index` on, where the first has the name `current`.  An empty section is
left out. -/
def cutAt (root : String) (code : List Char) (index : Nat) (current : String) :
    List (Line × String) → List Section
  | [] =>
    if index < code.length then [make root index current (code.drop index)] else []
  | (l, name) :: rest =>
    let content := (code.take l.start).drop index
    let sections := cutAt root code l.start name rest
    if content.isEmpty then sections else make root index current content :: sections

def split (code : List Char) (defaultName root : String) : List Section :=
  let named := fileLines code
  let leading := if named.any (·.2 == defaultName) then reservedName else defaultName
  cutAt root code 0 leading named

end Section

end Marginalia
