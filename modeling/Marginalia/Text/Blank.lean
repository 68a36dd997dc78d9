import Marginalia.Text.Class

/-!
# Blank characters

Blanks are the white space of every script together with the four information separators below
the space.  A zero-width space is not blank.  Stripping and splitting a text go by blanks.
-/

namespace Marginalia.Text
set_option autoImplicit false

def blankBounds : List Nat := [
  9, 14, 28, 33, 133, 134, 160, 161, 5760, 5761, 8192, 8203, 8232, 8234, 8239, 8240, 8287, 8288,
  12288, 12289]

def isBlank (c : Char) : Bool := within blankBounds c

/-- White space in the narrow sense, without the information separators. -/
def isWhiteSpace (c : Char) : Bool :=
  isBlank c && !(28 ≤ c.toNat && c.toNat ≤ 31)

def dropRight (p : Char → Bool) (cs : List Char) : List Char :=
  (cs.reverse.dropWhile p).reverse

def trim (p : Char → Bool) (cs : List Char) : List Char :=
  dropRight p (cs.dropWhile p)

def strip (cs : List Char) : List Char := trim isBlank cs

def stripRight (cs : List Char) : List Char := dropRight isBlank cs

/-- The maximal runs of characters that are not blank; `run` holds the one being read, backwards. -/
def fieldsFrom (run : List Char) : List Char → List (List Char)
  | [] => if run.isEmpty then [] else [run.reverse]
  | c :: rest =>
    if isBlank c then
      if run.isEmpty then fieldsFrom [] rest else run.reverse :: fieldsFrom [] rest
    else fieldsFrom (c :: run) rest

def fields (cs : List Char) : List (List Char) := fieldsFrom [] cs

end Marginalia.Text
