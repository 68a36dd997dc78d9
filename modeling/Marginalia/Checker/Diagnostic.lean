import Marginalia.Checker.Basic
import Marginalia.Sorting

/-!
# Errors of a file

An error stands wherever the pattern of a rule occurs.  A rule that occurs nowhere is never read.
-/

namespace Marginalia.Checker
set_option autoImplicit false

structure Diagnostic where
  path : String
  start : Int
  length : Int
  code : Int
  category : Int
  message : String
deriving DecidableEq

/-- Where a pattern occurs in a text that starts at index `i`, without overlaps.  `skip` characters
still belong to the last occurrence.  The empty pattern occurs everywhere. -/
def occurrences (pattern : List Char) (i skip : Nat) : List Char → List Nat
  | [] => if pattern.isEmpty then [i] else []
  | c :: rest =>
    match skip with
    | k + 1 => occurrences pattern (i + 1) k rest
    | 0 =>
      if pattern.isPrefixOf (c :: rest) then
        i :: occurrences pattern (i + 1) (pattern.length - 1) rest
      else occurrences pattern (i + 1) 0 rest

def Rule.diagnostic (path : String) (r : Rule) (i : Nat) : Checked Diagnostic :=
  Diagnostic.mk path i r.pattern.length <$> (Decode.integer r.code).under (.key "code")
    <*> (Decode.integer r.category).under (.key "category")
    <*> (Decode.string r.message).under (.key "message")

def Rule.diagnostics (path : String) (text : List Char) (r : Rule) :
    Except Failure (List Diagnostic) :=
  (occurrences r.pattern 0 0 text).mapM fun i =>
    (r.diagnostic path i).toExcept Failure.malformed

/-- All errors of a file by their start; at one start the earlier rule comes first. -/
def diagnostics (c : Checker) (path : String) : Except Failure (List Diagnostic) :=
  (c.textOf path).bind fun text =>
    (c.rules.mapM (Rule.diagnostics path text)).map fun found =>
      Sorting.sort (fun a b => decide (a.start ≤ b.start)) found.flatten

end Marginalia.Checker
