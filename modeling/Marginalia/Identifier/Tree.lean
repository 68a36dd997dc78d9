import Marginalia.Identifier.Basic

/-!
# Syntax trees

The part of a syntax tree that identifiers are read off: kinds, byte offsets and children.  A tree
fits a text only if the offsets of its identifiers do.
-/

namespace Marginalia
set_option autoImplicit false

inductive Tree where
  | node (kind : String) (first last : Int) (children : List Tree)
deriving Inhabited

namespace Tree

def identifierKinds : List String := [
  "identifier", "private_property_identifier", "property_identifier",
  "shorthand_property_identifier", "shorthand_property_identifier_pattern",
  "statement_identifier", "type_identifier"]

mutual

def nodes : Tree → Nat
  | node _ _ _ children => nodesOfAll children + 1

def nodesOfAll : List Tree → Nat
  | [] => 0
  | t :: rest => nodes t + nodesOfAll rest

end

theorem nodesOfAll_append (ts rest : List Tree) :
    nodesOfAll (ts ++ rest) = nodesOfAll ts + nodesOfAll rest := by
  induction ts with
  | nil => simp [nodesOfAll]
  | cons t ts ih => simp [nodesOfAll, ih, Nat.add_assoc]

/-- Put trees on a stack, the last one first, so that they come off in their order. -/
def push (ts stack : List Tree) : List Tree := ts.reverse.foldl (fun stack t => t :: stack) stack

theorem push_eq (ts stack : List Tree) : push ts stack = ts ++ stack := by
  simp [push]

/-- Visit the trees on a stack, and add their identifiers to those that were found before.  A node
that is no identifier is replaced by its children; what is below an identifier is not visited. -/
def walk (content : List Char) (stack : List Tree) (found : List Identifier) :
    Except OffsetFault (List Identifier) :=
  match stack with
  | [] => .ok found
  | node kind first last children :: rest =>
    if identifierKinds.contains kind then
      match Identifier.atBytes content first last with
      | .ok xs => walk content rest (found ++ xs)
      | .error e => .error e
    else walk content (push children rest) found
termination_by nodesOfAll stack
decreasing_by
  · simp only [nodesOfAll, nodes]
    omega
  · simp only [push_eq, nodesOfAll_append, nodesOfAll, nodes]
    omega

/-- The topmost identifiers of a tree in its order, or the first fault of their offsets. -/
def identifiers (content : List Char) (t : Tree) : Except OffsetFault (List Identifier) :=
  walk content [t] []

end Tree

end Marginalia
