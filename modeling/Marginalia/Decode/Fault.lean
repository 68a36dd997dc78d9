/-!
# Faults of decoded data

Decoding caller-supplied data reports every fault it meets, in the order of the fields, with the
path to the place and the kind of the fault.
-/

namespace Marginalia
set_option autoImplicit false

/-- One way to read a place that can be read in several ways. -/
inductive Alternative where
  | boolean
  | integers
  | kindName
  | enumMap
deriving DecidableEq

inductive Segment where
  | key (name : String)
  | index (i : Nat)
  | alternative (a : Alternative)
deriving DecidableEq

inductive FaultKind where
  | missing
  | notString
  | notList
  | notInteger
  | unreadableInteger
  | fractionalInteger
  | infiniteInteger
  | oversizedInteger
  | belowMinimum
  | notBoolean
  | unreadableBoolean
  | notRecord
  | notTagged
  | noTag
  | unknownTag
  | unknownWord
  | notMap
  | notTriple
  | tooManyItems
deriving DecidableEq

structure Fault where
  path : List Segment
  kind : FaultKind
deriving DecidableEq

/-- A decoded value, or all faults that were met. -/
def Checked (α : Type) : Type := Except (List Fault) α

namespace Checked

def fault {α : Type} (kind : FaultKind) : Checked α := .error [⟨[], kind⟩]

/-- Faults on both sides are kept, those of the function first. -/
def seq {α β : Type} (f : Checked (α → β)) (a : Checked α) : Checked β :=
  match f, a with
  | .ok f, .ok a => .ok (f a)
  | .ok _, .error es => .error es
  | .error es, .ok _ => .error es
  | .error es, .error fs => .error (es ++ fs)

instance : Applicative Checked where
  pure a := Except.ok a
  seq f a := Checked.seq f (a ())

def under {α : Type} (segment : Segment) : Checked α → Checked α
  | .ok a => .ok a
  | .error es => .error (es.map fun e => ⟨segment :: e.path, e.kind⟩)

def items {α β : Type} (decode : α → Checked β) (first : Nat) : List α → Checked (List β)
  | [] => .ok []
  | a :: rest => List.cons <$> (decode a).under (.index first) <*> items decode (first + 1) rest

def toExcept {ε α : Type} (wrap : List Fault → ε) : Checked α → Except ε α
  | .ok a => .ok a
  | .error es => .error (wrap es)

end Checked

end Marginalia
