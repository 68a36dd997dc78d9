import Marginalia.Failure

/-!
# Events

What a run reports while it works, beside its result.
-/

namespace Marginalia
set_option autoImplicit false

inductive Event where
  | checkerCreated (key : String)
  | fileRegistered (path : String) (length offset : Nat)
  | expectedErrorsMissing (codes : List Int)
  | emitShown (source output : String)
  | erased (spans notes : Nat)
deriving DecidableEq

namespace Event

inductive Level where
  | debug
  | info
  | warning
deriving DecidableEq

def level : Event → Level
  | checkerCreated _ => .info
  | expectedErrorsMissing _ => .warning
  | _ => .debug

def shownKeyLength : Nat := 12

def message : Event → String
  | checkerCreated key =>
    "Creating backend for options " ++ String.ofList (key.toList.take shownKeyLength)
  | fileRegistered path length offset =>
    "Registered " ++ path ++ " (" ++ toString length ++ " chars at offset " ++ toString offset ++ ")"
  | expectedErrorsMissing codes =>
    "Expected error codes were not reported: " ++ Failure.codesText codes
  | emitShown source output => "Showing emit of " ++ source ++ " as " ++ output
  | erased spans notes =>
    "Removed " ++ toString spans ++ " range(s), " ++ toString notes ++ " node(s) left"

end Event

end Marginalia
