import Marginalia.Checker.Diagnostic
import Marginalia.Checker.Info
import Marginalia.Checker.Output

/-!
# Calls

All that can be asked of a checker, with the type of the answer, in one place.
-/

namespace Marginalia.Checker
set_option autoImplicit false

inductive Call where
  | create (path : String) (content : List Char)
  | update (path : String) (content : List Char)
  | info (path : String) (offset : Int)
  | completions (path : String) (offset : Int)
  | diagnostics (path : String)
  | emit (path : String)
deriving DecidableEq

@[reducible] def Call.Answer : Call → Type
  | create _ _ => Unit
  | update _ _ => Unit
  | info _ _ => Option QuickInfo
  | completions _ _ => Option (List Completion)
  | diagnostics _ => List Diagnostic
  | emit _ => List Output

def Call.path : Call → String
  | create path _ => path
  | update path _ => path
  | info path _ => path
  | completions path _ => path
  | diagnostics path => path
  | emit path => path

/-- The answer to a call and the checker after it. -/
def perform (c : Checker) : (call : Call) → Except Failure call.Answer × Checker
  | .create path content => (.ok (), c.create path content)
  | .update path content =>
    match c.update path content with
    | .ok updated => (.ok (), updated)
    | .error e => (.error e, c)
  | .info path offset => (c.infoAt path offset, c.note path offset)
  | .completions path _ => (.ok (c.completions? path), c)
  | .diagnostics path => (c.diagnostics path, c)
  | .emit path => (c.emit path, c)

theorem options_perform (c : Checker) (call : Call) : (c.perform call).2.options = c.options := by
  cases call with
  | update path content =>
    cases hfile : c.file? path with
    | none => simp only [perform, update, hfile]
    | some text => simp only [perform, update, hfile, create]
  | _ => rfl

end Marginalia.Checker
