import Marginalia.Event
import Marginalia.Sorting

/-!
# Expected errors

A sample declares the error codes that it means to show.  Any other code is refused; declared
codes that do not occur are only reported.
-/

namespace Marginalia.Expectation
set_option autoImplicit false

/-- Errors with a code that was not declared.  The code zero needs no declaration. -/
def undeclared (expected : List Int) (errors : List Reported) : List Reported :=
  errors.filter fun e => e.code != 0 && !expected.contains e.code

def missing (expected : List Int) (errors : List Reported) : List Int :=
  Sorting.sort (fun a b => decide (a ≤ b))
    (expected.filter fun code => !(errors.map Reported.code).contains code).eraseDups

def event? (expected : List Int) (errors : List Reported) : Option Event :=
  let codes := missing expected errors
  if codes.isEmpty then none else some (.expectedErrorsMissing codes)

def check (expected : List Int) (root : String) (errors : List Reported) : Except Failure Unit :=
  let codes := ((undeclared expected errors).map Reported.code).eraseDups
  if codes.isEmpty then .ok () else .error (.undocumentedErrors codes expected root errors)

end Marginalia.Expectation
