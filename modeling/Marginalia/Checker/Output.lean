import Marginalia.Checker.Basic
import Marginalia.Language
import Marginalia.Schema.Defaults

/-!
# Outputs of a file

The output of a file is its own text under the output's name.
-/

namespace Marginalia.Checker
set_option autoImplicit false

structure Output where
  name : String
  text : List Char
deriving DecidableEq

def option (c : Checker) (name : String) : Value := (c.options.get? name).getD .null

def keepsMarkup (c : Checker) (extension : String) : Bool :=
  (extension == "jsx" || extension == "tsx") &&
    (c.option "jsx").equalsInt Schema.preserveMarkup

/-- The texts of all source files, one after the other. -/
def bundle (c : Checker) : List Char :=
  (c.files.filter fun (path, _) => Language.isSource (Language.extensionOf path)).flatMap (·.2)

def outputsOf (c : Checker) (path : String) (text : List Char) : List Output :=
  let stem := Language.stem path
  let extension := Language.extensionOf path
  let main : Output := ⟨stem ++ (if c.keepsMarkup extension then ".jsx" else ".js"), text⟩
  if (c.option "declaration").truthy && (extension == "ts" || extension == "tsx") then
    [main, ⟨stem ++ ".d.ts", text⟩]
  else [main]

/-- The outputs for a file; with the option `outFile` there is one output for all files. -/
def emit (c : Checker) (path : String) : Except Failure (List Output) :=
  let bundled := c.option "outFile"
  if bundled.truthy then
    match Decode.required [("name", bundled)] "name" Decode.string with
    | .ok name => .ok [⟨name, c.bundle⟩]
    | .error faults => .error (.malformed faults)
  else (c.textOf path).map (c.outputsOf path)

end Marginalia.Checker
