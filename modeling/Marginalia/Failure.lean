import Marginalia.Decode.Fault
import Marginalia.Identifier.Basic
import Marginalia.Value.Display

/-!
# Failures

Everything that can end a run, with the wording of its report in one place.
-/

namespace Marginalia
set_option autoImplicit false

/-- What is wrong with the value of an option. -/
inductive Objection where
  | notOfKind (kind : String)
  | unknownKind (kind : String)
  | notAllowed (allowed : List String)
  | notAList
  | notCodes
  | noValue
deriving DecidableEq

inductive MarkerKind where
  | query
  | completion
  | highlight
deriving DecidableEq

def MarkerKind.label : MarkerKind → String
  | query => "quick info"
  | completion => "completions"
  | highlight => "highlight"

def MarkerKind.sign : MarkerKind → String
  | query => "^?"
  | completion => "^|"
  | highlight => "^^^"

/-- How the marks that begin and end a cut fail to pair. -/
inductive CutMismatch where
  | counts (begins ends : Nat)
  | order (first last : Nat)
deriving DecidableEq

/-- An error as it stands in a report. -/
structure Reported where
  code : Int
  start : Int
  filename : String
  text : String
deriving DecidableEq

inductive Failure where
  | unknownFlags (names : List String)
  | invalidValue (name : String) (value : Value) (objection : Objection)
  | mismatchedCuts (mismatch : CutMismatch)
  | unresolvedMarker (kind : MarkerKind) (line : Int) (filename : String)
  | incompatibleOptions
  | missingSource (shown : String) (files : List String)
  | missingOutput (shown path : String) (outputs : List String)
  | undocumentedErrors (codes expected : List Int) (root : String) (errors : List Reported)
  | unknownLanguage (tag : String) (accepted : List String)
  | unknownFile (path : String)
  | unregisteredFile (path : String)
  | integerTooLarge
  /-- A supplied syntax tree does not fit its text. -/
  | badOffset (fault : OffsetFault)
  /-- More texts are parsed than there are supplied trees. -/
  | noTree
  | malformed (faults : List Fault)

structure Report where
  title : String
  description : String
  recommendation : String := ""
deriving DecidableEq

def Report.message (r : Report) : String :=
  "\n## " ++ r.title ++ "\n\n" ++ r.description ++ "\n" ++ r.recommendation ++ "\n"

namespace Failure

def commas (names : List String) : String := ", ".intercalate names

def codesText (codes : List Int) : String := " ".intercalate (codes.map toString)

def objectionReport (name : String) (value : Value) (objection : Objection) : Report :=
  let got := "Got " ++ value.display ++ " for " ++ name ++ " but it "
  let title := "Invalid inline compiler value"
  match objection with
  | .notOfKind kind => { title, description := got ++ "is not a valid " ++ kind ++ "." }
  | .unknownKind kind =>
    { title
      description := "The only recognized primitives are number, string and boolean. Got " ++
        kind ++ " with " ++ value.display ++ "."
      recommendation := "This is likely a typo." }
  | .notAllowed allowed =>
    { title
      description := got ++ "is not a supported value by the TS compiler."
      recommendation := "Allowed values: " ++ ",".intercalate allowed }
  | .notAList => { title, description := got ++ "expects a comma separated list." }
  | .notCodes => { title, description := got ++ "expects space separated error codes." }
  | .noValue =>
    { title, description := name ++ " expects a value, e.g. `// @" ++ name ++ ": ...`." }

def mismatchText : CutMismatch → String
  | .counts begins ends =>
    "You have " ++ toString begins ++ " cut-starts and " ++ toString ends ++ " cut-ends"
  | .order first last =>
    "You have a cut-start at " ++ toString first ++ " which is after the cut-end at " ++ toString last

def errorLine (e : Reported) : String :=
  "[" ++ toString e.code ++ "] " ++ toString e.start ++ " - " ++ e.text

/-- The errors of each file under the file's path, files in the order of their first error. -/
def errorListing (root : String) (errors : List Reported) : String :=
  let files := (errors.map Reported.filename).eraseDups
  "\n\n".intercalate (files.map fun file =>
    root ++ file ++ "\n  " ++
      "\n  ".intercalate ((errors.filter (·.filename == file)).map errorLine))

def expectationHint (expected : List Int) (errors : List Reported) : String :=
  if expected.isEmpty then
    "Expected: // @errors: " ++ codesText (errors.map Reported.code).eraseDups
  else "The existing annotation specified " ++ codesText expected

def report? : Failure → Option Report
  | unknownFlags names => some
    { title := "Unknown inline compiler flags"
      description :=
        "The following flags are neither valid compiler options nor handbook options:\n" ++
          commas (names.map ("@" ++ ·))
      recommendation :=
        "This is likely a typo, check the compiler option reference or the handbook options." }
  | invalidValue name value objection => some (objectionReport name value objection)
  | mismatchedCuts mismatch => some
    { title := "Mismatched cut markers"
      description := mismatchText mismatch
      recommendation := "Make sure you have a matching pair for each." }
  | unresolvedMarker kind line filename => some
    { title := "Invalid " ++ kind.label ++ " query"
      description := "The request on line " ++ toString line ++ " in " ++ filename ++ " for " ++
        kind.label ++ " via " ++ kind.sign ++ " returned nothing from the compiler."
      recommendation := "This is likely that the positioning is off." }
  | incompatibleOptions => some
    { title := "Option 'showEmit' cannot be used with 'keepNotations'"
      description := "With `showEmit` enabled, the output will always be the emitted code"
      recommendation := "Remove either option to continue" }
  | missingSource shown files => some
    { title := "Could not find source file to show the emit for"
      description := "Cannot find the corresponding **source** file: '" ++ shown ++ "'"
      recommendation := "Looked for: " ++ shown ++ " in the vfs - which contains: " ++ commas files }
  | missingOutput shown path outputs => some
    { title := "Cannot find the output file in the Twoslash VFS"
      description := "Looking for " ++ shown ++ " in the Twoslash vfs after compiling"
      recommendation := "Looked for " ++ path ++ " in the vfs - which contains " ++ commas outputs }
  | undocumentedErrors codes expected root errors => some
    { title := "Errors were thrown in the sample, but not included in an error tag"
      description := "These errors were not marked as being expected: " ++ codesText codes ++ ".\n" ++
        expectationHint expected errors
      recommendation := "Compiler Errors:\n\n" ++ errorListing root errors }
  | unknownLanguage tag accepted => some
    { title := "Unknown TypeScript extension given to Twoslash"
      description := "Received " ++ tag ++ " but Twoslash only accepts: " ++ commas accepted }
  | _ => none

def message : Failure → String
  | unknownFile path => path
  | unregisteredFile path => "File not registered: " ++ path
  | integerTooLarge => "int too large to convert to float"
  | badOffset .outside => "list index out of range"
  | badOffset .tooWide => "cannot fit 'int' into an index-sized integer"
  | noTree => "list index out of range"
  | failure => (failure.report?.map Report.message).getD ""

end Failure

end Marginalia
