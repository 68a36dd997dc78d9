import Marginalia.Failure
import Marginalia.Note

/-!
# Checkers

A checker holds files and answers questions about them from a script.  It also keeps the requests
for information that it was sent.  A script is data: what it says about words and completions is
read when a checker is built from it, what it says about errors when an error is reported.
-/

namespace Marginalia
set_option autoImplicit false

/-- Report an error at every occurrence of a pattern. -/
structure Checker.Rule where
  pattern : List Char
  code : Value
  message : Value
  category : Value := .int 1

/-- Information about a word. -/
structure QuickInfo where
  text : String
  docs : Option String := none
deriving DecidableEq

def QuickInfo.decode : Value → Checked QuickInfo
  | .str s => .ok { text := s }
  | .map entries =>
    QuickInfo.mk <$> Decode.required entries "text" Decode.string
      <*> Decode.defaulted entries "docs" none (Decode.nullable Decode.string)
  | _ => Checked.fault .notRecord

/-- What checkers are built from: information by word, rules and completions. -/
structure Checker.Script where
  quickInfo : Entries := []
  rules : List Checker.Rule := []
  completions : Option (List Value) := none

/-- A checker without a list of completions has none to offer. -/
structure Checker where
  options : Entries
  quickInfo : List (String × QuickInfo) := []
  rules : List Checker.Rule := []
  offered : Option (List Completion) := none
  files : List (String × List Char) := []
  requests : List (String × Int) := []

namespace Checker

def Script.readInfo (script : Script) : Except Failure (List (String × QuickInfo)) :=
  script.quickInfo.mapM fun (word, v) =>
    ((QuickInfo.decode v).toExcept Failure.malformed).map fun info => (word, info)

def Script.readCompletions (script : Script) : Except Failure (Option (List Completion)) :=
  match script.completions with
  | none => .ok none
  | some vs =>
    (vs.mapM fun v => (Note.decodeCompletion v).toExcept Failure.malformed).map some

/-- A new checker without files.  The first entry of the script that cannot be read is reported,
information before completions. -/
def ofScript (script : Script) (options : Entries) : Except Failure Checker :=
  script.readInfo.bind fun quickInfo =>
    script.readCompletions.map fun offered => { options, quickInfo, rules := script.rules, offered }

theorem ofScript_ok {script : Script} {options : Entries} {c : Checker}
    (h : ofScript script options = .ok c) : c.options = options ∧ c.files = [] := by
  unfold ofScript Except.bind Except.map at h
  split at h
  · cases h
  · split at h
    · cases h
    · cases h
      exact ⟨rfl, rfl⟩

def file? (c : Checker) (path : String) : Option (List Char) := c.files.lookup path

def setFile (path : String) (content : List Char) :
    List (String × List Char) → List (String × List Char)
  | [] => [(path, content)]
  | (p, text) :: rest =>
    if p = path then (p, content) :: rest else (p, text) :: setFile path content rest

def create (c : Checker) (path : String) (content : List Char) : Checker :=
  { c with files := setFile path content c.files }

def update (c : Checker) (path : String) (content : List Char) : Except Failure Checker :=
  match c.file? path with
  | some _ => .ok (c.create path content)
  | none => .error (.unregisteredFile path)

def textOf (c : Checker) (path : String) : Except Failure (List Char) :=
  match c.file? path with
  | some text => .ok text
  | none => .error (.unknownFile path)

theorem lookup_setFile_self (path : String) (content : List Char)
    (files : List (String × List Char)) :
    (setFile path content files).lookup path = some content := by
  induction files with
  | nil => simp [setFile]
  | cons f rest ih =>
    obtain ⟨p, text⟩ := f
    by_cases h : p = path
    · simp [setFile, h]
    · have hne : (path == p) = false := beq_eq_false_iff_ne.mpr (Ne.symm h)
      simp [setFile, h, List.lookup_cons, hne, ih]

theorem lookup_setFile_of_ne {path other : String} (h : other ≠ path) (content : List Char)
    (files : List (String × List Char)) :
    (setFile path content files).lookup other = files.lookup other := by
  induction files with
  | nil => simp [setFile, List.lookup_cons, beq_eq_false_iff_ne.mpr h]
  | cons f rest ih =>
    obtain ⟨p, text⟩ := f
    by_cases hp : p = path
    · subst hp
      simp [setFile, List.lookup_cons, beq_eq_false_iff_ne.mpr h]
    · simp only [setFile, hp, if_false, List.lookup_cons, ih]

theorem file?_create_self (c : Checker) (path : String) (content : List Char) :
    (c.create path content).file? path = some content :=
  lookup_setFile_self path content c.files

theorem file?_create_of_ne (c : Checker) {path other : String} (h : other ≠ path)
    (content : List Char) : (c.create path content).file? other = c.file? other :=
  lookup_setFile_of_ne h content c.files

end Checker

end Marginalia
