import Marginalia.Decode.Primitive
import Marginalia.Schema.Coercion

/-!
# Behaviour options

Options that steer the annotation itself rather than the checker.  Each has a directive spelling
and a plain one; data from a caller may use either, and the directive spelling wins.
-/

namespace Marginalia
set_option autoImplicit false

/-- Which errors are left out of the result. -/
inductive Silence where
  | none
  | all
  | codes (codes : List Int)
deriving DecidableEq

def Silence.toValue : Silence → Value
  | .none => .bool false
  | .all => .bool true
  | .codes listed => .list (listed.map .int)

def Silence.ofBool (b : Bool) : Silence := if b then .all else .none

structure Behaviour where
  errors : List Int := []
  noErrors : Silence := .none
  noErrorsCutted : Bool := false
  noErrorValidation : Bool := false
  noStaticSemanticInfo : Bool := false
  showEmit : Bool := false
  showEmittedFile : Option String := .none
  keepNotations : Bool := false
deriving DecidableEq

namespace Behaviour

inductive Field where
  | errors
  | noErrors
  | noErrorsCutted
  | noErrorValidation
  | noStaticSemanticInfo
  | showEmit
  | showEmittedFile
  | keepNotations
deriving DecidableEq

namespace Field

def all : List Field :=
  [errors, noErrors, noErrorsCutted, noErrorValidation, noStaticSemanticInfo, showEmit,
    showEmittedFile, keepNotations]

def spelling : Field → String
  | errors => "errors"
  | noErrors => "noErrors"
  | noErrorsCutted => "noErrorsCutted"
  | noErrorValidation => "noErrorValidation"
  | noStaticSemanticInfo => "noStaticSemanticInfo"
  | showEmit => "showEmit"
  | showEmittedFile => "showEmittedFile"
  | keepNotations => "keepNotations"

def name : Field → String
  | errors => "errors"
  | noErrors => "no_errors"
  | noErrorsCutted => "no_errors_cutted"
  | noErrorValidation => "no_error_validation"
  | noStaticSemanticInfo => "no_static_semantic_info"
  | showEmit => "show_emit"
  | showEmittedFile => "show_emitted_file"
  | keepNotations => "keep_notations"

def ofSpelling? (s : String) : Option Field := all.find? (·.spelling == s)

def isSwitch : Field → Bool
  | errors => false
  | noErrors => false
  | showEmittedFile => false
  | _ => true

theorem mem_all (f : Field) : f ∈ all := by
  cases f <;> decide

theorem ofSpelling?_spelling (f : Field) : ofSpelling? f.spelling = some f := by
  cases f <;> decide

/-- The value that a directive gives to the option.  Only what can be on or off may stand without
a value. -/
def coerce (f : Field) (value : Value) : Except Failure Value :=
  match f, value with
  | errors, .str s => Coercion.codeList f.spelling s
  | noErrors, .str s =>
    let word := Text.strip s.toList
    if word = "true".toList then .ok (.bool true)
    else if word = "false".toList then .ok (.bool false)
    else Coercion.codeList f.spelling s
  | showEmittedFile, .str s => .ok (.str s)
  | _, .str s => Coercion.primitive f.spelling (.str s) Kind.boolean.name
  | _, v =>
    if f.isSwitch || f == noErrors then .ok v
    else .error (.invalidValue f.spelling v .noValue)

end Field

def get (b : Behaviour) : Field → Value
  | .errors => .list (b.errors.map .int)
  | .noErrors => b.noErrors.toValue
  | .noErrorsCutted => .bool b.noErrorsCutted
  | .noErrorValidation => .bool b.noErrorValidation
  | .noStaticSemanticInfo => .bool b.noStaticSemanticInfo
  | .showEmit => .bool b.showEmit
  | .showEmittedFile => (b.showEmittedFile.map Value.str).getD .null
  | .keepNotations => .bool b.keepNotations

def intOf? : Value → Option Int
  | .int n => some n
  | _ => Option.none

/-- Set an option to a value of its own type; a value of another type changes nothing. -/
def set (b : Behaviour) : Field → Value → Behaviour
  | .errors, .list codes => { b with errors := codes.filterMap intOf? }
  | .noErrors, .bool x => { b with noErrors := Silence.ofBool x }
  | .noErrors, .list codes => { b with noErrors := .codes (codes.filterMap intOf?) }
  | .noErrorsCutted, .bool x => { b with noErrorsCutted := x }
  | .noErrorValidation, .bool x => { b with noErrorValidation := x }
  | .noStaticSemanticInfo, .bool x => { b with noStaticSemanticInfo := x }
  | .showEmit, .bool x => { b with showEmit := x }
  | .showEmittedFile, .str s => { b with showEmittedFile := some s }
  | .keepNotations, .bool x => { b with keepNotations := x }
  | _, _ => b

def ignoredCodes (b : Behaviour) : List Int :=
  match b.noErrors with
  | .codes codes => codes
  | _ => []

open Decode

/-- On, off or a list of codes; when neither reading succeeds the faults of both are reported. -/
def decodeSilence (v : Value) : Checked Silence :=
  match boolean v with
  | .ok b => .ok (Silence.ofBool b)
  | .error es =>
    match listOf integer v with
    | .ok codes => .ok (.codes codes)
    | .error fs =>
      .error ((es.map fun e => ⟨.alternative .boolean :: e.path, e.kind⟩) ++
        fs.map fun e => ⟨.alternative .integers :: e.path, e.kind⟩)

def given? (entries : Entries) (f : Field) : Option (String × Value) :=
  match entries.get? f.spelling with
  | some v => some (f.spelling, v)
  | .none => (entries.get? f.name).map fun v => (f.name, v)

def optional {α : Type} (entries : Entries) (f : Field) (default : α)
    (decode : Value → Checked α) : Checked α :=
  match given? entries f with
  | some (key, v) => (decode v).under (.key key)
  | .none => .ok default

def decode (entries : Entries) : Checked Behaviour :=
  let switch (f : Field) : Checked Bool := optional entries f false boolean
  Behaviour.mk <$> optional entries .errors [] (listOf integer)
    <*> optional entries .noErrors .none decodeSilence
    <*> switch .noErrorsCutted
    <*> switch .noErrorValidation
    <*> switch .noStaticSemanticInfo
    <*> switch .showEmit
    <*> optional entries .showEmittedFile .none (nullable string)
    <*> switch .keepNotations

def decodeRecord : Value → Checked Behaviour
  | .map entries => decode entries
  | _ => Checked.fault .notRecord

def givenFields (entries : Entries) : List Field :=
  Field.all.filter fun f => (given? entries f).isSome

def toEntries (b : Behaviour) (fields : List Field) : Entries :=
  fields.map fun f => (f.name, b.get f)

/-- The entries with directive spellings replaced by plain ones; of two spellings of one option
the later counts. -/
def rename (entries : Entries) : Entries :=
  Entries.merge [] (entries.map fun (key, v) =>
    (((Field.ofSpelling? key).map Field.name).getD key, v))

end Behaviour

end Marginalia
