import Marginalia.Failure
import Marginalia.Number.Reading
import Marginalia.Schema.Declaration
import Marginalia.Text.Blank
import Marginalia.Text.Lower
import Marginalia.Text.Slice

/-!
# Option values

The value of a directive is turned into a value of the declared type, or refused with the name of
the option and the value that was given.
-/

namespace Marginalia
set_option autoImplicit false

namespace Coercion

def readNumber? (text : List Char) : Option Value :=
  if text.contains '_' then none
  else match Number.readInt? text with
    | some n => some (.int n)
    | none =>
      match Number.readDecimal? text with
      | some x => if x.isFinite then some (.float x) else none
      | none => none

def readBoolean? (text : List Char) : Option Bool :=
  match Text.lower (String.ofList (Text.strip text)) with
  | "" => some true
  | "true" => some true
  | "false" => some false
  | _ => none

def boolean? : Value → Option Value
  | .bool b => some (.bool b)
  | v => (readBoolean? v.display.toList).map .bool

def number? (v : Value) : Option Value :=
  readNumber? (Text.strip v.display.toList)

/-- A number that is already one is kept if it is finite; an integer must lie in the range of
binary64 for the question to make sense. -/
def number : Value → Except Failure (Option Value)
  | .int n => if n.natAbs < Binary64.integerLimit then .ok (some (.int n)) else .error .integerTooLarge
  | .float x => .ok (if x.isFinite then some (.float x) else number? (.float x))
  | v => .ok (number? v)

def string? : Value → Option Value
  | .str s => some (.str s)
  | _ => none

def orRefuse (name : String) (value : Value) (kind : String) : Option Value → Except Failure Value
  | some v => .ok v
  | none => .error (.invalidValue name value (.notOfKind kind))

def primitive (name : String) (value : Value) (kind : String) : Except Failure Value :=
  match kind with
  | "boolean" => orRefuse name value kind (boolean? value)
  | "number" => (number value).bind (orRefuse name value kind)
  | "string" => orRefuse name value kind (string? value)
  | _ => .error (.invalidValue name value (.unknownKind kind))

/-- The value of an enumeration that the key spells, in any case and with blanks around it.
A name without a value is not offered. -/
def lookUp? (values : Entries) : Value → Option Value
  | .str s =>
    match values.get? (Text.lower (String.ofList (Text.strip s.toList))) with
    | some .null => none
    | found => found
  | _ => none

def fromEnum (name : String) (key : Value) (values : Entries) : Except Failure Value :=
  match lookUp? values key with
  | some v => .ok v
  | none => .error (.invalidValue name key (.notAllowed (values.map (·.1))))

def elements (s : String) : List Value :=
  (Text.splitOn ',' s.toList).map fun piece => .str (String.ofList (Text.strip piece))

def element (name : String) (type : OptionType) (item : Value) : Except Failure Value :=
  match type with
  | .enum values => fromEnum name item values
  | .plain kind => primitive name item kind.name

def codes? (s : String) : Option (List Int) :=
  (Text.fields s.toList).mapM Number.readInt?

def codeList (name s : String) : Except Failure Value :=
  match codes? s with
  | some codes => .ok (.list (codes.map .int))
  | none => .error (.invalidValue name (.str s) .notCodes)

end Coercion

/-- The value that a directive gives to a declared option. -/
def Declaration.coerce (d : Declaration) (value : Value) : Except Failure Value :=
  match d.type, d.element, value with
  | .enum values, _, _ => Coercion.fromEnum d.name value values
  | .plain .list, some e, .str s =>
    ((Coercion.elements s).mapM (Coercion.element d.name e.type)).map .list
  | .plain .list, _, _ => .error (.invalidValue d.name value .notAList)
  | .plain kind, _, _ => Coercion.primitive d.name value kind.name

end Marginalia
