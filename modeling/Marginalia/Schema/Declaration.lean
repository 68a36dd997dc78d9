import Marginalia.Decode.Primitive

/-!
# Option declarations

A schema lists the options that a directive may set.  An option has a primitive kind, is a list of
elements, or takes one of the named values of an enumeration.
-/

namespace Marginalia
set_option autoImplicit false

inductive Kind where
  | number
  | string
  | boolean
  | list
deriving DecidableEq

def Kind.name : Kind → String
  | number => "number"
  | string => "string"
  | boolean => "boolean"
  | list => "list"

def Kind.ofName? : String → Option Kind
  | "number" => some number
  | "string" => some string
  | "boolean" => some boolean
  | "list" => some list
  | _ => none

theorem Kind.ofName?_name (k : Kind) : Kind.ofName? k.name = some k := by
  cases k <;> rfl

/-- A kind, or the values of an enumeration under their lower-case spelling. -/
inductive OptionType where
  | plain (kind : Kind)
  | enum (values : Entries)

/-- An option of the schema; `element` tells what a list holds. -/
inductive Declaration where
  | mk (name : String) (type : OptionType) (element : Option Declaration)

namespace Declaration

def name : Declaration → String
  | mk name _ _ => name

def type : Declaration → OptionType
  | mk _ type _ => type

def element : Declaration → Option Declaration
  | mk _ _ element => element

open Decode

def decodeType : Value → Checked OptionType
  | .map values => .ok (.enum values)
  | v =>
    let named := match v with
      | .str s => Kind.ofName? s
      | _ => none
    match named with
    | some kind => .ok (.plain kind)
    | none => .error [⟨[.alternative .kindName], .unknownWord⟩, ⟨[.alternative .enumMap], .notMap⟩]

mutual

def decode : Value → Checked Declaration
  | .map entries =>
    Declaration.mk <$> required entries "name" Decode.string
      <*> required entries "type" decodeType
      <*> decodeElement entries
  | _ => Checked.fault .notRecord

def decodeElement : List (String × Value) → Checked (Option Declaration)
  | [] => .ok none
  | (key, v) :: rest =>
    if key = "element" then
      match v with
      | .null => .ok none
      | v => some <$> (decode v).under (.key key)
    else decodeElement rest

end

end Declaration

end Marginalia
