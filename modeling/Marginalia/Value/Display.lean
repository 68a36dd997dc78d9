import Marginalia.Number.Hex
import Marginalia.Number.Written
import Marginalia.Text.Printable
import Marginalia.Value.Basic

/-!
# Displayed values

The text of a value in a message.  A text by itself is shown as it is; inside a list or a map it
is quoted, with single quotes unless it holds some and no double ones.
-/

namespace Marginalia.Value
set_option autoImplicit false

open Number (hexDigits)

def numberSpelling : Binary64.Spelling := ⟨"nan", "inf"⟩

def singleQuote : Char := Char.ofNat 39

def doubleQuote : Char := Char.ofNat 34

def quotedChar (quote c : Char) : List Char :=
  if c = quote ∨ c = '\\' then ['\\', c]
  else if c = '\n' then ['\\', 'n']
  else if c = '\r' then ['\\', 'r']
  else if c = '\t' then ['\\', 't']
  else if Text.isPrintable c then [c]
  else if c.toNat < 0x100 then ['\\', 'x'] ++ hexDigits 2 c.toNat
  else if c.toNat < 0x10000 then ['\\', 'u'] ++ hexDigits 4 c.toNat
  else ['\\', 'U'] ++ hexDigits 8 c.toNat

def quoted (s : String) : String :=
  let cs := s.toList
  let quote := if cs.contains singleQuote && !cs.contains doubleQuote then doubleQuote else singleQuote
  String.ofList (quote :: cs.flatMap (quotedChar quote) ++ [quote])

mutual

/-- The text of a value that stands inside another. -/
def inner : Value → String
  | null => "None"
  | bool b => if b then "True" else "False"
  | int n => toString n
  | float x => x.written numberSpelling
  | str s => quoted s
  | list items => "[" ++ ", ".intercalate (innerItems items) ++ "]"
  | map entries => "\x7b" ++ ", ".intercalate (innerEntries entries) ++ "\x7d"

def innerItems : List Value → List String
  | [] => []
  | v :: rest => inner v :: innerItems rest

def innerEntries : List (String × Value) → List String
  | [] => []
  | (k, v) :: rest => (quoted k ++ ": " ++ inner v) :: innerEntries rest

end

def display : Value → String
  | str s => s
  | v => inner v

end Marginalia.Value
