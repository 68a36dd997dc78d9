import Marginalia.Number.Written
import Marginalia.Sorting
import Marginalia.Value.Basic
import Marginalia.Value.Display

/-!
# Canonical text

One text per value up to the order of map keys: keys are sorted by code point at every level, and
everything outside printable ASCII is escaped, so that the text is its own encoding in bytes.
-/

namespace Marginalia.Value
set_option autoImplicit false

open Number (hexDigits)

def canonicalSpelling : Binary64.Spelling := ⟨"NaN", "Infinity"⟩

def unitEscape (unit : Nat) : List Char := ['\\', 'u'] ++ hexDigits 4 unit

/-- A character inside double quotes; beyond the basic plane it is written as a pair of units. -/
def canonicalChar (c : Char) : List Char :=
  if c = doubleQuote ∨ c = '\\' then ['\\', c]
  else if c = '\n' then ['\\', 'n']
  else if c = '\r' then ['\\', 'r']
  else if c = '\t' then ['\\', 't']
  else if c.toNat = 8 then ['\\', 'b']
  else if c.toNat = 12 then ['\\', 'f']
  else if 32 ≤ c.toNat ∧ c.toNat < 127 then [c]
  else if c.toNat < 0x10000 then unitEscape c.toNat
  else
    let n := c.toNat - 0x10000
    unitEscape (0xd800 + n / 0x400) ++ unitEscape (0xdc00 + n % 0x400)

def canonicalString (s : String) : List Char :=
  doubleQuote :: s.toList.flatMap canonicalChar ++ [doubleQuote]

def commaJoin (parts : List (List Char)) : List Char := [',', ' '].intercalate parts

def sortByKey (entries : List (String × List Char)) : List (String × List Char) :=
  Sorting.sort (fun a b => decide (a.1 ≤ b.1)) entries

mutual

def canonical : Value → List Char
  | null => "null".toList
  | bool b => if b then "true".toList else "false".toList
  | int n => (toString n).toList
  | float x => (x.written canonicalSpelling).toList
  | str s => canonicalString s
  | list items => '[' :: commaJoin (canonicalItems items) ++ [']']
  | map entries =>
    '\x7b' :: commaJoin ((sortByKey (canonicalEntries entries)).map fun (k, text) =>
      canonicalString k ++ [':', ' '] ++ text) ++ ['\x7d']

def canonicalItems : List Value → List (List Char)
  | [] => []
  | v :: rest => canonical v :: canonicalItems rest

def canonicalEntries : List (String × Value) → List (String × List Char)
  | [] => []
  | (k, v) :: rest => (k, canonical v) :: canonicalEntries rest

end

end Marginalia.Value
