import Marginalia.Number.Binary64
import Marginalia.Text.Digit

/-!
# Reading numbers

Digits of every script are read.  An integer may have a sign and single underscores between its
digits, and at most 4300 digits.  A decimal has a sign, digits with at most one point, at least
one digit, and an optional exponent.
-/

namespace Marginalia.Number
set_option autoImplicit false

open Marginalia.Text

def takeSign : List Char → Bool × List Char
  | '-' :: rest => (true, rest)
  | '+' :: rest => (false, rest)
  | cs => (false, cs)

def takeDigits : List Char → List Nat × List Char
  | [] => ([], [])
  | c :: rest =>
    match digitValue? c with
    | some d => let (ds, after) := takeDigits rest; (d :: ds, after)
    | none => ([], c :: rest)

def ofDigits (ds : List Nat) : Nat := ds.foldl (fun n d => 10 * n + d) 0

/-- Digits with single underscores between them; `afterDigit` says whether a digit came last. -/
def groupedDigits? (afterDigit : Bool) : List Char → Option (List Nat)
  | [] => if afterDigit then some [] else none
  | c :: rest =>
    if c = '_' then
      if afterDigit then groupedDigits? false rest else none
    else match digitValue? c with
      | some d => (groupedDigits? true rest).map (d :: ·)
      | none => none

/-- An integer text has at most this many digits. -/
def digitLimit : Nat := 4300

def withSign (negative : Bool) (n : Nat) : Int := if negative then -n else n

def readInt? (cs : List Char) : Option Int :=
  let (negative, body) := takeSign cs
  match groupedDigits? false body with
  | some ds => if ds.length ≤ digitLimit then some (withSign negative (ofDigits ds)) else none
  | none => none

def readExponent? : List Char → Option Int
  | [] => some 0
  | c :: rest =>
    if c = 'e' ∨ c = 'E' then
      let (negative, body) := takeSign rest
      match takeDigits body with
      | ([], _) => none
      | (ds, []) => some (withSign negative (ofDigits ds))
      | _ => none
    else none

def takeFraction : List Char → List Nat × List Char
  | '.' :: rest => takeDigits rest
  | cs => ([], cs)

def readDecimal? (cs : List Char) : Option Binary64 :=
  let (negative, body) := takeSign cs
  let (whole, afterWhole) := takeDigits body
  let (fraction, afterFraction) := takeFraction afterWhole
  if whole.isEmpty && fraction.isEmpty then none
  else (readExponent? afterFraction).map fun exponent =>
    Binary64.ofDecimal negative (ofDigits (whole ++ fraction)) (exponent - fraction.length)

end Marginalia.Number
