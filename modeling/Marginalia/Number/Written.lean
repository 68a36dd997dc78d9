import Marginalia.Number.Shortest

/-!
# Written numbers

The text of a number: positional for decimal exponents from −4 to 15, with a fraction always
shown, and otherwise with an exponent of a sign and at least two digits.
-/

namespace Marginalia.Binary64
set_option autoImplicit false

/-- What a written form leaves open: the spelling of the values that are not finite. -/
structure Spelling where
  nan : String
  infinity : String

def positionalExponents : Int × Int := (-4, 16)

def zerosText (n : Nat) : String := String.ofList (List.replicate n '0')

def exponentText (e : Int) : String :=
  let digits := toString e.natAbs
  (if e < 0 then "e-" else "e+") ++ (if digits.length < 2 then "0" else "") ++ digits

/-- The text of a decimal with the given digits, the first of which has the weight `10 ^ e`. -/
def layout (digits : List Char) (e : Int) : String :=
  if positionalExponents.1 ≤ e && e < positionalExponents.2 then
    if e < 0 then "0." ++ zerosText (-e - 1).toNat ++ String.ofList digits
    else
      let whole := e.toNat + 1
      if digits.length ≤ whole then
        String.ofList digits ++ zerosText (whole - digits.length) ++ ".0"
      else String.ofList (digits.take whole) ++ "." ++ String.ofList (digits.drop whole)
  else
    let rest := digits.drop 1
    String.ofList (digits.take 1) ++
      (if rest.isEmpty then "" else "." ++ String.ofList rest) ++ exponentText e

def magnitudeText (x : Binary64) : String :=
  if x.isZero then "0.0"
  else
    let d := x.shortest
    let digits := Nat.toDigits 10 d.digits
    let trimmed := (digits.reverse.dropWhile (· == '0')).reverse
    layout trimmed (d.exponent + digits.length - 1)

def written (spelling : Spelling) (x : Binary64) : String :=
  if x.isNaN then spelling.nan
  else
    (if x.negative then "-" else "") ++
      (if x.isFinite then x.magnitudeText else spelling.infinity)

end Marginalia.Binary64
