/-!
# Numbers in binary64

A number is kept as its 64 bits: a sign, eleven bits of exponent and 52 bits of fraction.  All
rules are stated on natural numbers; nothing here uses the machine's own arithmetic.
-/

namespace Marginalia
set_option autoImplicit false

structure Binary64 where
  bits : UInt64
deriving DecidableEq

namespace Binary64

def twoPow (k : Nat) : Nat := Nat.pow 2 k

def tenPow (k : Nat) : Nat := Nat.pow 10 k

def signUnit : Nat := 0x8000000000000000

def exponentUnit : Nat := 0x10000000000000

def negative (x : Binary64) : Bool := x.bits.toNat / signUnit == 1

def exponentField (x : Binary64) : Nat := x.bits.toNat / exponentUnit % 2048

def fraction (x : Binary64) : Nat := x.bits.toNat % exponentUnit

def isFinite (x : Binary64) : Bool := x.exponentField != 2047

def isNaN (x : Binary64) : Bool := x.exponentField == 2047 && x.fraction != 0

def isZero (x : Binary64) : Bool := x.exponentField == 0 && x.fraction == 0

/-- A finite number is `significand * 2 ^ scale` apart from its sign. -/
def significand (x : Binary64) : Nat :=
  if x.exponentField = 0 then x.fraction else x.fraction + exponentUnit

def scale (x : Binary64) : Int := (max x.exponentField 1 : Nat) - 1075

/-- The magnitude of a finite number as a quotient of natural numbers. -/
def ratio (x : Binary64) : Nat × Nat :=
  if 0 ≤ x.scale then (x.significand * twoPow x.scale.toNat, 1)
  else (x.significand, twoPow (-x.scale).toNat)

/-- The quotient rounded to the nearest natural number; a half goes to the even neighbour. -/
def roundedQuotient (num den : Nat) : Nat :=
  let q := num / den
  let r := num % den
  if 2 * r < den then q
  else if den < 2 * r then q + 1
  else if q % 2 = 0 then q else q + 1

/-- The greatest `k` with `2 ^ k ≤ num / den`, for positive `num` and `den`. -/
def floorLog2 (num den : Nat) : Int :=
  let k : Int := (num.log2 : Int) - den.log2
  if den * twoPow k.toNat ≤ num * twoPow (-k).toNat then k else k - 1

def ofSignBits (negative : Bool) (magnitude : Nat) : Binary64 :=
  ⟨UInt64.ofNat (magnitude + if negative then signUnit else 0)⟩

def infinityBits : Nat := 2047 * exponentUnit

/-- The number nearest to `num / den`, or infinity when that lies beyond the greatest number. -/
def nearest (negative : Bool) (num den : Nat) : Binary64 :=
  if num = 0 then ofSignBits negative 0
  else
    let scale := max (floorLog2 num den - 52) (-1074)
    let significand := roundedQuotient (num * twoPow (-scale).toNat) (den * twoPow scale.toNat)
    ofSignBits negative (min ((scale + 1074).toNat * exponentUnit + significand) infinityBits)

def digitCount (n : Nat) : Nat := (Nat.toDigits 10 n).length

/-- The number nearest to `digits * 10 ^ exponent`.  Decimals far outside the range of the format
are settled by their number of digits. -/
def ofDecimal (negative : Bool) (digits : Nat) (exponent : Int) : Binary64 :=
  if digits = 0 then ofSignBits negative 0
  else
    let magnitude := (digitCount digits : Int) + exponent
    if 310 < magnitude then ofSignBits negative infinityBits
    else if magnitude < -330 then ofSignBits negative 0
    else nearest negative (digits * tenPow exponent.toNat) (tenPow (-exponent).toNat)

def toInt? (x : Binary64) : Option Int :=
  if !x.isFinite then none
  else
    let (num, den) := x.ratio
    if num % den = 0 then some (if x.negative then -(num / den : Nat) else (num / den : Nat))
    else none

/-- Least integer that no longer rounds to a finite number. -/
def integerLimit : Nat := twoPow 1024 - twoPow 970

end Binary64

end Marginalia
