import Marginalia.Number.Binary64

/-!
# Shortest decimals

A finite number is written with the fewest decimal digits that read back to it.  On every grid of
one, two, …, seventeen digits the two neighbours of the number are tried; of two hits the nearer
one is taken, and the even one when they are equally near.
-/

namespace Marginalia.Binary64
set_option autoImplicit false

/-- A decimal `digits * 10 ^ exponent`. -/
structure Decimal where
  digits : Nat
  exponent : Int
deriving DecidableEq

/-- The greatest `k` with `10 ^ k ≤ num / den`, for positive `num` and `den`. -/
def floorLog10 (num den : Nat) : Int :=
  if den ≤ num then (digitCount (num / den) : Int) - 1
  else 0 - (digitCount ((den + num - 1) / num - 1) : Int)

def readsBack (x : Binary64) (d : Decimal) : Bool :=
  ofDecimal x.negative d.digits d.exponent == x

/-- Twice the distance between `num / den` and the decimal, on a common denominator. -/
def distance (num den : Nat) (d : Decimal) : Nat :=
  let a := num * tenPow (-d.exponent).toNat
  let b := d.digits * tenPow d.exponent.toNat * den
  (a - b) + (b - a)

def neighbours (num den : Nat) (exponent : Int) : Decimal × Decimal :=
  let low := num * tenPow (-exponent).toNat / (den * tenPow exponent.toNat)
  (⟨low, exponent⟩, ⟨low + 1, exponent⟩)

def onGrid? (x : Binary64) (exponent : Int) : Option Decimal :=
  let (num, den) := x.ratio
  let (low, high) := neighbours num den exponent
  match x.readsBack low, x.readsBack high with
  | true, true =>
    let a := distance num den low
    let b := distance num den high
    if a < b then some low
    else if b < a then some high
    else if low.digits % 2 = 0 then some low else some high
  | true, false => some low
  | false, true => some high
  | false, false => none

def exact (x : Binary64) : Decimal :=
  if 0 ≤ x.scale then ⟨x.significand * twoPow x.scale.toNat, 0⟩
  else ⟨x.significand * Nat.pow 5 (-x.scale).toNat, x.scale⟩

/-- The decimal with the fewest digits that reads back to a finite number other than zero.
Seventeen digits are always enough; the number itself only completes the definition. -/
def shortest (x : Binary64) : Decimal :=
  let (num, den) := x.ratio
  let top := floorLog10 num den
  ((List.range 17).findSome? fun (k : Nat) => x.onGrid? (top - k)).getD x.exact

end Marginalia.Binary64
