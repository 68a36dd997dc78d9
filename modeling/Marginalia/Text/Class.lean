/-!
# Classes of characters

A class is written as the increasing list of the code points at which membership changes: the
first bound opens the first block of members, the second closes it, and so on.  The tables that
use this form stand in the modules named after the classes.
-/

namespace Marginalia.Text
set_option autoImplicit false

/-- Membership in the class with the given bounds: an odd number of bounds lies at or below `c`. -/
def within (bounds : List Nat) (c : Char) : Bool :=
  (bounds.takeWhile (· ≤ c.toNat)).length % 2 == 1

theorem within_nil (c : Char) : within [] c = false := rfl

theorem within_pair (lo hi : Nat) (c : Char) :
    within [lo, hi] c = (decide (lo ≤ c.toNat) && !decide (hi ≤ c.toNat)) := by
  by_cases hlo : lo ≤ c.toNat <;> by_cases hhi : hi ≤ c.toNat <;>
    simp [within, hlo, hhi]

end Marginalia.Text
