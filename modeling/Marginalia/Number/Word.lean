/-!
# Words

Integers of at most 64 bits with their sign.
-/

namespace Marginalia.Number
set_option autoImplicit false

def fitsWord (n : Int) : Bool := -0x8000000000000000 ≤ n && n < 0x8000000000000000

theorem fitsWord_iff (n : Int) :
    fitsWord n = true ↔ -0x8000000000000000 ≤ n ∧ n < 0x8000000000000000 := by
  simp [fitsWord]

end Marginalia.Number
