import Marginalia.Proofs.Number.Written

/-!
# The range of binary64

An integer lies in the range of binary64 if the number nearest to it is finite.  The least magnitude
that does not is halfway between the greatest finite number and the next power of two; there the
power of two is the even neighbour, so the half goes up.
-/

namespace Marginalia.Binary64
set_option autoImplicit false

/-! ## Rounding -/

section Rounding
variable {num den k : Nat}

theorem roundedQuotient_cases (num den : Nat) :
    (roundedQuotient num den = num / den ∧ 2 * (num % den) ≤ den) ∨
      (roundedQuotient num den = num / den + 1 ∧ den ≤ 2 * (num % den)) := by
  simp only [roundedQuotient]
  split
  · exact Or.inl ⟨rfl, by omega⟩
  · split
    · exact Or.inr ⟨rfl, by omega⟩
    · split
      · exact Or.inl ⟨rfl, by omega⟩
      · exact Or.inr ⟨rfl, by omega⟩

theorem le_roundedQuotient (hden : 0 < den) (h : k * den ≤ num) : k ≤ roundedQuotient num den := by
  have hk : k ≤ num / den := (Nat.le_div_iff_mul_le hden).mpr h
  rcases roundedQuotient_cases num den with ⟨heq, -⟩ | ⟨heq, -⟩ <;> omega

theorem roundedQuotient_le (hden : 0 < den) (h : num < k * den) : roundedQuotient num den ≤ k := by
  have hk : num / den < k := (Nat.div_lt_iff_lt_mul hden).mpr h
  rcases roundedQuotient_cases num den with ⟨heq, -⟩ | ⟨heq, -⟩ <;> omega

theorem even_le_roundedQuotient_iff (num : Nat) (hden : 0 < den) (hk : k % 2 = 1) :
    k + 1 ≤ roundedQuotient num den ↔ (2 * k + 1) * den ≤ 2 * num := by
  have hsplit : den * (num / den) + num % den = num := Nat.div_add_mod num den
  have hlt : num % den < den := Nat.mod_lt num hden
  have hleft : (2 * k + 1) * den = 2 * (den * k) + den := by
    rw [Nat.add_mul, Nat.one_mul, Nat.mul_assoc, Nat.mul_comm k den]
  rw [hleft]
  rcases Nat.lt_trichotomy k (num / den) with hbelow | hsame | habove
  · have hmul : den * (k + 1) ≤ den * (num / den) := Nat.mul_le_mul_left den hbelow
    have hup : k + 1 ≤ roundedQuotient num den :=
      le_roundedQuotient hden ((Nat.le_div_iff_mul_le hden).mp hbelow)
    rw [Nat.mul_succ] at hmul
    omega
  · simp only [roundedQuotient, ← hsame]
    rw [← hsame] at hsplit
    split
    · omega
    · split
      · omega
      · rw [if_neg (by omega)]
        omega
  · have hmul : den * (num / den + 1) ≤ den * k := Nat.mul_le_mul_left den habove
    have hdown : roundedQuotient num den ≤ k := by
      rcases roundedQuotient_cases num den with ⟨heq, -⟩ | ⟨heq, -⟩ <;> omega
    rw [Nat.mul_succ] at hmul
    omega

end Rounding

/-! ## Finite numbers -/

theorem isFinite_ofSignBits {magnitude : Nat} (h : magnitude ≤ infinityBits) (negative : Bool) :
    (ofSignBits negative magnitude).isFinite = true ↔ magnitude < infinityBits := by
  unfold infinityBits exponentUnit at *
  have hfield : (ofSignBits negative magnitude).exponentField = magnitude / exponentUnit := by
    simp only [exponentField, ofSignBits, UInt64.toNat_ofNat', exponentUnit, signUnit]
    split <;> omega
  simp only [isFinite, hfield, bne_iff_ne, exponentUnit]
  omega

theorem twoPow_add (a b : Nat) : twoPow (a + b) = twoPow a * twoPow b := Nat.pow_add 2 a b

theorem twoPow_mono {a b : Nat} (h : a ≤ b) : twoPow a ≤ twoPow b :=
  Nat.pow_le_pow_right (by decide) h

theorem twoPow_log2_le {n : Nat} (hn : n ≠ 0) : twoPow n.log2 ≤ n := Nat.log2_self_le hn

theorem lt_twoPow_log2 (n : Nat) : n < twoPow (n.log2 + 1) := Nat.lt_log2_self

theorem floorLog2_one {n : Nat} (hn : n ≠ 0) : floorLog2 n 1 = n.log2 := by
  have hone : Nat.log2 1 = 0 := by decide
  have hup : ((n.log2 : Int) - (0 : Nat)).toNat = n.log2 := by omega
  have hdown : (-((n.log2 : Int) - (0 : Nat))).toNat = 0 := by omega
  have hzero : twoPow 0 = 1 := rfl
  have hle : 1 * twoPow n.log2 ≤ n * twoPow 0 := by
    rw [Nat.one_mul, hzero, Nat.mul_one]
    exact twoPow_log2_le hn
  simp only [floorLog2, hone, hup, hdown]
  rw [if_pos hle]
  omega

def roundedSignificand (n : Nat) : Nat :=
  roundedQuotient (n * twoPow (52 - n.log2)) (twoPow (n.log2 - 52))

theorem nearest_one {n : Nat} (hn : n ≠ 0) (negative : Bool) :
    nearest negative n 1 = ofSignBits negative
      (min ((n.log2 + 1022) * exponentUnit + roundedSignificand n) infinityBits) := by
  have hscale : max ((n.log2 : Int) - 52) (-1074) = (n.log2 : Int) - 52 := by omega
  have hup : (-((n.log2 : Int) - 52)).toNat = 52 - n.log2 := by omega
  have hdown : ((n.log2 : Int) - 52).toNat = n.log2 - 52 := by omega
  have hfield : ((n.log2 : Int) - 52 + 1074).toNat = n.log2 + 1022 := by omega
  simp only [nearest, if_neg hn, floorLog2_one hn, hscale, hup, hdown, hfield, Nat.one_mul]
  rfl

section Range
variable {n : Nat}

theorem roundedSignificand_bounds (hn : n ≠ 0) :
    twoPow 52 ≤ roundedSignificand n ∧ roundedSignificand n ≤ twoPow 53 := by
  constructor
  · apply le_roundedQuotient (twoPow_pos _)
    calc twoPow 52 * twoPow (n.log2 - 52) = twoPow n.log2 * twoPow (52 - n.log2) := by
          rw [← twoPow_add, ← twoPow_add]
          congr 1
          omega
      _ ≤ n * twoPow (52 - n.log2) := Nat.mul_le_mul_right _ (twoPow_log2_le hn)
  · apply roundedQuotient_le (twoPow_pos _)
    calc n * twoPow (52 - n.log2) < twoPow (n.log2 + 1) * twoPow (52 - n.log2) :=
          Nat.mul_lt_mul_of_pos_right (lt_twoPow_log2 n) (twoPow_pos _)
      _ = twoPow 53 * twoPow (n.log2 - 52) := by
          rw [← twoPow_add, ← twoPow_add]
          congr 1
          omega

theorem integerLimit_eq : integerLimit = (twoPow 54 - 1) * twoPow 970 := by
  have htop : twoPow 1024 = twoPow 54 * twoPow 970 := twoPow_add 54 970
  rw [integerLimit, htop, Nat.sub_mul, Nat.one_mul]

theorem lt_integerLimit_of_log2_lt (h : n.log2 < 1023) : n < integerLimit := by
  have hlt : n < twoPow (n.log2 + 1) := lt_twoPow_log2 n
  have hle : twoPow (n.log2 + 1) ≤ twoPow 1023 := twoPow_mono h
  have htop : twoPow 1023 = twoPow 53 * twoPow 970 := twoPow_add 53 970
  have hfactor : twoPow 53 * twoPow 970 ≤ (twoPow 54 - 1) * twoPow 970 :=
    Nat.mul_le_mul_right _ (by decide)
  rw [integerLimit_eq]
  omega

theorem integerLimit_le_of_lt_log2 (hn : n ≠ 0) (h : 1023 < n.log2) : integerLimit ≤ n := by
  have hle : twoPow 1024 ≤ twoPow n.log2 := twoPow_mono h
  have hn : twoPow n.log2 ≤ n := twoPow_log2_le hn
  unfold integerLimit
  omega

theorem twoPow_le_roundedSignificand_iff (h : n.log2 = 1023) :
    twoPow 53 ≤ roundedSignificand n ↔ integerLimit ≤ n := by
  have hstep : twoPow 971 = twoPow 1 * twoPow 970 := twoPow_add 1 970
  have htwo : twoPow 1 = 2 := rfl
  have hodd : (twoPow 53 - 1) % 2 = 1 := by decide
  have hnext : twoPow 53 - 1 + 1 = twoPow 53 := by decide
  have hdouble : 2 * (twoPow 53 - 1) + 1 = twoPow 54 - 1 := by decide
  have hiff := even_le_roundedQuotient_iff n (twoPow_pos 971) hodd
  rw [hnext, hdouble, hstep, htwo, Nat.mul_left_comm] at hiff
  have hround : roundedSignificand n = roundedQuotient n (2 * twoPow 970) := by
    rw [roundedSignificand, h, ← htwo, ← hstep]
    exact congrArg (roundedQuotient · (twoPow 971)) (Nat.mul_one n)
  rw [hround, hiff, integerLimit_eq]
  omega

end Range

/-- The integers in the range of binary64 are those below the limit. -/
theorem isFinite_nearest_iff (negative : Bool) (n : Nat) :
    (nearest negative n 1).isFinite = true ↔ n < integerLimit := by
  by_cases hn : n = 0
  · subst hn
    have hpos : 0 < integerLimit := lt_integerLimit_of_log2_lt (by decide)
    simp only [hpos, iff_true]
    exact (isFinite_ofSignBits (Nat.zero_le _) negative).mpr (by decide)
  obtain ⟨hlow, hhigh⟩ := roundedSignificand_bounds hn
  have hlow : 2 ^ 52 ≤ roundedSignificand n := hlow
  have hhigh : roundedSignificand n ≤ 2 ^ 53 := hhigh
  rw [nearest_one hn, isFinite_ofSignBits (Nat.min_le_right _ _)]
  unfold infinityBits exponentUnit
  rcases Nat.lt_trichotomy n.log2 1023 with hlog | hlog | hlog
  · have hlt := lt_integerLimit_of_log2_lt hlog
    omega
  · have hiff : 2 ^ 53 ≤ roundedSignificand n ↔ integerLimit ≤ n :=
      twoPow_le_roundedSignificand_iff hlog
    omega
  · have hle := integerLimit_le_of_lt_log2 hn hlog
    omega

end Marginalia.Binary64
