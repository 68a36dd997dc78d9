import Mathlib.Data.List.DropRight
import Marginalia.Value.Canonical

/-!
# What the text of a number shows

The text of a number has characters of its own, so that no other value is written like it.  It shows
whether the number is zero and whether it is one.
-/

namespace Marginalia.Binary64
set_option autoImplicit false

open Value (canonicalSpelling)

/-! ## Zero and one -/

def one : Binary64 := ⟨UInt64.ofNat (1023 * exponentUnit)⟩

theorem twoPow_pos (k : Nat) : 0 < twoPow k := Nat.pow_pos (by decide)

theorem tenPow_pos (k : Nat) : 0 < tenPow k := Nat.pow_pos (by decide)

theorem tenPow_eq (k : Nat) : tenPow k = twoPow k * Nat.pow 5 k := Nat.mul_pow 2 5 k

section Bits
variable {x : Binary64}

theorem exponentUnit_le_significand (h : x.exponentField ≠ 0) : exponentUnit ≤ x.significand := by
  unfold significand
  rw [if_neg h]
  exact Nat.le_add_left _ _

theorem significand_lt (x : Binary64) : x.significand < 2 * exponentUnit := by
  have hfraction : x.fraction < exponentUnit := Nat.mod_lt _ (by decide)
  unfold significand
  split <;> omega

theorem significand_pos (h : x.isZero = false) : 0 < x.significand := by
  unfold isZero at h
  unfold significand
  split
  · next hexponent =>
    rw [hexponent, beq_self_eq_true, Bool.true_and, beq_eq_false_iff_ne] at h
    exact Nat.pos_of_ne_zero h
  · exact Nat.add_pos_right _ (by decide)

theorem eq_one_of_fields (hsign : x.negative = false) (hexponent : x.exponentField = 1023)
    (hfraction : x.fraction = 0) : x = one := by
  obtain ⟨bits⟩ := x
  unfold negative signUnit at hsign
  unfold exponentField exponentUnit at hexponent
  unfold fraction exponentUnit at hfraction
  rw [beq_eq_false_iff_ne] at hsign
  dsimp only at hsign hexponent hfraction
  have hlt : bits.toNat < 2 ^ 64 := bits.toNat_lt
  have hbits : bits.toNat = 1023 * exponentUnit := by
    unfold exponentUnit
    omega
  unfold one
  rw [← hbits, UInt64.ofNat_toNat]

theorem ratio_eq_of_toInt? (h : x.toInt? = some 1) : x.negative = false ∧ x.ratio.1 = x.ratio.2 := by
  unfold toInt? at h
  split at h
  · cases h
  · dsimp only at h
    split at h
    · next hmod =>
      have hdiv := Nat.div_mul_cancel (Nat.dvd_of_mod_eq_zero hmod)
      cases hsign : x.negative with
      | true =>
        rw [hsign, if_pos rfl] at h
        have hone := Option.some.inj h
        have hpos := Int.natCast_nonneg (x.ratio.1 / x.ratio.2)
        omega
      | false =>
        rw [hsign, if_neg Bool.false_ne_true] at h
        have hone : x.ratio.1 / x.ratio.2 = 1 := by
          have := Option.some.inj h
          omega
        rw [hone, Nat.one_mul] at hdiv
        exact ⟨rfl, hdiv.symm⟩
    · cases h

theorem toInt?_eq_one_iff : x.toInt? = some 1 ↔ x = one := by
  constructor
  · intro h
    obtain ⟨hsign, hratio⟩ := ratio_eq_of_toInt? h
    have hlt := significand_lt x
    have hscale : x.scale = (max x.exponentField 1 : Nat) - 1075 := rfl
    unfold ratio at hratio
    split at hratio
    · next hpos =>
      -- A scale that is not negative comes with a significand that is too large.
      have hge := exponentUnit_le_significand (x := x) (by omega)
      have hone : x.significand = 1 := Nat.eq_one_of_mul_eq_one_right hratio
      rw [hone] at hge
      exact absurd hge (by decide)
    · next hneg =>
      dsimp only at hratio
      have hunit : exponentUnit = 2 ^ 52 := by decide
      rw [hratio, hunit, ← Nat.pow_succ'] at hlt
      have hle : (-x.scale).toNat < 53 := (Nat.pow_lt_pow_iff_right (by decide)).mp hlt
      have hexponent : x.exponentField ≠ 0 := by
        intro h0
        rw [h0] at hscale
        omega
      have hge := exponentUnit_le_significand hexponent
      rw [hratio, hunit] at hge
      have hge : 52 ≤ (-x.scale).toNat := (Nat.pow_le_pow_iff_right (by decide)).mp hge
      have hfield : x.exponentField = 1023 := by omega
      have hfraction : x.fraction = 0 := by
        have hsum : x.significand = x.fraction + exponentUnit := if_neg hexponent
        rw [hratio, show (-x.scale).toNat = 52 by omega] at hsum
        have : twoPow 52 = exponentUnit := by decide
        omega
      exact eq_one_of_fields hsign hfield hfraction
  · rintro rfl
    decide

end Bits

/-! ## Decimals -/

theorem readsBack_of_onGrid? {x : Binary64} {exponent : Int} {d : Decimal}
    (h : x.onGrid? exponent = some d) : x.readsBack d = true := by
  unfold onGrid? at h
  dsimp only at h
  split at h
  · next hlow hhigh =>
    split at h
    · cases h
      exact hlow
    · split at h
      · cases h
        exact hhigh
      · split at h <;> cases h
        · exact hlow
        · exact hhigh
  · next hlow _ =>
    cases h
    exact hlow
  · next hhigh =>
    cases h
    exact hhigh
  · cases h

theorem shortest_cases (x : Binary64) : x.readsBack x.shortest = true ∨ x.shortest = x.exact := by
  unfold shortest
  dsimp only
  cases h : (List.range 17).findSome? fun (k : Nat) =>
      x.onGrid? (floorLog10 x.ratio.1 x.ratio.2 - k) with
  | none => exact Or.inr rfl
  | some d =>
    obtain ⟨k, -, hgrid⟩ := List.exists_of_findSome?_eq_some h
    exact Or.inl (readsBack_of_onGrid? hgrid)

theorem digits_shortest_pos {x : Binary64} (h : x.isZero = false) : 0 < x.shortest.digits := by
  rcases shortest_cases x with hback | hexact
  · refine Nat.pos_of_ne_zero fun h0 => ?_
    have hx : ofDecimal x.negative x.shortest.digits x.shortest.exponent = x := beq_iff_eq.mp hback
    have hnone : ofDecimal x.negative 0 x.shortest.exponent = ofSignBits x.negative 0 := if_pos rfl
    rw [h0, hnone] at hx
    have hzero : x.isZero = true := by
      rw [← hx]
      cases x.negative <;> decide
    rw [hzero] at h
    cases h
  · rw [hexact]
    have hpos := significand_pos h
    unfold exact
    split
    · exact Nat.mul_pos hpos (twoPow_pos _)
    · exact Nat.mul_pos hpos (Nat.pow_pos (by decide))

theorem nearest_self {n : Nat} (h : 0 < n) : nearest false n n = one := by
  have hlog : floorLog2 n n = 0 := by
    unfold floorLog2
    dsimp only
    rw [Int.sub_self, Int.neg_zero, if_pos (Nat.le_refl _)]
  have hquotient : roundedQuotient (n * twoPow 52) (n * twoPow 0) = twoPow 52 := by
    have hden : n * twoPow 0 = n := Nat.mul_one n
    unfold roundedQuotient
    dsimp only
    rw [hden, Nat.mul_mod_right, Nat.mul_div_cancel_left _ h, if_pos (by omega)]
  unfold nearest
  rw [if_neg (Nat.pos_iff_ne_zero.mp h), hlog]
  dsimp only
  have hscale : max ((0 : Int) - 52) (-1074) = -52 := by decide
  rw [hscale]
  have hup : (-(-52 : Int)).toNat = 52 := by decide
  have hdown : (-52 : Int).toNat = 0 := by decide
  rw [hup, hdown, hquotient]
  decide

theorem toInt?_of_shortest_one {x : Binary64} (hsign : x.negative = false)
    (hfinite : x.isFinite = true) (hexponent : x.shortest.exponent ≤ 0)
    (hcount : (digitCount x.shortest.digits : Int) + x.shortest.exponent = 1)
    (hdigits : x.shortest.digits = tenPow (-x.shortest.exponent).toNat) : x.toInt? = some 1 := by
  rcases shortest_cases x with hback | hexact
  · have hx : ofDecimal x.negative x.shortest.digits x.shortest.exponent = x := beq_iff_eq.mp hback
    have hpos : 0 < x.shortest.digits := by
      rw [hdigits]
      exact tenPow_pos _
    have hnone : x.shortest.exponent.toNat = 0 := by omega
    have hscaled : x.shortest.digits * tenPow 0 = x.shortest.digits := Nat.mul_one _
    rw [toInt?_eq_one_iff, ← hx, hsign]
    unfold ofDecimal
    rw [if_neg (Nat.pos_iff_ne_zero.mp hpos)]
    dsimp only
    rw [hcount, if_neg (by decide), if_neg (by decide), hnone, hscaled, ← hdigits,
      nearest_self hpos]
  · have hratio : x.ratio.1 = x.ratio.2 := by
      rw [hexact] at hdigits
      unfold exact at hdigits
      unfold ratio
      split at hdigits
      · next hscale =>
        rw [if_pos hscale]
        exact hdigits
      · next hscale =>
        rw [if_neg hscale]
        dsimp only at hdigits ⊢
        rw [tenPow_eq] at hdigits
        exact Nat.eq_of_mul_eq_mul_right (Nat.pow_pos (by decide)) hdigits
    have hden : 0 < x.ratio.2 := by
      unfold ratio
      split
      · exact Nat.one_pos
      · exact twoPow_pos _
    unfold toInt?
    rw [hfinite, hsign]
    simp [hratio, Nat.div_self hden]

/-! ## Digits -/

def significantDigits (n : Nat) : List Char := (Nat.toDigits 10 n).rdropWhile (· == '0')

theorem isDigit_of_mem_significantDigits {n : Nat} {c : Char} (h : c ∈ significantDigits n) :
    c.isDigit = true :=
  Nat.isDigit_of_mem_toDigits (by decide) (by decide) ((List.rdropWhile_prefix _ _).subset h)

theorem getLast_significantDigits {n : Nat} (h : significantDigits n ≠ []) :
    (significantDigits n).getLast h ≠ '0' := by
  intro hzero
  exact List.rdropWhile_last_not _ _ h (by rw [beq_iff_eq]; exact hzero)

theorem ofDigitChars_significantDigits (n : Nat) :
    tenPow ((Nat.toDigits 10 n).length - (significantDigits n).length) *
      Nat.ofDigitChars 10 (significantDigits n) 0 = n := by
  have hsplit : significantDigits n ++ (Nat.toDigits 10 n).rtakeWhile (· == '0') =
      Nat.toDigits 10 n := List.rdropWhile_append_rtakeWhile
  have hzeros : (Nat.toDigits 10 n).rtakeWhile (· == '0') =
      List.replicate ((Nat.toDigits 10 n).length - (significantDigits n).length) '0' := by
    refine List.eq_replicate_iff.mpr ⟨?_, fun c hc => ?_⟩
    · have := congrArg List.length hsplit
      rw [List.length_append] at this
      omega
    · exact beq_iff_eq.mp (List.mem_rtakeWhile_imp (p := (· == '0')) hc)
  have hvalue : Nat.ofDigitChars 10 (Nat.toDigits 10 n) 0 = n := Nat.ofDigitChars_ten_toDigits
  rw [← hsplit, Nat.ofDigitChars_append, hzeros, Nat.ofDigitChars_replicate_zero] at hvalue
  exact hvalue

theorem exists_mem_significantDigits {n : Nat} (h : 0 < n) : ∃ c ∈ significantDigits n, c ≠ '0' := by
  have hne : significantDigits n ≠ [] := by
    intro hnil
    have hvalue := ofDigitChars_significantDigits n
    rw [hnil, Nat.ofDigitChars_nil, Nat.mul_zero] at hvalue
    omega
  exact ⟨_, List.getLast_mem hne, getLast_significantDigits hne⟩

/-! ## Texts -/

def numeral (c : Char) : Bool := c.isDigit || "+-.eNaInfity".toList.contains c

theorem numeral_of_isDigit {c : Char} (h : c.isDigit = true) : numeral c = true := by
  unfold numeral
  rw [h, Bool.true_or]

theorem numeral_of_all {text : List Char} (h : text.all numeral = true) :
    ∀ c ∈ text, numeral c = true :=
  List.all_eq_true.mp h

theorem toList_layout (digits : List Char) (e : Int) :
    (∃ k, (layout digits e).toList = '0' :: '.' :: (List.replicate k '0' ++ digits)) ∨
    (∃ k, e + 1 = (digits.length + k : Nat) ∧
      (layout digits e).toList = digits ++ List.replicate k '0' ++ ['.', '0']) ∨
    (∃ whole part, digits = whole ++ part ∧ part ≠ [] ∧
      (layout digits e).toList = whole ++ '.' :: part) ∨
    (∃ first point rest, digits = first ++ rest ∧ (∀ c ∈ point, c = '.') ∧
      (layout digits e).toList = first ++ (point ++ rest) ++ (exponentText e).toList) := by
  unfold layout
  split
  · split
    · left
      refine ⟨(-e - 1).toNat, ?_⟩
      simp [zerosText, String.toList_append]
    · next hpos =>
      dsimp only
      right
      split
      · next hlength =>
        left
        refine ⟨e.toNat + 1 - digits.length, by omega, ?_⟩
        simp [zerosText, String.toList_append]
      · next hlength =>
        right
        left
        refine ⟨digits.take (e.toNat + 1), digits.drop (e.toNat + 1),
          (List.take_append_drop _ _).symm, ?_, ?_⟩
        · intro hnil
          have := congrArg List.length hnil
          rw [List.length_drop, List.length_nil] at this
          omega
        · simp [String.toList_append]
  · right
    right
    right
    refine ⟨digits.take 1, if (digits.drop 1).isEmpty then [] else ['.'], digits.drop 1,
      (List.take_append_drop _ _).symm, ?_, ?_⟩
    · split <;> simp
    · dsimp only
      split
      · next hrest => simp [String.toList_append, List.isEmpty_iff.mp hrest]
      · simp [String.toList_append]

theorem mem_layout {digits : List Char} {c : Char} (h : c ∈ digits) (e : Int) :
    c ∈ (layout digits e).toList := by
  rcases toList_layout digits e with ⟨k, ht⟩ | ⟨k, -, ht⟩ | ⟨whole, part, rfl, -, ht⟩ |
    ⟨first, point, rest, rfl, -, ht⟩ <;> rw [ht]
  · simp [h]
  · simp [h]
  · rcases List.mem_append.mp h with h | h <;> simp [h]
  · rcases List.mem_append.mp h with h | h <;> simp [h]

theorem toList_exponentText (e : Int) : ∃ sign pad, (sign = '-' ∨ sign = '+') ∧ (∀ c ∈ pad, c = '0') ∧
    (exponentText e).toList = 'e' :: sign :: (pad ++ Nat.toDigits 10 e.natAbs) := by
  refine ⟨if e < 0 then '-' else '+', if (toString e.natAbs).length < 2 then ['0'] else [], ?_, ?_, ?_⟩
  · split <;> simp
  · split <;> simp
  · have hdigits : (toString e.natAbs).toList = Nat.toDigits 10 e.natAbs := by
      rw [Nat.toString_eq_ofList_toDigits, String.toList_ofList]
    unfold exponentText
    dsimp only
    rw [String.toList_append, String.toList_append, hdigits]
    split <;> split <;> rfl

theorem numeral_layout {digits : List Char} (h : ∀ c ∈ digits, c.isDigit = true) (e : Int) :
    ∀ c ∈ (layout digits e).toList, numeral c = true := by
  have hdigits : ∀ c ∈ digits, numeral c = true := fun c hc => numeral_of_isDigit (h c hc)
  have hzeros : ∀ k, ∀ c ∈ List.replicate k '0', numeral c = true := by
    intro k c hc
    rw [List.eq_of_mem_replicate hc]
    decide
  intro c hc
  rcases toList_layout digits e with ⟨k, ht⟩ | ⟨k, -, ht⟩ | ⟨whole, part, rfl, -, ht⟩ |
    ⟨first, point, rest, rfl, hpoint, ht⟩ <;> rw [ht] at hc
  · rcases List.mem_cons.mp hc with rfl | hc
    · decide
    rcases List.mem_cons.mp hc with rfl | hc
    · decide
    exact (List.mem_append.mp hc).elim (hzeros k c) (hdigits c)
  · rcases List.mem_append.mp hc with hc | hc
    · exact (List.mem_append.mp hc).elim (hdigits c) (hzeros k c)
    · exact numeral_of_all (by decide) c hc
  · rcases List.mem_append.mp hc with hc | hc
    · exact hdigits c (List.mem_append_left part hc)
    rcases List.mem_cons.mp hc with rfl | hc
    · decide
    · exact hdigits c (List.mem_append_right whole hc)
  · rcases List.mem_append.mp hc with hc | hc
    · rcases List.mem_append.mp hc with hc | hc
      · exact hdigits c (List.mem_append_left rest hc)
      rcases List.mem_append.mp hc with hc | hc
      · rw [hpoint c hc]
        decide
      · exact hdigits c (List.mem_append_right first hc)
    · obtain ⟨sign, pad, hsign, hpad, hexponent⟩ := toList_exponentText e
      rw [hexponent] at hc
      rcases List.mem_cons.mp hc with rfl | hc
      · decide
      rcases List.mem_cons.mp hc with rfl | hc
      · rcases hsign with rfl | rfl <;> decide
      rcases List.mem_append.mp hc with hc | hc
      · rw [hpad c hc]
        decide
      · exact numeral_of_isDigit (Nat.isDigit_of_mem_toDigits (by decide) (by decide) hc)

theorem point_or_exponent_mem_layout (digits : List Char) (e : Int) :
    '.' ∈ (layout digits e).toList ∨ 'e' ∈ (layout digits e).toList := by
  rcases toList_layout digits e with ⟨k, ht⟩ | ⟨k, -, ht⟩ | ⟨whole, part, -, -, ht⟩ |
    ⟨first, point, rest, -, -, ht⟩ <;> rw [ht]
  · simp
  · simp
  · simp
  · obtain ⟨sign, pad, -, -, hexponent⟩ := toList_exponentText e
    simp [hexponent]

theorem layout_eq_one {digits : List Char} {e : Int}
    (hlast : ∀ h : digits ≠ [], digits.getLast h ≠ '0')
    (h : (layout digits e).toList = ['1', '.', '0']) : digits = ['1'] ∧ e = 0 := by
  rcases toList_layout digits e with ⟨k, ht⟩ | ⟨k, he, ht⟩ | ⟨whole, part, rfl, hpart, ht⟩ |
    ⟨first, point, rest, rfl, -, ht⟩ <;> rw [ht] at h
  · cases h
  · have hone : digits ++ List.replicate k '0' = ['1'] := List.append_cancel_right h
    have hlength := congrArg List.length hone
    rw [List.length_append, List.length_replicate, List.length_singleton] at hlength
    refine ⟨?_, by omega⟩
    cases k with
    | zero => simpa using hone
    | succ k =>
      have hmem : '0' ∈ digits ++ List.replicate (k + 1) '0' := by simp
      rw [hone] at hmem
      exact absurd hmem (by decide)
  · -- The text would end in a zero of the digits.
    have hend : part.getLast hpart = '0' := by
      have hsome := congrArg List.getLast? h
      rw [List.getLast?_append_cons, List.getLast?_cons, List.getLast?_eq_some_getLast hpart] at hsome
      simpa using hsome
    have hne : whole ++ part ≠ [] := List.append_ne_nil_of_right_ne_nil whole hpart
    have := hlast hne
    rw [List.getLast_append_of_ne_nil _ hpart] at this
    exact absurd hend this
  · obtain ⟨sign, pad, -, -, hexponent⟩ := toList_exponentText e
    have hmem : 'e' ∈ first ++ (point ++ rest) ++ (exponentText e).toList := by simp [hexponent]
    rw [h] at hmem
    exact absurd hmem (by decide)

theorem magnitudeText_eq_layout {x : Binary64} (h : x.isZero = false) :
    x.magnitudeText = layout (significantDigits x.shortest.digits)
      (x.shortest.exponent + digitCount x.shortest.digits - 1) := by
  unfold magnitudeText
  rw [h]
  rfl

theorem isFinite_of_isZero {x : Binary64} (h : x.isZero = true) : x.isFinite = true := by
  unfold isZero at h
  unfold isFinite
  rw [beq_iff_eq.mp (Bool.and_eq_true_iff.mp h).1]
  rfl

theorem isNaN_of_isFinite {x : Binary64} (h : x.isFinite = true) : x.isNaN = false := by
  unfold isFinite at h
  unfold isNaN
  rw [beq_eq_false_iff_ne.mpr (bne_iff_ne.mp h), Bool.false_and]

/-- The four forms of the text of a number. -/
theorem written_cases (x : Binary64) :
    (x.isFinite = false ∧ (x.written canonicalSpelling).toList = "NaN".toList) ∨
    ∃ sign, sign = (if x.negative then ['-'] else []) ∧
      ((x.isFinite = false ∧ (x.written canonicalSpelling).toList = sign ++ "Infinity".toList) ∨
      (x.isZero = true ∧ (x.written canonicalSpelling).toList = sign ++ "0.0".toList) ∨
      (x.isZero = false ∧ x.isFinite = true ∧ (x.written canonicalSpelling).toList =
        sign ++ (layout (significantDigits x.shortest.digits)
          (x.shortest.exponent + digitCount x.shortest.digits - 1)).toList)) := by
  have hsign : (if x.negative then "-" else "").toList = if x.negative then ['-'] else [] := by
    split <;> rfl
  cases hfinite : x.isFinite with
  | false =>
    unfold written
    rw [hfinite]
    cases hnan : x.isNaN with
    | true => exact Or.inl ⟨rfl, rfl⟩
    | false =>
      refine Or.inr ⟨_, rfl, Or.inl ⟨rfl, ?_⟩⟩
      rw [if_neg Bool.false_ne_true, if_neg Bool.false_ne_true, String.toList_append, hsign]
      rfl
  | true =>
    refine Or.inr ⟨_, rfl, Or.inr ?_⟩
    unfold written
    rw [hfinite, isNaN_of_isFinite hfinite, if_neg Bool.false_ne_true, if_pos rfl,
      String.toList_append, hsign]
    cases hzero : x.isZero with
    | true =>
      refine Or.inl ⟨rfl, ?_⟩
      unfold magnitudeText
      rw [hzero, if_pos rfl]
    | false =>
      refine Or.inr ⟨rfl, rfl, ?_⟩
      rw [magnitudeText_eq_layout hzero]

section Written
variable (x : Binary64)

theorem numeral_written : ∀ c ∈ (x.written canonicalSpelling).toList, numeral c = true := by
  have hsign : ∀ c ∈ (if x.negative then ['-'] else []), numeral c = true := by
    apply numeral_of_all
    split <;> decide
  rcases written_cases x with ⟨-, ht⟩ | ⟨sign, rfl, ⟨-, ht⟩ | ⟨-, ht⟩ | ⟨-, -, ht⟩⟩ <;> rw [ht]
  · exact numeral_of_all (by decide)
  · exact List.forall_mem_append.mpr ⟨hsign, numeral_of_all (by decide)⟩
  · exact List.forall_mem_append.mpr ⟨hsign, numeral_of_all (by decide)⟩
  · exact List.forall_mem_append.mpr
      ⟨hsign, numeral_layout (fun _ => isDigit_of_mem_significantDigits) _⟩

theorem exists_mem_written : ∃ c ∈ (x.written canonicalSpelling).toList,
    c.isDigit = false ∧ c ≠ '-' := by
  rcases written_cases x with ⟨-, ht⟩ | ⟨sign, -, ⟨-, ht⟩ | ⟨-, ht⟩ | ⟨-, -, ht⟩⟩ <;> rw [ht]
  · exact ⟨'N', by decide, by decide, by decide⟩
  · exact ⟨'I', List.mem_append_right _ (by decide), by decide, by decide⟩
  · exact ⟨'.', List.mem_append_right _ (by decide), by decide, by decide⟩
  · rcases point_or_exponent_mem_layout (significantDigits x.shortest.digits)
        (x.shortest.exponent + digitCount x.shortest.digits - 1) with hmem | hmem
    · exact ⟨'.', List.mem_append_right _ hmem, by decide, by decide⟩
    · exact ⟨'e', List.mem_append_right _ hmem, by decide, by decide⟩

theorem written_eq_zero_iff : (x.written canonicalSpelling).toList ∈ ["0.0".toList, "-0.0".toList] ↔
    x.isZero = true := by
  constructor
  · intro h
    have hchars : ∀ c ∈ (x.written canonicalSpelling).toList, c ∈ ['-', '0', '.'] := by
      have htexts : ∀ text ∈ ["0.0".toList, "-0.0".toList], text ⊆ ['-', '0', '.'] := by decide
      exact fun _ hc => htexts _ h hc
    rcases written_cases x with ⟨-, ht⟩ | ⟨sign, -, ⟨-, ht⟩ | ⟨hzero, -⟩ | ⟨hzero, -, ht⟩⟩
    · rw [ht] at hchars
      exact absurd (hchars 'N' (by decide)) (by decide)
    · rw [ht] at hchars
      exact absurd (hchars 'I' (List.mem_append_right _ (by decide))) (by decide)
    · exact hzero
    · rw [ht] at hchars
      obtain ⟨c, hc, hne⟩ := exists_mem_significantDigits (digits_shortest_pos hzero)
      have hdigit := isDigit_of_mem_significantDigits hc
      have hmem := hchars c (List.mem_append_right _ (mem_layout hc _))
      simp only [List.mem_cons, hne, List.not_mem_nil, or_false, false_or] at hmem
      rcases hmem with rfl | rfl <;> exact absurd hdigit (by decide)
  · intro h
    rcases written_cases x with ⟨hfinite, -⟩ | ⟨sign, rfl, ⟨hfinite, -⟩ | ⟨-, ht⟩ | ⟨hzero, -, -⟩⟩
    · rw [isFinite_of_isZero h] at hfinite
      cases hfinite
    · rw [isFinite_of_isZero h] at hfinite
      cases hfinite
    · rw [ht]
      cases x.negative <;> decide
    · rw [h] at hzero
      cases hzero

theorem written_eq_one_iff : (x.written canonicalSpelling).toList = "1.0".toList ↔
    x.toInt? = some 1 := by
  constructor
  · intro h
    rcases written_cases x with ⟨-, ht⟩ | ⟨sign, rfl, hforms⟩
    · rw [ht] at h
      exact absurd h (by decide)
    · cases hsign : x.negative with
      | true =>
        -- A sign would be the first character.
        rw [hsign, if_pos rfl] at hforms
        rcases hforms with ⟨-, ht⟩ | ⟨-, ht⟩ | ⟨-, -, ht⟩ <;> rw [ht] at h <;>
          exact absurd (List.cons.inj h).1 (by decide)
      | false =>
        rw [hsign, if_neg Bool.false_ne_true] at hforms
        rcases hforms with ⟨-, ht⟩ | ⟨-, ht⟩ | ⟨hzero, hfinite, ht⟩ <;>
          rw [ht, List.nil_append] at h
        · exact absurd h (by decide)
        · exact absurd h (by decide)
        · obtain ⟨hdigits, he⟩ := layout_eq_one (fun _ => getLast_significantDigits _) h
          have hvalue := ofDigitChars_significantDigits x.shortest.digits
          have hone : Nat.ofDigitChars 10 ['1'] 0 = 1 := by decide
          rw [hdigits, hone, Nat.mul_one, List.length_singleton] at hvalue
          have hcount : 0 < digitCount x.shortest.digits :=
            List.length_pos_iff.mpr Nat.toDigits_ne_nil
          have hexponent : (-x.shortest.exponent).toNat = digitCount x.shortest.digits - 1 := by omega
          refine toInt?_of_shortest_one hsign hfinite (by omega) (by omega) ?_
          rw [hexponent]
          exact hvalue.symm
  · intro h
    rw [toInt?_eq_one_iff.mp h]
    decide +kernel

end Written

end Marginalia.Binary64
