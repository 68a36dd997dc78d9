import Mathlib.Data.List.Basic
import Marginalia.Value.Canonical

/-!
# Reading quoted texts

What is written for a character reads back as the character, so a text in quotes shows where it ends
and what it stands for.
-/

namespace Marginalia
set_option autoImplicit false

namespace Number

def hexValue (c : Char) : Nat := if c.isDigit then c.toNat - 48 else c.toNat - 87

theorem hexValue_digitChar {d : Nat} (h : d < 16) : hexValue (Nat.digitChar d) = d := by
  have hall : ∀ d : Fin 16, hexValue (Nat.digitChar d.1) = d.1 := by decide
  exact hall ⟨d, h⟩

def ofHexDigits (cs : List Char) : Nat := cs.foldl (fun n c => n * 16 + hexValue c) 0

theorem ofHexDigits_hexDigits (width n : Nat) :
    ofHexDigits (hexDigits width n) = n % Nat.pow 16 width := by
  induction width generalizing n with
  | zero => exact (Nat.mod_one n).symm
  | succ width ih =>
    have hlast : ofHexDigits (hexDigits (width + 1) n) =
        ofHexDigits (hexDigits width (n / 16)) * 16 + hexValue (Nat.digitChar (n % 16)) := by
      unfold ofHexDigits
      rw [hexDigits, List.foldl_append, List.foldl_cons, List.foldl_nil]
    have hpow : Nat.pow 16 (width + 1) = 16 * Nat.pow 16 width := Nat.pow_succ'
    rw [hlast, ih, hexValue_digitChar (Nat.mod_lt n (by decide)), hpow, Nat.mod_mul]
    omega

theorem digitChar_ne_special {d : Nat} (h : d < 16) :
    Nat.digitChar d ≠ Value.doubleQuote ∧ Nat.digitChar d ≠ '\\' := by
  have hall : ∀ d : Fin 16, Nat.digitChar d.1 ≠ Value.doubleQuote ∧ Nat.digitChar d.1 ≠ '\\' := by
    decide
  exact hall ⟨d, h⟩

theorem mem_hexDigits {width n : Nat} {c : Char} (h : c ∈ hexDigits width n) :
    c ≠ Value.doubleQuote ∧ c ≠ '\\' := by
  induction width generalizing n with
  | zero => cases h
  | succ width ih =>
    rcases List.mem_append.mp h with h | h
    · exact ih h
    · rw [List.mem_singleton.mp h]
      exact digitChar_ne_special (Nat.mod_lt n (by decide))

end Number

namespace Value

open Number (hexDigits ofHexDigits)

def unescape (c : Char) : Char :=
  match c with
  | 'n' => '\n'
  | 'r' => '\r'
  | 't' => '\t'
  | 'b' => Char.ofNat 8
  | 'f' => Char.ofNat 12
  | c => c

def readUnit (cs : List Char) : Nat × List Char := (ofHexDigits (cs.take 4), cs.drop 4)

def readUnits (cs : List Char) : Char × List Char :=
  let (unit, rest) := readUnit cs
  if 0xd800 ≤ unit ∧ unit < 0xdc00 then
    let (low, rest) := readUnit (rest.drop 2)
    (Char.ofNat (0x10000 + (unit - 0xd800) * 0x400 + (low - 0xdc00)), rest)
  else (Char.ofNat unit, rest)

def readEscape : List Char → Option (Char × List Char)
  | [] => none
  | c :: rest => some (if c = 'u' then readUnits rest else (unescape c, rest))

/-- The first character of a text in quotes and what follows it. -/
def readChar : List Char → Option (Char × List Char)
  | [] => none
  | c :: rest => if c = '\\' then readEscape rest else some (c, rest)

theorem canonicalChar_cases (c : Char) :
    (∃ e, canonicalChar c = ['\\', e] ∧ e ≠ 'u' ∧ unescape e = c) ∨
    (canonicalChar c = [c] ∧ c ≠ '\\' ∧ c ≠ doubleQuote) ∨
    (c.toNat < 0x10000 ∧ canonicalChar c = unitEscape c.toNat) ∨
    (0x10000 ≤ c.toNat ∧ canonicalChar c = unitEscape (0xd800 + (c.toNat - 0x10000) / 0x400) ++
      unitEscape (0xdc00 + (c.toNat - 0x10000) % 0x400)) := by
  unfold canonicalChar
  split
  · next h =>
    refine Or.inl ⟨c, rfl, ?_, ?_⟩ <;> rcases h with rfl | rfl <;> decide
  next h =>
  split
  · next h => exact Or.inl ⟨'n', rfl, by decide, h.symm⟩
  split
  · next h => exact Or.inl ⟨'r', rfl, by decide, h.symm⟩
  split
  · next h => exact Or.inl ⟨'t', rfl, by decide, h.symm⟩
  split
  · next h => exact Or.inl ⟨'b', rfl, by decide, by rw [← Char.ofNat_toNat c, h]; rfl⟩
  split
  · next h => exact Or.inl ⟨'f', rfl, by decide, by rw [← Char.ofNat_toNat c, h]; rfl⟩
  split
  · exact Or.inr (Or.inl ⟨rfl, fun hc => h (Or.inr hc), fun hc => h (Or.inl hc)⟩)
  split
  · next h => exact Or.inr (Or.inr (Or.inl ⟨h, rfl⟩))
  · next h => exact Or.inr (Or.inr (Or.inr ⟨Nat.le_of_not_lt h, rfl⟩))

theorem toNat_valid (c : Char) :
    c.toNat < 0xd800 ∨ 0xdfff < c.toNat ∧ c.toNat < 0x110000 := by
  have h := c.valid
  simp only [UInt32.isValidChar, Nat.isValidChar] at h
  exact h

theorem readUnit_hexDigits {n : Nat} (h : n < 0x10000) (rest : List Char) :
    readUnit (hexDigits 4 n ++ rest) = (n, rest) := by
  have hlength : (hexDigits 4 n).length = 4 := Number.length_hexDigits 4 n
  have hmod : n % Nat.pow 16 4 = n := Nat.mod_eq_of_lt h
  unfold readUnit
  rw [List.take_left' hlength, List.drop_left' hlength, Number.ofHexDigits_hexDigits, hmod]

theorem unitEscape_append (n : Nat) (rest : List Char) :
    unitEscape n ++ rest = '\\' :: 'u' :: (hexDigits 4 n ++ rest) := rfl

theorem readChar_units (rest : List Char) :
    readChar ('\\' :: 'u' :: rest) = some (readUnits rest) := rfl

theorem readUnits_of_single {n : Nat} (h : n < 0xd800 ∨ 0xdfff < n ∧ n < 0x10000)
    (rest : List Char) : readUnits (hexDigits 4 n ++ rest) = (Char.ofNat n, rest) := by
  unfold readUnits
  rw [readUnit_hexDigits (by omega)]
  exact if_neg (by omega)

theorem readUnits_of_pair {n : Nat} (h : n < 0x100000) (rest : List Char) :
    readUnits (hexDigits 4 (0xd800 + n / 0x400) ++ (unitEscape (0xdc00 + n % 0x400) ++ rest)) =
      (Char.ofNat (0x10000 + n), rest) := by
  unfold readUnits
  rw [readUnit_hexDigits (by omega), unitEscape_append]
  dsimp only
  rw [if_pos (by omega), List.drop_succ_cons, List.drop_succ_cons, List.drop_zero,
    readUnit_hexDigits (by omega)]
  dsimp only
  rw [show 0x10000 + (0xd800 + n / 0x400 - 0xd800) * 0x400 + (0xdc00 + n % 0x400 - 0xdc00) =
    0x10000 + n by omega]

theorem readChar_canonicalChar (c : Char) (rest : List Char) :
    readChar (canonicalChar c ++ rest) = some (c, rest) := by
  rcases canonicalChar_cases c with ⟨e, ht, hne, he⟩ | ⟨ht, hne, -⟩ | ⟨hlt, ht⟩ | ⟨hle, ht⟩ <;> rw [ht]
  · have hread : readChar ('\\' :: e :: rest) = readEscape (e :: rest) := rfl
    rw [← he]
    exact hread.trans (congrArg some (if_neg hne))
  · exact if_neg hne
  · have hvalid := toNat_valid c
    rw [unitEscape_append, readChar_units, readUnits_of_single (by omega), Char.ofNat_toNat]
  · have hvalid := toNat_valid c
    rw [List.append_assoc, unitEscape_append, readChar_units, readUnits_of_pair (by omega),
      Nat.add_sub_of_le hle, Char.ofNat_toNat]

theorem head_canonicalChar (c : Char) :
    ∃ first rest, canonicalChar c = first :: rest ∧ first ≠ doubleQuote := by
  rcases canonicalChar_cases c with ⟨e, ht, -, -⟩ | ⟨ht, -, hne⟩ | ⟨-, ht⟩ | ⟨-, ht⟩
  · exact ⟨'\\', [e], ht, by decide⟩
  · exact ⟨c, [], ht, hne⟩
  · exact ⟨'\\', _, ht, by decide⟩
  · exact ⟨'\\', _, ht, by decide⟩

theorem quotedChars_append_inj {cs cs' rest rest' : List Char}
    (h : cs.flatMap canonicalChar ++ doubleQuote :: rest =
      cs'.flatMap canonicalChar ++ doubleQuote :: rest') : cs = cs' ∧ rest = rest' := by
  induction cs generalizing cs' with
  | nil =>
    cases cs' with
    | nil => exact ⟨rfl, (List.cons.inj h).2⟩
    | cons c' cs' =>
      obtain ⟨first, t, hfirst, hne⟩ := head_canonicalChar c'
      rw [List.flatMap_cons, hfirst] at h
      exact absurd (List.cons.inj h).1.symm hne
  | cons c cs ih =>
    cases cs' with
    | nil =>
      obtain ⟨first, t, hfirst, hne⟩ := head_canonicalChar c
      rw [List.flatMap_cons, hfirst] at h
      exact absurd (List.cons.inj h).1 hne
    | cons c' cs' =>
      rw [List.flatMap_cons, List.flatMap_cons, List.append_assoc, List.append_assoc] at h
      have hread := congrArg readChar h
      rw [readChar_canonicalChar, readChar_canonicalChar] at hread
      obtain ⟨rfl, hrest⟩ := Prod.mk.inj (Option.some.inj hread)
      obtain ⟨rfl, hend⟩ := ih hrest
      exact ⟨rfl, hend⟩

/-- A text in quotes shows where it ends. -/
theorem canonicalString_append_inj {s s' : String} {rest rest' : List Char}
    (h : canonicalString s ++ rest = canonicalString s' ++ rest') : s = s' ∧ rest = rest' := by
  unfold canonicalString at h
  rw [List.cons_append, List.cons_append, List.append_assoc, List.append_assoc] at h
  obtain ⟨hchars, hrest⟩ := quotedChars_append_inj (List.cons.inj h).2
  exact ⟨String.toList_inj.mp hchars, hrest⟩

end Value

end Marginalia
