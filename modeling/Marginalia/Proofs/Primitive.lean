import Marginalia.Proofs.Coercion
import Marginalia.Proofs.Number.Range

/-!
# Values of a primitive kind

Whatever is given for an option of a primitive kind becomes a value of the kind, or is refused with
the name of the option and the value itself; a value that is of the kind already is kept.  One value
escapes the rule.  An integer is asked whether it is finite, and one beyond the range of binary64
cannot answer.  It is neither kept nor refused, although it would be read without question if it were
given as a text.
-/

namespace Marginalia
set_option autoImplicit false

namespace Coercion
variable {name kind : String} {v : Value}

/-- The outcome is a value of the kind, or a refusal with the name and the value. -/
def Settles (name : String) (v : Value) (kind : String) (x : Except Failure Value) : Prop :=
  (∃ (k : Kind) (y : Value), k.name = kind ∧ k.Holds y ∧ x = .ok y) ∨
    ∃ objection, x = .error (.invalidValue name v objection)

/-- The value is an integer that is given for a number, and the number nearest to it is not finite. -/
def Oversized (kind : String) (v : Value) : Prop :=
  kind = Kind.number.name ∧ ∃ n : Int, v = .int n ∧
    (Binary64.nearest (decide (n < 0)) n.natAbs 1).isFinite = false

theorem oversized_iff : Oversized kind v ↔
    kind = Kind.number.name ∧ ∃ n : Int, v = .int n ∧ Binary64.integerLimit ≤ n.natAbs := by
  have hrange : ∀ n : Int, (Binary64.nearest (decide (n < 0)) n.natAbs 1).isFinite = false ↔
      Binary64.integerLimit ≤ n.natAbs := by
    intro n
    rw [← Bool.not_eq_true, Binary64.isFinite_nearest_iff, Nat.not_lt]
  simp only [Oversized, hrange]

theorem settles_primitive (h : ¬ Oversized kind v) : Settles name v kind (primitive name v kind) := by
  cases hx : primitive name v kind with
  | ok y =>
    obtain ⟨k, hname, hholds⟩ := holds_of_primitive hx
    exact Or.inl ⟨k, y, hname, hholds, rfl⟩
  | error e =>
    rcases error_of_primitive hx with ⟨objection, rfl⟩ | hlarge
    · exact Or.inr ⟨objection, rfl⟩
    · exact absurd (oversized_iff.mpr hlarge) h

theorem primitive_number (name : String) (v : Value) :
    primitive name v Kind.number.name = (number v).bind (orRefuse name v Kind.number.name) :=
  rfl

theorem primitive_of_oversized (h : Oversized kind v) :
    primitive name v kind = .error .integerTooLarge := by
  obtain ⟨rfl, n, rfl, hlimit⟩ := oversized_iff.mp h
  have hnumber : number (.int n) = .error .integerTooLarge := by
    simp only [number, if_neg (Nat.not_lt.mpr hlimit)]
  rw [primitive_number, hnumber]
  rfl

theorem not_settles_integerTooLarge : ¬ Settles name v kind (.error .integerTooLarge) := by
  rintro (⟨k, y, -, -, hy⟩ | ⟨objection, hrefused⟩)
  · cases hy
  · cases hrefused

theorem primitive_of_holds {k : Kind} (hholds : k.Holds v) (h : ¬ Oversized k.name v) :
    primitive name v k.name = .ok v := by
  cases k with
  | boolean =>
    cases v with
    | bool b => rfl
    | _ => exact hholds.elim
  | number =>
    cases v with
    | int n =>
      have hlimit : n.natAbs < Binary64.integerLimit := by
        apply Nat.lt_of_not_le
        exact fun hle => h (oversized_iff.mpr ⟨rfl, n, rfl, hle⟩)
      have hnumber : number (.int n) = .ok (some (.int n)) := by
        simp only [number, if_pos hlimit]
      rw [primitive_number, hnumber]
      rfl
    | float x =>
      have hfinite : x.isFinite = true := hholds
      have hnumber : number (.float x) = .ok (some (.float x)) := by
        simp only [number, hfinite, if_true]
      rw [primitive_number, hnumber]
      rfl
    | _ => exact hholds.elim
  | string =>
    cases v with
    | str s => rfl
    | _ => exact hholds.elim
  | list => cases v <;> exact hholds.elim

/-- What becomes of any value for any kind.  The value is made into one of the kind or refused with the
name of the option, if and only if it is not an integer beyond the range of binary64 that is given for
a number; that one fails in its own way.  A value that is of the kind is kept. -/
theorem primitive_settles_iff (name : String) (v : Value) (kind : String) :
    (Settles name v kind (primitive name v kind) ↔ ¬ Oversized kind v) ∧
      (Oversized kind v → primitive name v kind = .error .integerTooLarge) ∧
      ∀ k : Kind, k.name = kind → k.Holds v → ¬ Oversized kind v → primitive name v kind = .ok v := by
  refine ⟨⟨?_, settles_primitive⟩, primitive_of_oversized, ?_⟩
  · intro hsettles hlarge
    rw [primitive_of_oversized hlarge] at hsettles
    exact not_settles_integerTooLarge hsettles
  · rintro k rfl hholds h
    exact primitive_of_holds hholds h

theorem primitive_of_readInt? {text : List Char} {n : Int}
    (hplain : (Text.strip text).contains '_' = false)
    (hread : Number.readInt? (Text.strip text) = some n) :
    primitive name (.str (String.ofList text)) Kind.number.name = .ok (.int n) := by
  have hnumber : number (.str (String.ofList text)) = .ok (some (.int n)) := by
    simp only [number, number?, Value.display, String.toList_ofList, readNumber?, hplain, hread,
      Bool.false_eq_true, if_false]
  rw [primitive_number, hnumber]
  rfl

/-- Ten to the power 309 is neither kept nor refused.  Its digits as a text are a number. -/
theorem primitive_settles_counterexample :
    let n : Int := Binary64.tenPow 309
    let digits := '1' :: List.replicate 309 '0'
    primitive "depth" (.int n) "number" = .error .integerTooLarge ∧
      ¬ Settles "depth" (.int n) "number" (primitive "depth" (.int n) "number") ∧
      primitive "depth" (.str (String.ofList digits)) "number" = .ok (.int n) := by
  intro n digits
  have hlarge : Oversized "number" (.int n) :=
    oversized_iff.mpr ⟨rfl, n, rfl, by decide +kernel⟩
  have hfails : primitive "depth" (.int n) "number" = .error .integerTooLarge :=
    primitive_of_oversized hlarge
  refine ⟨hfails, ?_, primitive_of_readInt? (by decide +kernel) (by decide +kernel)⟩
  rw [hfails]
  exact not_settles_integerTooLarge

end Coercion

end Marginalia
