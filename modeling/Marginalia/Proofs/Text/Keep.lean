import Marginalia.Text.Slice

/-!
# Keeping characters by their index

The part of a text whose indices satisfy a condition, in the order of the text.  A stretch of the
text turns into a stretch of what is kept, and its new bounds are counts of kept indices.
-/

namespace Marginalia.Text
set_option autoImplicit false

/-- The characters whose indices satisfy the condition, of a text whose first index is `first`. -/
def keepFrom (p : Nat → Bool) (first : Nat) (cs : List Char) : List Char :=
  ((cs.zipIdx first).filter fun c => p c.2).map Prod.fst

/-- How many indices below a bound satisfy the condition. -/
def countBelow (p : Nat → Bool) (n : Nat) : Nat := (List.range n).countP p

variable {p q : Nat → Bool}

@[simp] theorem keepFrom_nil (first : Nat) : keepFrom p first [] = [] := rfl

theorem keepFrom_cons (first : Nat) (c : Char) (cs : List Char) :
    keepFrom p first (c :: cs) =
      if p first then c :: keepFrom p (first + 1) cs else keepFrom p (first + 1) cs := by
  cases h : p first <;> simp [keepFrom, h]

theorem keepFrom_append (first : Nat) (xs ys : List Char) :
    keepFrom p first (xs ++ ys) = keepFrom p first xs ++ keepFrom p (first + xs.length) ys := by
  simp [keepFrom, List.zipIdx_append]

theorem keepFrom_congr {first : Nat} {cs : List Char}
    (h : ∀ i, first ≤ i → i < first + cs.length → p i = q i) :
    keepFrom p first cs = keepFrom q first cs := by
  induction cs generalizing first with
  | nil => rfl
  | cons c cs ih =>
    simp only [List.length_cons] at h
    rw [keepFrom_cons, keepFrom_cons, h first (by omega) (by omega),
      ih fun i hi hlt => h i (by omega) (by omega)]

theorem keepFrom_eq_self {first : Nat} {cs : List Char}
    (h : ∀ i, first ≤ i → i < first + cs.length → p i = true) : keepFrom p first cs = cs := by
  induction cs generalizing first with
  | nil => rfl
  | cons c cs ih =>
    simp only [List.length_cons] at h
    rw [keepFrom_cons, if_pos (h first (by omega) (by omega)),
      ih fun i hi hlt => h i (by omega) (by omega)]

theorem keepFrom_eq_nil {first : Nat} {cs : List Char}
    (h : ∀ i, first ≤ i → i < first + cs.length → p i = false) : keepFrom p first cs = [] := by
  induction cs generalizing first with
  | nil => rfl
  | cons c cs ih =>
    simp only [List.length_cons] at h
    have hfirst : p first = false := h first (by omega) (by omega)
    rw [keepFrom_cons, hfirst, if_neg Bool.false_ne_true,
      ih fun i hi hlt => h i (by omega) (by omega)]

theorem length_keepFrom (first : Nat) (cs : List Char) :
    (keepFrom p first cs).length = (List.range' first cs.length).countP p := by
  induction cs generalizing first with
  | nil => rfl
  | cons c cs ih =>
    rw [keepFrom_cons, List.length_cons, List.range'_succ, List.countP_cons, ← ih]
    cases p first <;> simp

theorem length_keepFrom_take {cs : List Char} {n : Nat} (h : n ≤ cs.length) :
    (keepFrom p 0 (cs.take n)).length = countBelow p n := by
  rw [length_keepFrom, List.length_take, Nat.min_eq_left h, ← List.range_eq_range']
  rfl

theorem countBelow_succ (n : Nat) :
    countBelow p (n + 1) = countBelow p n + if p n then 1 else 0 := by
  simp [countBelow, List.range_succ, List.countP_append, List.countP_cons]

theorem keepFrom_take_append_drop (first : Nat) {cs : List Char} {n : Nat} (h : n ≤ cs.length) :
    keepFrom p first cs = keepFrom p first (cs.take n) ++ keepFrom p (first + n) (cs.drop n) := by
  have happ := keepFrom_append (p := p) first (cs.take n) (cs.drop n)
  rwa [List.take_append_drop, List.length_take, Nat.min_eq_left h] at happ

theorem countBelow_mono {a b : Nat} (h : a ≤ b) : countBelow p a ≤ countBelow p b :=
  List.Sublist.countP_le (List.range_sublist.mpr h)

theorem slice_keepFrom {cs : List Char} {a b : Nat} (hb : b ≤ cs.length) :
    ((keepFrom p 0 cs).take (countBelow p b)).drop (countBelow p a) =
      keepFrom p a ((cs.take b).drop a) := by
  by_cases hab : a ≤ b
  · have hlen : a ≤ (cs.take b).length := by
      rw [List.length_take]
      omega
    have hinner : keepFrom p 0 (cs.take b) =
        keepFrom p 0 (cs.take a) ++ keepFrom p a ((cs.take b).drop a) := by
      have hsplit := keepFrom_take_append_drop (p := p) 0 hlen
      rwa [List.take_take, Nat.min_eq_left hab, Nat.zero_add] at hsplit
    rw [keepFrom_take_append_drop 0 hb, ← length_keepFrom_take hb, List.take_left, hinner,
      ← length_keepFrom_take (p := p) (Nat.le_trans hab hb), List.drop_left]
  · -- The stretch is empty, and so is what stands between the counts.
    have hcount : countBelow p b ≤ countBelow p a := countBelow_mono (by omega)
    have hkept : ((keepFrom p 0 cs).take (countBelow p b)).length ≤ countBelow p a :=
      Nat.le_trans (List.length_take_le _ _) hcount
    have hgiven : (cs.take b).length ≤ a := Nat.le_trans (List.length_take_le _ _) (by omega)
    rw [List.drop_eq_nil_of_le hkept, List.drop_eq_nil_of_le hgiven, keepFrom_nil]

theorem drop_keepFrom (cs : List Char) (n : Nat) :
    (keepFrom p 0 cs).drop (countBelow p n) = keepFrom p n (cs.drop n) := by
  by_cases h : n ≤ cs.length
  · rw [keepFrom_take_append_drop 0 h, ← length_keepFrom_take h, List.drop_left, Nat.zero_add]
  · have hlength := length_keepFrom_take (p := p) (Nat.le_refl cs.length)
    have hmono := countBelow_mono (p := p) (show cs.length ≤ n by omega)
    rw [List.take_length] at hlength
    rw [List.drop_eq_nil_of_le (by omega), List.drop_eq_nil_of_le (by omega), keepFrom_nil]

theorem countBelow_add {a n : Nat} (h : ∀ i, a ≤ i → i < a + n → p i = true) :
    countBelow p (a + n) = countBelow p a + n := by
  induction n with
  | zero => rfl
  | succ n ih =>
    rw [← Nat.add_assoc, countBelow_succ, ih fun i hi hlt => h i hi (by omega),
      if_pos (h (a + n) (by omega) (by omega))]
    omega

theorem countBelow_add_of_none {a n : Nat} (h : ∀ i, a ≤ i → i < a + n → p i = false) :
    countBelow p (a + n) = countBelow p a := by
  induction n with
  | zero => rfl
  | succ n ih =>
    rw [← Nat.add_assoc, countBelow_succ, ih fun i hi hlt => h i hi (by omega),
      h (a + n) (by omega) (by omega)]
    rfl

theorem slice_keepFrom_of_all {cs : List Char} {a n : Nat} (hlen : a + n ≤ cs.length)
    (h : ∀ i, a ≤ i → i < a + n → p i = true) :
    ((keepFrom p 0 cs).take (countBelow p a + n)).drop (countBelow p a) =
      (cs.take (a + n)).drop a := by
  rw [← countBelow_add h, slice_keepFrom hlen]
  apply keepFrom_eq_self
  intro i hi hlt
  rw [List.length_drop, List.length_take] at hlt
  exact h i hi (by omega)

end Marginalia.Text
