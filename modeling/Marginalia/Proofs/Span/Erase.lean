import Marginalia.Note
import Marginalia.Proofs.Span.Merge
import Marginalia.Proofs.Text.Keep

/-!
# Laws of erasure

Cutting merged spans one after the other, from the last to the first, leaves exactly the characters
that lie in none of them.  A mark is lost if and only if a merged span reaches into it; any other
mark moves back by the number of erased indices before it and keeps the text it stands on.
-/

namespace Marginalia.Span
set_option autoImplicit false

/-- The index lies in none of the spans. -/
def stays (removals : List Span) (i : Nat) : Bool := !covered removals i

/-- What is left of a text without the characters in the spans. -/
def keptText (removals : List Span) (text : List Char) : List Char :=
  Text.keepFrom (stays removals) 0 text

/-- How many indices below a bound lie in one of the spans. -/
def removedBelow (removals : List Span) (n : Nat) : Nat :=
  Text.countBelow (fun i => covered removals i) n

/-- The span reaches into the stretch of the given length that starts at `start`. -/
def Strikes (s : Span) (start length : Int) : Prop := s.start < start + length ∧ start < s.stop

theorem stays_eq_true_iff (removals : List Span) (i : Nat) :
    stays removals i = true ↔ ∀ s ∈ removals, ¬ (s.start ≤ i ∧ i < s.stop) := by
  simp only [stays, Bool.not_eq_true', ← Bool.not_eq_true, covered_iff]
  exact ⟨fun h s hs hi => h ⟨s, hs, hi⟩, fun h ⟨s, hs, hi⟩ => h s hs hi⟩

theorem stays_cons (s : Span) (rest : List Span) (i : Nat) :
    stays (s :: rest) i = (!s.contains i && stays rest i) := by
  simp [stays]

theorem stays_cons_of_inside {s : Span} {rest : List Span} {i : Nat}
    (h : s.start ≤ i ∧ i < s.stop) : stays (s :: rest) i = false := by
  have hin : s.contains i = true := (contains_iff s i).mpr h
  rw [stays_cons, hin]
  rfl

theorem stays_cons_of_outside {s : Span} {rest : List Span} {i : Nat}
    (h : ¬ (s.start ≤ i ∧ i < s.stop)) : stays (s :: rest) i = stays rest i := by
  have hout : s.contains i = false := Bool.eq_false_iff.mpr fun hin => h ((contains_iff s i).mp hin)
  rw [stays_cons, hout]
  rfl

section Text
variable {s : Span} {rest : List Span}

theorem stays_of_separated (hrest : ∀ t ∈ rest, t.stop < s.start) {i : Nat} (hi : s.start ≤ i) :
    stays rest i = true := by
  apply (stays_eq_true_iff rest i).mpr
  intro t ht hin
  have := hrest t ht
  omega

theorem keptText_cutText (hs : s.Proper) (hrest : ∀ t ∈ rest, t.stop < s.start)
    (text : List Char) : keptText rest (cutText text s) = keptText (s :: rest) text := by
  obtain ⟨hstart, hstop⟩ := hs
  obtain ⟨a, ha⟩ := Int.eq_ofNat_of_zero_le hstart
  obtain ⟨b, hb⟩ := Int.eq_ofNat_of_zero_le (Int.le_trans hstart hstop)
  have htext : text = text.take a ++ ((text.drop a).take (b - a) ++ text.drop b) := by
    have hdrop : (text.drop a).drop (b - a) = text.drop b := by
      rw [List.drop_drop]
      congr 1
      omega
    rw [← hdrop, List.take_append_drop, List.take_append_drop]
  have hcut : cutText text s = text.take a ++ text.drop b := by
    rw [cutText_of_nonneg hstart hstop, ha, hb]
    rfl
  have hbefore : Text.keepFrom (stays rest) 0 (text.take a) =
      Text.keepFrom (stays (s :: rest)) 0 (text.take a) := by
    apply Text.keepFrom_congr
    intro i _ hlt
    rw [List.length_take] at hlt
    exact (stays_cons_of_outside (by omega)).symm
  have hinside : Text.keepFrom (stays (s :: rest)) (0 + (text.take a).length)
      ((text.drop a).take (b - a)) = [] := by
    apply Text.keepFrom_eq_nil
    intro i hle hlt
    simp only [List.length_take, List.length_drop] at hle hlt
    exact stays_cons_of_inside (by omega)
  have hbehind : Text.keepFrom (stays (s :: rest))
      (0 + (text.take a).length + ((text.drop a).take (b - a)).length) (text.drop b) =
      text.drop b := by
    apply Text.keepFrom_eq_self
    intro i hle hlt
    simp only [List.length_take, List.length_drop] at hle hlt
    rw [stays_cons_of_outside (by omega)]
    exact stays_of_separated hrest (by omega)
  have hmoved : Text.keepFrom (stays rest) (0 + (text.take a).length) (text.drop b) =
      text.drop b := by
    apply Text.keepFrom_eq_self
    intro i hle hlt
    simp only [List.length_take, List.length_drop] at hle hlt
    exact stays_of_separated hrest (by omega)
  have hkept : keptText (s :: rest) text =
      Text.keepFrom (stays (s :: rest)) 0 (text.take a) ++ text.drop b := by
    rw [keptText, htext, Text.keepFrom_append, Text.keepFrom_append, hinside, hbehind,
      List.nil_append, ← htext]
  rw [hkept, hcut, keptText, Text.keepFrom_append, hbefore, hmoved]

theorem foldl_cutText {spans : List Span} (hproper : ∀ s ∈ spans, s.Proper)
    (apart : spans.Pairwise fun a b => b.stop < a.start) (text : List Char) :
    spans.foldl cutText text = keptText spans text := by
  induction spans generalizing text with
  | nil => exact (Text.keepFrom_eq_self fun _ _ _ => rfl).symm
  | cons s rest ih =>
    obtain ⟨hs, hrest⟩ := List.pairwise_cons.mp apart
    rw [List.foldl_cons, ih (fun t ht => hproper t (List.mem_cons_of_mem s ht)) hrest]
    exact keptText_cutText (hproper s List.mem_cons_self) hs text

end Text

theorem stays_mergeDescending (removals : List Span) :
    stays (mergeDescending removals) = stays removals := by
  funext i
  rw [stays, stays, covered_mergeDescending]

theorem eraseText_eq_keptText {removals : List Span} (hproper : ∀ s ∈ removals, s.Proper)
    (text : List Char) : eraseText text removals = keptText removals text := by
  unfold eraseText
  rw [foldl_cutText (proper_of_mem_mergeDescending hproper) (mergeDescending_separated hproper)]
  rw [keptText, stays_mergeDescending, keptText]

section Mark
variable {length start : Int}

theorem countBelow_or {p q : Nat → Bool} {n : Nat} (h : ∀ i < n, ¬ (p i = true ∧ q i = true)) :
    Text.countBelow (fun i => p i || q i) n = Text.countBelow p n + Text.countBelow q n := by
  induction n with
  | zero => rfl
  | succ n ih =>
    have hn := h n (Nat.lt_succ_self n)
    have hrest := ih fun i hi => h i (Nat.lt_succ_of_lt hi)
    simp only [Text.countBelow_succ, hrest]
    cases hp : p n <;> cases hq : q n <;> simp_all <;> omega

theorem countBelow_contains {s : Span} (hs : s.Proper) (n : Nat) :
    (Text.countBelow (fun i => s.contains i) n : Int) = min s.stop n - min s.start n := by
  obtain ⟨hstart, hstop⟩ := hs
  induction n with
  | zero =>
    simp only [Text.countBelow, List.range_zero, List.countP_nil]
    omega
  | succ n ih =>
    rw [Text.countBelow_succ]
    by_cases hin : s.contains n = true
    · rw [if_pos hin]
      rw [contains_iff] at hin
      omega
    · rw [if_neg hin]
      rw [contains_iff] at hin
      omega

theorem removedBelow_nil (n : Nat) : removedBelow [] n = 0 := by
  simp [removedBelow, Text.countBelow]

theorem removedBelow_cons {s : Span} {rest : List Span} (hs : s.Proper)
    (hrest : ∀ t ∈ rest, t.stop < s.start) (n : Nat) :
    (removedBelow (s :: rest) n : Int) = min s.stop n - min s.start n + removedBelow rest n := by
  have hdisjoint : ∀ i < n, ¬ (s.contains i = true ∧ covered rest i = true) := by
    intro i _ ⟨hi, hcov⟩
    obtain ⟨t, ht, htin⟩ := (covered_iff rest i).mp hcov
    have := hrest t ht
    rw [contains_iff] at hi
    omega
  have hsum := countBelow_or hdisjoint
  have hsize := countBelow_contains hs n
  simp only [removedBelow, covered_cons]
  omega

theorem foldl_moveStart_lost {spans : List Span} (hproper : ∀ s ∈ spans, s.Proper) :
    spans.foldl (moveStart length) lost = lost := by
  induction spans with
  | nil => rfl
  | cons s rest ih =>
    have hs := hproper s List.mem_cons_self
    have hstep : moveStart length lost s = lost := by
      unfold moveStart
      split
      · rfl
      · rw [if_pos]
        exact Int.lt_of_lt_of_le (by decide : lost < 0) (Int.le_trans hs.1 hs.2)
    rw [List.foldl_cons, hstep]
    exact ih fun t ht => hproper t (List.mem_cons_of_mem s ht)

theorem foldl_moveStart_behind {spans : List Span} (hproper : ∀ s ∈ spans, s.Proper)
    (apart : spans.Pairwise fun a b => b.stop < a.start) (hlength : 0 ≤ length) {n : Nat}
    (hn : ∀ s ∈ spans, s.stop ≤ n) (hbehind : ∀ s ∈ spans, s.stop ≤ start) :
    spans.foldl (moveStart length) start = start - removedBelow spans n := by
  -- The count's bound is apart from the mark, which moves while the bound does not.
  induction spans generalizing start with
  | nil => simp [removedBelow_nil]
  | cons s rest ih =>
    obtain ⟨hs, hrest⟩ := List.pairwise_cons.mp apart
    have hproper' : ∀ t ∈ rest, t.Proper := fun t ht => hproper t (List.mem_cons_of_mem s ht)
    have hps := hproper s List.mem_cons_self
    have hle := hbehind s List.mem_cons_self
    have hsn := hn s List.mem_cons_self
    have hcount := removedBelow_cons hps hs n
    obtain ⟨h0, h1⟩ := hps
    have hmove : moveStart length start s = start - (s.stop - s.start) := by
      unfold moveStart size
      split
      · omega
      · rw [if_neg (by omega)]
    have hnext : ∀ t ∈ rest, t.stop ≤ start - (s.stop - s.start) := by
      intro t ht
      have := hs t ht
      omega
    rw [List.foldl_cons, hmove, ih hproper' hrest (fun t ht => hn t (List.mem_cons_of_mem s ht)) hnext]
    omega

/-- A mark that no span strikes moves back by the erased indices before it; any other is lost. -/
theorem foldl_moveStart {spans : List Span} (hproper : ∀ s ∈ spans, s.Proper)
    (apart : spans.Pairwise fun a b => b.stop < a.start) (hstart : 0 ≤ start)
    (hlength : 0 ≤ length) :
    ((∃ s ∈ spans, s.Strikes start length) ∧ spans.foldl (moveStart length) start = lost) ∨
      ((∀ s ∈ spans, ¬ s.Strikes start length) ∧
        spans.foldl (moveStart length) start = start - removedBelow spans start.toNat) := by
  induction spans with
  | nil => exact Or.inr ⟨by simp, by simp [removedBelow_nil]⟩
  | cons s rest ih =>
    obtain ⟨hs, hrest⟩ := List.pairwise_cons.mp apart
    have hproper' : ∀ t ∈ rest, t.Proper := fun t ht => hproper t (List.mem_cons_of_mem s ht)
    have hps := hproper s List.mem_cons_self
    have hcount := removedBelow_cons hps hs start.toNat
    obtain ⟨h0, h1⟩ := hps
    rw [List.foldl_cons]
    unfold moveStart
    split
    · next hbefore =>
      have hmiss : ¬ s.Strikes start length := fun h => by unfold Strikes at h; omega
      rcases ih hproper' hrest with ⟨⟨t, ht, hstruck⟩, hlost⟩ | ⟨hfree, hmoved⟩
      · exact Or.inl ⟨⟨t, List.mem_cons_of_mem s ht, hstruck⟩, hlost⟩
      · refine Or.inr ⟨?_, ?_⟩
        · intro t ht
          rcases List.mem_cons.mp ht with rfl | ht
          · exact hmiss
          · exact hfree t ht
        · have hsame : removedBelow (s :: rest) start.toNat = removedBelow rest start.toNat := by
            omega
          rw [hsame]
          exact hmoved
    · next hreach =>
      split
      · next hinside =>
        refine Or.inl ⟨⟨s, List.mem_cons_self, ?_⟩, foldl_moveStart_lost hproper'⟩
        unfold Strikes
        omega
      · next hbehind =>
        have hbelow : ∀ t ∈ rest, t.stop ≤ start - s.size := by
          intro t ht
          have := hs t ht
          unfold size
          omega
        have hn : ∀ t ∈ rest, t.stop ≤ start.toNat := by
          intro t ht
          have := hs t ht
          omega
        refine Or.inr ⟨?_, ?_⟩
        · intro t ht hstruck
          unfold Strikes at hstruck
          rcases List.mem_cons.mp ht with rfl | ht
          · omega
          · have := hs t ht
            omega
        · have hmoved := foldl_moveStart_behind hproper' hrest hlength hn hbelow
          unfold moveStart at hmoved
          rw [hmoved]
          unfold size
          omega

end Mark

theorem removedBelow_mergeDescending (removals : List Span) (n : Nat) :
    removedBelow (mergeDescending removals) n = removedBelow removals n := by
  simp only [removedBelow, covered_mergeDescending]

theorem countBelow_stays (removals : List Span) (n : Nat) :
    Text.countBelow (stays removals) n + removedBelow removals n = n := by
  induction n with
  | zero => rfl
  | succ n ih =>
    simp only [removedBelow, Text.countBelow_succ, stays] at ih ⊢
    by_cases hn : covered removals n = true
    · simp only [hn, Bool.not_true, if_true, Bool.false_eq_true, if_false]
      omega
    · simp only [hn, Bool.not_false, if_true, Bool.false_eq_true, if_false]
      omega

theorem stays_of_not_strikes {removals : List Span} {length start : Int}
    (hfree : ∀ s ∈ merge removals, ¬ s.Strikes start length) {i : Nat} (hi : start ≤ i)
    (hlt : i < start + length) : stays removals i = true := by
  have hout : covered (merge removals) i = false := by
    apply Bool.eq_false_iff.mpr
    intro hcov
    obtain ⟨s, hs, hin⟩ := (covered_iff _ _).mp hcov
    exact hfree s hs ⟨by omega, by omega⟩
  rw [stays, ← covered_merge, hout]
  rfl

section Erase
variable {removals : List Span} (hproper : ∀ s ∈ removals, s.Proper)
include hproper

theorem eraseStart_cases {length start : Int} (hstart : 0 ≤ start) (hlength : 0 ≤ length) :
    ((∃ s ∈ merge removals, s.Strikes start length) ∧ eraseStart length start removals = lost) ∨
      ((∀ s ∈ merge removals, ¬ s.Strikes start length) ∧
        eraseStart length start removals = start - removedBelow removals start.toNat) := by
  have hcases := foldl_moveStart (proper_of_mem_mergeDescending hproper)
    (mergeDescending_separated hproper) hstart hlength
  simp only [(mergeDescending_perm removals).mem_iff, removedBelow_mergeDescending] at hcases
  exact hcases

theorem eraseStart_nonneg_iff {length start : Int} (hstart : 0 ≤ start) (hlength : 0 ≤ length) :
    0 ≤ eraseStart length start removals ↔ ∀ s ∈ merge removals, ¬ s.Strikes start length := by
  have hcount := countBelow_stays removals start.toNat
  rcases eraseStart_cases hproper hstart hlength with ⟨⟨s, hs, hstruck⟩, hlost⟩ | ⟨hfree, hmoved⟩
  · rw [hlost]
    exact ⟨fun h => absurd h (by decide), fun h => absurd hstruck (h s hs)⟩
  · exact ⟨fun _ => hfree, fun _ => by omega⟩

theorem eraseStart_eq_of_nonneg {length start : Int} (hstart : 0 ≤ start) (hlength : 0 ≤ length)
    (hkept : 0 ≤ eraseStart length start removals) :
    eraseStart length start removals = start - removedBelow removals start.toNat := by
  rcases eraseStart_cases hproper hstart hlength with ⟨_, hlost⟩ | ⟨_, hmoved⟩
  · rw [hlost] at hkept
    exact absurd hkept (by decide)
  · exact hmoved

theorem stays_of_eraseStart {length start : Int} (hstart : 0 ≤ start) (hlength : 0 ≤ length)
    (hkept : 0 ≤ eraseStart length start removals) :
    (∀ i, start.toNat ≤ i → i < start.toNat + length.toNat → stays removals i = true) ∧
      (eraseStart length start removals).toNat = Text.countBelow (stays removals) start.toNat := by
  have hfree := (eraseStart_nonneg_iff hproper hstart hlength).mp hkept
  have hmoved := eraseStart_eq_of_nonneg hproper hstart hlength hkept
  have hbefore := countBelow_stays removals start.toNat
  exact ⟨fun i hi hlt => stays_of_not_strikes hfree (by omega) (by omega), by omega⟩

/-- The text under a mark that is not lost moves with it. -/
theorem between_eraseText {text : List Char} {length start : Int} (hstart : 0 ≤ start)
    (hlength : 0 ≤ length) (hkept : 0 ≤ eraseStart length start removals)
    (hinside : start + length ≤ text.length) :
    Text.between (eraseText text removals) (eraseStart length start removals)
        (eraseStart length start removals + length) =
      Text.between text start (start + length) := by
  obtain ⟨hstays, hnew⟩ := stays_of_eraseStart hproper hstart hlength hkept
  have hlen : start.toNat + length.toNat ≤ text.length := by omega
  have hslice := Text.slice_keepFrom_of_all hlen hstays
  rw [Text.between_of_nonneg hkept (by omega), Text.between_of_nonneg hstart (by omega),
    eraseText_eq_keptText hproper, Int.toNat_add hkept hlength, Int.toNat_add hstart hlength, hnew]
  exact hslice

theorem length_eraseText (text : List Char) :
    (eraseText text removals).length = Text.countBelow (stays removals) text.length := by
  have htake := Text.length_keepFrom_take (p := stays removals) (Nat.le_refl text.length)
  rw [List.take_length] at htake
  rw [eraseText_eq_keptText hproper]
  exact htake

theorem eraseStart_add_le_iff {text : List Char} {length start : Int} (hstart : 0 ≤ start)
    (hlength : 0 ≤ length) (hkept : 0 ≤ eraseStart length start removals)
    (hinside : start ≤ text.length) :
    eraseStart length start removals + length ≤ (eraseText text removals).length ↔
      start + length ≤ text.length := by
  obtain ⟨hstays, hnew⟩ := stays_of_eraseStart hproper hstart hlength hkept
  rw [length_eraseText hproper]
  constructor
  · intro hle
    apply Int.le_of_not_gt
    intro hout
    -- All of the text behind the start stays, and the mark is longer.
    have hrest := Text.countBelow_add (p := stays removals) (a := start.toNat)
      (n := text.length - start.toNat) fun i hi hlt => hstays i hi (by omega)
    have hend : start.toNat + (text.length - start.toNat) = text.length := by omega
    rw [hend] at hrest
    omega
  · intro hle
    have hcount := Text.countBelow_add hstays
    have hmono := Text.countBelow_mono (p := stays removals)
      (show start.toNat + length.toNat ≤ text.length by omega)
    omega

end Erase

/-- Erasure in full.  The text keeps exactly the characters in no span.  A note keeps a start if
and only if no merged span strikes it; it then moves back by the number of erased indices before
it, and the text under it is the text it stood on. -/
theorem erasure_exact (text : List Char) (removals : List Span)
    (hproper : ∀ s ∈ removals, 0 ≤ s.start ∧ s.start ≤ s.stop) :
    eraseText text removals = keptText removals text ∧
      ∀ n : Note, 0 ≤ n.start → 0 ≤ n.length →
        (0 ≤ (n.erase removals).start ↔ ∀ s ∈ merge removals, ¬ s.Strikes n.start n.length) ∧
        (0 ≤ (n.erase removals).start →
          (n.erase removals).start = n.start - removedBelow removals n.start.toNat ∧
          (n.start + n.length ≤ text.length →
            Text.between (eraseText text removals) (n.erase removals).start
                ((n.erase removals).start + n.length) =
              Text.between text n.start (n.start + n.length))) := by
  refine ⟨eraseText_eq_keptText hproper text, ?_⟩
  intro n hstart hlength
  refine ⟨eraseStart_nonneg_iff hproper hstart hlength, ?_⟩
  intro hkept
  exact ⟨eraseStart_eq_of_nonneg hproper hstart hlength hkept,
    between_eraseText hproper hstart hlength hkept⟩

/-- Spans that overlap, touch and run past the end, around notes before, under and behind them. -/
theorem erasure_exact_example :
    let text := "abcdefgh".toList
    let removals : List Span := [⟨6, 9⟩, ⟨1, 3⟩, ⟨3, 3⟩, ⟨2, 4⟩]
    let n : Note := { start := 4, length := 2, body := .tag "t" none }
    (∀ s ∈ removals, 0 ≤ s.start ∧ s.start ≤ s.stop) ∧
      0 ≤ (n.erase removals).start ∧
      Text.between (eraseText text removals) (n.erase removals).start
          ((n.erase removals).start + n.length) = "ef".toList := by
  intro text removals n
  have hproper : ∀ s ∈ removals, 0 ≤ s.start ∧ s.start ≤ s.stop := by decide
  have hkept : 0 ≤ (n.erase removals).start := by decide
  have hnote := (erasure_exact text removals hproper).2 n (by decide) (by decide)
  refine ⟨hproper, hkept, ?_⟩
  rw [(hnote.2 hkept).2 (by decide)]
  decide

end Marginalia.Span
