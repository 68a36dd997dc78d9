import Mathlib.Combinatorics.Enumerative.DyckWord
import Marginalia.Proofs.Removal

/-!
# Cuts that nest

Lines that begin a cut and lines that end one are paired by their rank, the first with the first.
Brackets would be matched from the inside, which gives other pairs.  It makes no difference to what
is accepted or hidden: every line that begins a cut stands before its partner exactly if the lines
are balanced as brackets, and the spans between partners together hide what stands in brackets.
-/

namespace Marginalia
set_option autoImplicit false

theorem List.lt_countP_iff {α : Type} {p : α → Bool} {xs : List α}
    (h : xs.Pairwise fun a b => p b = true → p a = true) {k : Nat} :
    k < xs.countP p ↔ ∃ x, xs[k]? = some x ∧ p x = true := by
  induction xs generalizing k with
  | nil => simp
  | cons x rest ih =>
    obtain ⟨hx, hrest⟩ := List.pairwise_cons.mp h
    by_cases hp : p x = true
    · cases k with
      | zero => simp [hp]
      | succ k => simpa [List.countP_cons_of_pos hp] using ih hrest
    · have hnone : ∀ y ∈ x :: rest, ¬ p y = true := by
        intro y hy
        rcases List.mem_cons.mp hy with rfl | hy
        · exact hp
        · exact fun hpy => hp (hx y hy hpy)
      rw [List.countP_eq_zero.mpr hnone]
      constructor
      · exact fun hk => absurd hk (Nat.not_lt_zero k)
      · rintro ⟨y, hy, hpy⟩
        exact absurd hpy (hnone y (List.mem_of_getElem? hy))

theorem List.mem_zip_iff_getElem? {α β : Type} {xs : List α} {ys : List β} {z : α × β} :
    z ∈ xs.zip ys ↔ ∃ k : Nat, xs[k]? = some z.1 ∧ ys[k]? = some z.2 := by
  simp only [List.mem_iff_getElem?, List.getElem?_zip_eq_some]

namespace Cut
variable {code : List Char}

/-- The bracket that a line stands for: a line that begins a cut opens, one that ends a cut
closes. -/
def bracket? (line : List Char) : Option DyckStep :=
  if isMark .begins line then some .U
  else if isMark .ends line then some .D
  else none

/-- The brackets of a sample from top to bottom. -/
def brackets (code : List Char) : List DyckStep :=
  (Line.all code).filterMap fun l => bracket? l.text

/-- There are as many opening as closing brackets, and nowhere have more been closed than opened. -/
def Balanced (code : List Char) : Prop := ∃ word : DyckWord, word.toList = brackets code

/-- Every line that begins a cut has a partner of the same rank, which does not stand before it. -/
structure Ordered (code : List Char) : Prop where
  length : (lines .begins code).length = (lines .ends code).length
  partners : ∀ (k : Nat) (b e : Line), (lines .begins code)[k]? = some b →
    (lines .ends code)[k]? = some e → b.start ≤ e.start

/-! ## Brackets -/

def marked (mark : Mark) (ls : List Line) : List Line := ls.filter fun l => isMark mark l.text

theorem marked_append (mark : Mark) (q r : List Line) :
    marked mark (q ++ r) = marked mark q ++ marked mark r :=
  List.filter_append q r

theorem mem_of_mem_marked {mark : Mark} {ls : List Line} {l : Line} (h : l ∈ marked mark ls) :
    l ∈ ls :=
  List.mem_of_mem_filter h

theorem not_ends_of_begins {line : List Char} (h : isMark .begins line = true) :
    isMark .ends line = false := by
  unfold isMark at h ⊢
  split at h
  · next text htext =>
    have hbegins : text = "---cut-start---".toList := by simpa [Mark.words] using h
    subst hbegins
    decide
  · cases h

theorem count_U (ls : List Line) :
    (ls.filterMap fun l => bracket? l.text).count .U = (marked .begins ls).length := by
  rw [List.count_filterMap, List.countP_eq_length_filter, marked]
  congr 2
  funext l
  unfold bracket?
  cases isMark .begins l.text <;> cases isMark .ends l.text <;> rfl

theorem count_D (ls : List Line) :
    (ls.filterMap fun l => bracket? l.text).count .D = (marked .ends ls).length := by
  rw [List.count_filterMap, List.countP_eq_length_filter, marked]
  congr 2
  funext l
  unfold bracket?
  cases hbegins : isMark .begins l.text with
  | true =>
    rw [not_ends_of_begins hbegins]
    rfl
  | false => cases isMark .ends l.text <;> rfl

theorem count_D_le_count_U_iff :
    (∀ i, ((brackets code).take i).count .D ≤ ((brackets code).take i).count .U) ↔
      ∀ q, q <+: Line.all code → (marked .ends q).length ≤ (marked .begins q).length := by
  constructor
  · intro h q hq
    rw [← count_D, ← count_U, List.prefix_iff_eq_take.mp (hq.filterMap fun l => bracket? l.text)]
    exact h _
  · intro h i
    obtain ⟨q, hq, htake⟩ := List.prefix_filterMap_iff.mp (List.take_prefix i (brackets code))
    rw [htake, count_D, count_U]
    exact h q hq

theorem Ordered.length_ends_le (h : Ordered code) {q : List Line} (hq : q <+: Line.all code) :
    (marked .ends q).length ≤ (marked .begins q).length := by
  obtain ⟨r, hr⟩ := hq
  have hsplit : ∀ mark, lines mark code = marked mark q ++ marked mark r := by
    intro mark
    rw [← marked_append, hr]
    rfl
  by_contra hgt
  -- Otherwise the first line behind the part that begins a cut has its partner in the part.
  have hk := Nat.lt_of_not_le hgt
  have hrest : 0 < (marked .begins r).length := by
    have hlength := h.length
    rw [hsplit, hsplit, List.length_append, List.length_append] at hlength
    omega
  have hb : (lines .begins code)[(marked .begins q).length]? = some (marked .begins r)[0] := by
    rw [hsplit, List.getElem?_append_right (Nat.le_refl _), Nat.sub_self]
    exact List.getElem?_eq_getElem hrest
  have he : (lines .ends code)[(marked .begins q).length]? =
      some (marked .ends q)[(marked .begins q).length] := by
    rw [hsplit, List.getElem?_append_left hk]
    exact List.getElem?_eq_getElem hk
  have hle := h.partners _ _ _ hb he
  have hapart := Line.all_pairwise code
  rw [← hr, List.pairwise_append] at hapart
  have hlt := hapart.2.2 _ (mem_of_mem_marked (List.getElem_mem hk)) _
    (mem_of_mem_marked (List.getElem_mem hrest))
  omega

theorem exists_append_of_getElem?_lines {mark : Mark} {k : Nat} {l : Line}
    (h : (lines mark code)[k]? = some l) :
    ∃ q r, Line.all code = q ++ l :: r ∧ (marked mark q).length = k := by
  obtain ⟨hk, rfl⟩ := List.getElem?_eq_some_iff.mp h
  have hcut : marked mark (Line.all code) =
      (lines mark code).take k ++ (lines mark code)[k] :: (lines mark code).drop (k + 1) := by
    rw [← List.drop_eq_getElem_cons hk, List.take_append_drop]
    rfl
  obtain ⟨q, rest, hall, hq, hrest⟩ := List.filter_eq_append_iff.mp hcut
  obtain ⟨m, r, rfl, hm, -, -⟩ := List.filter_eq_cons_iff.mp hrest
  refine ⟨q ++ m, r, by rw [hall, List.append_assoc], ?_⟩
  have hnone : marked mark m = [] := List.filter_eq_nil_iff.mpr hm
  rw [marked_append, hnone, List.append_nil, marked, hq, List.length_take]
  omega

theorem le_of_length_ends_le
    (h : ∀ q, q <+: Line.all code → (marked .ends q).length ≤ (marked .begins q).length)
    {k : Nat} {b e : Line} (hb : (lines .begins code)[k]? = some b)
    (he : (lines .ends code)[k]? = some e) : b.start ≤ e.start := by
  obtain ⟨q, r, hall, hk⟩ := exists_append_of_getElem?_lines hb
  -- What stands before the line opens `k` brackets and closes no more, so the partner is not there.
  have hle : (marked .ends q).length ≤ k := hk ▸ h q ⟨b :: r, hall.symm⟩
  have hrest : e ∈ b :: r := by
    have hends : lines .ends code = marked .ends q ++ marked .ends (b :: r) := by
      rw [← marked_append, ← hall]
      rfl
    rw [hends, List.getElem?_append_right hle] at he
    exact mem_of_mem_marked (List.mem_of_getElem? he)
  have hapart := Line.all_pairwise code
  rw [hall] at hapart
  obtain ⟨-, hbehind, -⟩ := List.pairwise_append.mp hapart
  rcases List.mem_cons.mp hrest with rfl | hmem
  · exact Nat.le_refl _
  · have := (List.pairwise_cons.mp hbehind).1 e hmem
    omega

theorem balanced_iff_ordered : Balanced code ↔ Ordered code := by
  constructor
  · rintro ⟨word, hword⟩
    have hcount := word.count_U_eq_count_D
    have hprefix := word.count_D_le_count_U
    rw [hword] at hcount hprefix
    rw [brackets, count_U, count_D] at hcount
    exact ⟨hcount, fun k b e => le_of_length_ends_le (count_D_le_count_U_iff.mp hprefix)⟩
  · intro h
    refine ⟨⟨brackets code, ?_, count_D_le_count_U_iff.mpr fun q => h.length_ends_le⟩, rfl⟩
    rw [brackets, count_U, count_D]
    exact h.length

/-! ## Pairs -/

/-- Pairing fails only where a line that ends a cut stands before its partner. -/
theorem pairs_ok_iff {begins ends : List Line} :
    (∃ spans, pairs begins ends = .ok spans) ↔ ∀ x ∈ begins.zip ends, x.1.start ≤ x.2.start := by
  constructor
  · rintro ⟨spans, h⟩
    exact (pairs_ok h).2
  · intro h
    fun_induction pairs begins ends with
    | case1 first begins last ends hlt =>
      have hle : first.start ≤ last.start := h (first, last) List.mem_cons_self
      omega
    | case2 first begins last ends hlt ih =>
      obtain ⟨spans, hspans⟩ := ih fun x hx => h x (List.mem_cons_of_mem _ hx)
      exact ⟨_, by rw [hspans]; rfl⟩
    | case3 => exact ⟨[], rfl⟩

/-- The cuts of a sample are found exactly if every line that begins one has a partner. -/
theorem findAll_ok_iff_ordered : (∃ cuts, findAll code = .ok cuts) ↔ Ordered code := by
  have hzip : (∀ x ∈ (lines .begins code).zip (lines .ends code), x.1.start ≤ x.2.start) ↔
      ∀ (k : Nat) (b e : Line), (lines .begins code)[k]? = some b →
        (lines .ends code)[k]? = some e → b.start ≤ e.start := by
    constructor
    · intro h k b e hb he
      exact h (b, e) (List.mem_zip_iff_getElem?.mpr ⟨k, hb, he⟩)
    · intro h x hx
      obtain ⟨k, hb, he⟩ := List.mem_zip_iff_getElem?.mp hx
      exact h k x.1 x.2 hb he
  constructor
  · rintro ⟨cuts, h⟩
    obtain ⟨spans, hspans, -⟩ := findAll_ok h
    exact ⟨length_begins_eq h, hzip.mp (pairs_ok hspans).2⟩
  · intro h
    obtain ⟨spans, hspans⟩ := pairs_ok_iff.mpr (hzip.mpr h.partners)
    exact ⟨_, by rw [findAll_eq, if_neg (not_not.mpr h.length), hspans]; rfl⟩

/-! ## Depth -/

def opened (code : List Char) (l : Line) : Nat :=
  (lines .begins code).countP fun b => b.start ≤ l.start

def closed (code : List Char) (l : Line) : Nat :=
  (lines .ends code).countP fun e => e.start < l.start

theorem lt_countP_lines_iff (mark : Mark) (code : List Char) {p : Nat → Bool}
    (h : ∀ {i j : Nat}, i ≤ j → p j = true → p i = true) {k : Nat} :
    k < (lines mark code).countP (fun l => p l.start) ↔
      ∃ l, (lines mark code)[k]? = some l ∧ p l.start = true :=
  List.lt_countP_iff ((lines_pairwise mark code).imp h)

theorem lt_opened_iff {l : Line} {k : Nat} :
    k < opened code l ↔ ∃ b, (lines .begins code)[k]? = some b ∧ b.start ≤ l.start := by
  have hiff := @lt_countP_lines_iff .begins code (fun i => i ≤ l.start) (by grind) k
  simpa only [opened, decide_eq_true_eq] using hiff

theorem lt_closed_iff {l : Line} {k : Nat} :
    k < closed code l ↔ ∃ e, (lines .ends code)[k]? = some e ∧ e.start < l.start := by
  have hiff := @lt_countP_lines_iff .ends code (fun i => i < l.start) (by grind) k
  simpa only [closed, decide_eq_true_eq] using hiff

/-- Of the pairs, the one whose rank is the number of cuts that have ended holds the line if any
does. -/
theorem any_zip_iff_closed_lt_opened (h : Ordered code) (l : Line) :
    ((lines .begins code).zip (lines .ends code)).any
        (fun (b, e) => b.start ≤ l.start && l.start ≤ e.start) = true ↔
      closed code l < opened code l := by
  simp only [List.any_eq_true, Bool.and_eq_true, decide_eq_true_eq]
  constructor
  · rintro ⟨⟨b, e⟩, hmem, hb, he⟩
    obtain ⟨k, hbk, hek⟩ := List.mem_zip_iff_getElem?.mp hmem
    have hopened : k < opened code l := lt_opened_iff.mpr ⟨b, hbk, hb⟩
    have hclosed : ¬ k < closed code l := by
      intro hlt
      obtain ⟨e', he', hbefore⟩ := lt_closed_iff.mp hlt
      obtain rfl : e = e' := Option.some.inj (hek.symm.trans he')
      exact Nat.not_lt.mpr he hbefore
    omega
  · intro hlt
    obtain ⟨b, hbk, hb⟩ := lt_opened_iff.mp hlt
    have hk : closed code l < (lines .ends code).length := by
      rw [← h.length]
      exact (List.getElem?_eq_some_iff.mp hbk).1
    have hek := List.getElem?_eq_getElem hk
    refine ⟨(b, _), List.mem_zip_iff_getElem?.mpr ⟨_, hbk, hek⟩, hb, ?_⟩
    by_contra hbefore
    exact Nat.lt_irrefl _ (lt_closed_iff.mpr ⟨_, hek, Nat.lt_of_not_le hbefore⟩)

/-- The cuts of a sample are found exactly if the lines that begin and end one are balanced as
brackets, and any other sample is refused for them.  The spans between partners, whether they are
nested or cross, hide exactly the lines that stand in brackets. -/
theorem findAll_ok_iff_balanced (code : List Char) :
    ((∃ cuts, findAll code = .ok cuts) ↔ Balanced code) ∧
      (¬ Balanced code → ∃ mismatch, findAll code = .error (.mismatchedCuts mismatch)) ∧
      ∀ cuts, findAll code = .ok cuts →
        ∃ inner, pairs (lines .begins code) (lines .ends code) = .ok inner ∧
          cuts = outer code ++ inner ∧
          ∀ l ∈ Line.all code, ∀ i, l.start ≤ i → i ≤ l.start + l.text.length →
            (Span.covered inner i = true ↔ closed code l < opened code l) := by
  have hiff : (∃ cuts, findAll code = .ok cuts) ↔ Balanced code :=
    findAll_ok_iff_ordered.trans balanced_iff_ordered.symm
  refine ⟨hiff, ?_, ?_⟩
  · intro hnot
    cases hfound : findAll code with
    | ok cuts => exact absurd (hiff.mp ⟨cuts, hfound⟩) hnot
    | error e =>
      obtain ⟨mismatch, rfl⟩ := failsOnly_findAll
        (P := fun e => ∃ mismatch, e = .mismatchedCuts mismatch) (fun m => ⟨m, rfl⟩) code e hfound
      exact ⟨mismatch, rfl⟩
  · intro cuts h
    obtain ⟨inner, hinner, hcuts⟩ := findAll_ok h
    refine ⟨inner, hinner, hcuts, fun l hl i hi hlt => ?_⟩
    rw [(pairs_ok hinner).1, covered_zip hl hi hlt]
    exact any_zip_iff_closed_lt_opened (findAll_ok_iff_ordered.mp ⟨cuts, h⟩) l

/-- A cut in a cut.  The spans cross, and it is the second that hides the line behind the inner
cut. -/
theorem findAll_ok_iff_balanced_nested :
    let code :=
      "// ---cut-start---\n// ---cut-start---\n// ---cut-end---\na\n// ---cut-end---\nb".toList
    findAll code = .ok [⟨0, 55⟩, ⟨19, 74⟩] ∧ Balanced code ∧
      closed code ⟨55, ['a']⟩ < opened code ⟨55, ['a']⟩ ∧
      ¬ closed code ⟨74, ['b']⟩ < opened code ⟨74, ['b']⟩ := by
  intro code
  have hfound : findAll code = .ok [⟨0, 55⟩, ⟨19, 74⟩] := rfl
  obtain ⟨hiff, -, hhides⟩ := findAll_ok_iff_balanced code
  obtain ⟨inner, -, hcuts, hcovered⟩ := hhides _ hfound
  have hinner : inner = [⟨0, 55⟩, ⟨19, 74⟩] := hcuts.symm
  refine ⟨hfound, hiff.mp ⟨_, hfound⟩, ?_, ?_⟩
  · exact (hcovered ⟨55, ['a']⟩ (by decide) 55 (by decide) (by decide)).mp (by rw [hinner]; rfl)
  · intro hlt
    have hhidden := (hcovered ⟨74, ['b']⟩ (by decide) 74 (by decide) (by decide)).mpr hlt
    rw [hinner] at hhidden
    cases hhidden

end Cut

end Marginalia
