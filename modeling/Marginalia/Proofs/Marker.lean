import Marginalia.Marker
import Marginalia.Proofs.Position

/-!
# Where markers point

A marker records the start of the line above plus the column of its caret.  Where the line above has
that column, its line feed counted, this is the place right above the caret.  Where it is shorter,
the sum runs over its end, into the marker's own line.
-/

namespace Marginalia.Marker
set_option autoImplicit false

def Sign.kind : Sign → MarkerKind
  | .query => .query
  | .completion => .completion
  | .highlight _ _ => .highlight

/-- The indices at which something of a kind is asked for; for a highlight this is its start. -/
def Requests.starts (r : Requests) : MarkerKind → List Int
  | .query => r.queries
  | .completion => r.completions
  | .highlight => r.highlights.map fun h => h.span.start

theorem starts_add (code : List Char) (asked : Requests) (x : Line × Form) (kind : MarkerKind) :
    (Requests.add code asked x).starts kind =
      asked.starts kind ++ if x.2.sign.kind = kind then [target code x.1 x.2] else [] := by
  obtain ⟨l, column, sign⟩ := x
  cases sign <;> cases kind <;> simp [Requests.add, Requests.starts, Sign.kind]

theorem starts_requests (code : List Char) (asked : Requests) (kind : MarkerKind) :
    (requests code asked).starts kind = asked.starts kind ++
      ((lines code).filter fun x => x.2.sign.kind = kind).map fun x => target code x.1 x.2 := by
  unfold requests
  induction lines code generalizing asked with
  | nil => simp
  | cons x rest ih =>
    rw [List.foldl_cons, ih, starts_add, List.append_assoc]
    by_cases hkind : x.2.sign.kind = kind <;> simp [hkind]

/-- The line with a number, counted from zero, is a marker of a kind that points at an index. -/
def Records (code : List Char) (k : Nat) (kind : MarkerKind) (i : Int) : Prop :=
  ∃ l f, (Line.all code)[k]? = some l ∧ form? l.text = some f ∧ f.sign.kind = kind ∧
    target code l f = i

theorem not_records {code : List Char} {k : Nat}
    (h : ((Line.all code)[k]?.bind fun l => form? l.text) = none) (kind : MarkerKind) (i : Int) :
    ¬ Records code k kind i := by
  rintro ⟨l, f, hl, hf, -⟩
  rw [hl, Option.bind_some, hf] at h
  cases h

theorem mem_starts_iff {code : List Char} {kind : MarkerKind} {i : Int} :
    i ∈ (requests code {}).starts kind ↔ ∃ k, Records code k kind i := by
  have hnone : ({} : Requests).starts kind = [] := by cases kind <;> rfl
  rw [starts_requests, hnone, List.nil_append, List.mem_map]
  constructor
  · rintro ⟨⟨l, f⟩, hx, rfl⟩
    obtain ⟨hmem, hkind⟩ := List.mem_filter.mp hx
    obtain ⟨hl, hf⟩ := Line.mem_select_iff.mp hmem
    obtain ⟨k, hk⟩ := List.mem_iff_getElem?.mp hl
    exact ⟨k, l, f, hk, hf, of_decide_eq_true hkind, rfl⟩
  · rintro ⟨k, l, f, hk, hf, hkind, rfl⟩
    have hmem : (l, f) ∈ lines code := Line.mem_select_iff.mpr ⟨List.mem_of_getElem? hk, hf⟩
    exact ⟨(l, f), List.mem_filter.mpr ⟨hmem, decide_eq_true hkind⟩, rfl⟩

theorem form?_eq_some {text : List Char} {f : Form} (h : form? text = some f) :
    ∃ before rest, text = before ++ '^' :: rest ∧ '^' ∉ before ∧ before.length = f.column ∧
      sign? rest = some f.sign := by
  have hgap : ∀ cs : List Char, '^' ∉ cs.takeWhile Directive.isGap := fun cs hmem =>
    absurd (List.mem_takeWhile_imp hmem) (by decide)
  have hsplit := List.takeWhile_append_dropWhile (p := Directive.isGap) (l := text)
  unfold form? at h
  dsimp only at h
  split at h
  · next comment hcomment =>
    have hinner := List.takeWhile_append_dropWhile (p := Directive.isGap) (l := comment)
    split at h
    · next rest hrest =>
      obtain ⟨sign, hsign, rfl⟩ := Option.map_eq_some_iff.mp h
      rw [hrest] at hinner
      rw [hcomment, ← hinner] at hsplit
      refine ⟨text.takeWhile Directive.isGap ++ '/' :: '/' :: comment.takeWhile Directive.isGap,
        rest, ?_, ?_, ?_, hsign⟩
      · simpa using hsplit.symm
      · simpa using ⟨hgap text, hgap comment⟩
      · have hlength := congrArg List.length hsplit
        simp only [List.length_append, List.length_cons] at hlength ⊢
        omega
    · cases h
  · cases h

theorem caret_of_form? {text : List Char} {f : Form} (h : form? text = some f) :
    text[f.column]? = some '^' ∧ '^' ∉ text.take f.column := by
  obtain ⟨before, rest, rfl, hbefore, hcolumn, -⟩ := form?_eq_some h
  rw [← hcolumn, List.take_left]
  exact ⟨by simp, hbefore⟩

theorem column_lt_of_form? {text : List Char} {f : Form} (h : form? text = some f) :
    f.column < text.length :=
  (List.getElem?_eq_some_iff.mp (caret_of_form? h).1).1

section Target
variable {code : List Char} {k : Nat} {upper l : Line} {f : Form}

/-- The caret's column is counted from the start of the line above.  The first line stands above
itself. -/
theorem target_eq (hl : (Line.all code)[k]? = some l) (hupper : (Line.all code)[k - 1]? = some upper)
    (hf : form? l.text = some f) : target code l f = upper.start + f.column :=
  Position.above_line hl hupper (Nat.le_of_lt (column_lt_of_form? hf))

section Below
variable (hupper : (Line.all code)[k]? = some upper) (hl : (Line.all code)[k + 1]? = some l)
  (hf : form? l.text = some f)
include hupper hl hf

theorem ofIndex_target_of_le (hcolumn : f.column ≤ upper.text.length) :
    Position.ofIndex code (target code l f) = ⟨k, f.column⟩ := by
  rw [target_eq hl hupper hf]
  exact Position.ofIndex_line hupper hcolumn

theorem target_of_lt (hcolumn : upper.text.length < f.column) :
    target code l f = l.start + (f.column - (upper.text.length + 1) : Nat) := by
  have hstart := Line.start_succ hupper hl
  rw [target_eq hl hupper hf]
  omega

end Below

end Target

/-- There is a line above the marker line with a number, and it has the column of the caret. -/
def Reaches (code : List Char) (k : Nat) : Prop :=
  ∃ upper l f, 0 < k ∧ (Line.all code)[k - 1]? = some upper ∧ (Line.all code)[k]? = some l ∧
    form? l.text = some f ∧ f.column ≤ upper.text.length

section Records
variable {code : List Char} {k : Nat} {kind : MarkerKind} {i : Int} (h : Records code k kind i)
include h

theorem line_of_reaches (hreach : Reaches code k) : (Position.ofIndex code i).line + 1 = k := by
  obtain ⟨l, f, hl, hf, -, rfl⟩ := h
  obtain ⟨upper, l', f', hk, hupper, hl', hf', hcolumn⟩ := hreach
  obtain rfl : l' = l := Option.some.inj (hl'.symm.trans hl)
  obtain rfl : f' = f := Option.some.inj (hf'.symm.trans hf)
  cases k with
  | zero => exact absurd hk (Nat.lt_irrefl 0)
  | succ k =>
    rw [ofIndex_target_of_le hupper hl hf hcolumn]
    rfl

theorem own_line_of_not_reaches (hreach : ¬ Reaches code k) :
    ∃ l, (Line.all code)[k]? = some l ∧ (form? l.text).isSome = true ∧
      ∃ column, column ≤ l.text.length ∧ i = l.start + (column : Nat) := by
  obtain ⟨l, f, hl, hf, -, rfl⟩ := h
  have hlt := column_lt_of_form? hf
  refine ⟨l, hl, Option.isSome_of_eq_some hf, ?_⟩
  cases k with
  | zero => exact ⟨f.column, Nat.le_of_lt hlt, target_eq hl hl hf⟩
  | succ k =>
    obtain ⟨upper, hupper⟩ : ∃ upper, (Line.all code)[k]? = some upper := by
      have hk := (List.getElem?_eq_some_iff.mp hl).1
      exact ⟨_, List.getElem?_eq_getElem (Nat.lt_of_succ_lt hk)⟩
    have hcolumn : upper.text.length < f.column := by
      by_contra hle
      exact hreach ⟨upper, l, f, Nat.succ_pos k, hupper, hl, hf, Nat.le_of_not_lt hle⟩
    exact ⟨_, by omega, target_of_lt hupper hl hf hcolumn⟩

theorem line_of_not_reaches (hreach : ¬ Reaches code k) : (Position.ofIndex code i).line = k := by
  obtain ⟨l, hl, -, column, hcolumn, rfl⟩ := own_line_of_not_reaches h hreach
  rw [Position.ofIndex_line hl hcolumn]

theorem exists_removal_of_not_reaches (hreach : ¬ Reaches code k) :
    ∃ s ∈ removals code, s.contains i = true := by
  obtain ⟨l, hl, hform, column, hcolumn, rfl⟩ := own_line_of_not_reaches h hreach
  obtain ⟨f, hf⟩ := Option.isSome_iff_exists.mp hform
  have hmem : (l, f) ∈ lines code := Line.mem_select_iff.mpr ⟨List.mem_of_getElem? hl, hf⟩
  refine ⟨l.span, List.mem_map.mpr ⟨(l, f), hmem, rfl⟩, (Span.contains_iff _ _).mpr ?_⟩
  unfold Line.span
  dsimp only
  omega

end Records

/-- A marker below the first line is recorded, and what it records is the place right above its first
caret exactly if the line above has that column.  If it has not, the place is on the marker's own
line. -/
theorem points_above_iff (code : List Char) (k : Nat) (upper l : Line) (f : Form)
    (hupper : (Line.all code)[k]? = some upper) (hl : (Line.all code)[k + 1]? = some l)
    (hf : form? l.text = some f) :
    l.text[f.column]? = some '^' ∧ '^' ∉ l.text.take f.column ∧
      Position.ofIndex code (l.start + f.column) = ⟨k + 1, f.column⟩ ∧
      target code l f ∈ (requests code {}).starts f.sign.kind ∧
      (Position.ofIndex code (target code l f) = ⟨k, f.column⟩ ↔ f.column ≤ upper.text.length) ∧
      (upper.text.length < f.column → Position.ofIndex code (target code l f) =
        ⟨k + 1, (f.column - (upper.text.length + 1) : Nat)⟩) := by
  obtain ⟨hcaret, hfirst⟩ := caret_of_form? hf
  have hlt := column_lt_of_form? hf
  have hover : upper.text.length < f.column → Position.ofIndex code (target code l f) =
      ⟨k + 1, (f.column - (upper.text.length + 1) : Nat)⟩ := by
    intro hcolumn
    rw [target_of_lt hupper hl hf hcolumn]
    exact Position.ofIndex_line hl (by omega)
  refine ⟨hcaret, hfirst, Position.ofIndex_line hl (Nat.le_of_lt hlt), ?_, ?_, hover⟩
  · exact mem_starts_iff.mpr ⟨k + 1, l, f, hl, hf, rfl, rfl⟩
  · constructor
    · intro hplace
      by_contra hcolumn
      rw [hover (Nat.lt_of_not_le hcolumn)] at hplace
      exact absurd (congrArg Position.line hplace) (Nat.succ_ne_self k)
    · exact ofIndex_target_of_le hupper hl hf

/-- A query below a line that has its column, and a highlight with a label below the query, both of
them indented. -/
theorem points_above_iff_example :
    let code := "let ab = c\n  //  ^?\n //^^ x".toList
    Position.ofIndex code (target code ⟨11, "  //  ^?".toList⟩ ⟨6, .query⟩) = ⟨0, 6⟩ ∧
      Position.ofIndex code
        (target code ⟨20, " //^^ x".toList⟩ ⟨3, .highlight 2 (some "x")⟩) = ⟨1, 3⟩ := by
  intro code
  have hquery := points_above_iff code 0 ⟨0, "let ab = c".toList⟩ ⟨11, "  //  ^?".toList⟩ ⟨6, .query⟩
    (by decide) (by decide) (by decide)
  have hhighlight := points_above_iff code 1 ⟨11, "  //  ^?".toList⟩ ⟨20, " //^^ x".toList⟩
    ⟨3, .highlight 2 (some "x")⟩ (by decide) (by decide) (by decide)
  exact ⟨hquery.2.2.2.2.1.mpr (by decide), hhighlight.2.2.2.2.1.mpr (by decide)⟩

/-- The line above has two characters, and the caret stands in column five. -/
theorem points_above_counterexample :
    let code := "ab\n//   ^?\n".toList
    let l : Line := ⟨3, "//   ^?".toList⟩
    (Line.all code)[1]? = some l ∧ form? l.text = some ⟨5, .query⟩ ∧
      (requests code {}).queries = [target code l ⟨5, .query⟩] ∧
      Position.ofIndex code (target code l ⟨5, .query⟩) = ⟨1, 2⟩ ∧
      Position.ofIndex code (target code l ⟨5, .query⟩) ≠ ⟨0, 5⟩ := by
  decide

end Marginalia.Marker
