import Mathlib.Data.List.TakeWhile
import Marginalia.Proofs.Line

/-!
# Laws of positions

The line of an index is the number of line feeds before it, and its column is its distance from the
first index of that line.  An index past the end keeps counting on the last line.  Indices and
positions are two names for the same places: each can be read off the other.
-/

namespace Marginalia
set_option autoImplicit false

namespace Text

/-- How many characters follow the last line feed of a text. -/
def afterFeed (cs : List Char) : Nat := (cs.reverse.takeWhile (· != '\n')).length

theorem afterFeed_of_not_mem {cs : List Char} (h : '\n' ∉ cs) : afterFeed cs = cs.length := by
  have hall : ∀ c ∈ cs.reverse, (c != '\n') = true := by
    intro c hc
    exact bne_iff_ne.mpr fun he => h (he ▸ List.mem_reverse.mp hc)
  rw [afterFeed, List.takeWhile_eq_self_iff.mpr hall, List.length_reverse]

theorem afterFeed_append_cons (front rest : List Char) :
    afterFeed (front ++ '\n' :: rest) = afterFeed rest := by
  unfold afterFeed
  rw [List.reverse_append, List.reverse_cons, List.append_assoc, List.takeWhile_append]
  split
  · next h => simp [h]
  · rfl

end Text

theorem Line.start_of_getElem?_place {first k : Nat} {texts : List (List Char)} {l : Line}
    (h : (place first texts)[k]? = some l) :
    l.start = first + ((Position.withFeeds texts).take k).flatten.length := by
  induction texts generalizing first k with
  | nil => cases h
  | cons text rest ih =>
    cases k with
    | zero =>
      cases h
      rfl
    | succ k =>
      cases rest with
      | nil => cases h
      | cons next more =>
        have hnext := @ih (first + text.length + 1) k h
        simp only [Position.withFeeds, List.take_succ_cons, List.flatten_cons, List.length_append,
          List.length_singleton]
        omega

theorem Line.start_succ_of_getElem?_place {first k : Nat} {texts : List (List Char)} {upper l : Line}
    (hupper : (place first texts)[k]? = some upper) (hl : (place first texts)[k + 1]? = some l) :
    l.start = upper.start + upper.text.length + 1 := by
  induction texts generalizing first k with
  | nil => cases hl
  | cons text rest ih =>
    cases k with
    | zero =>
      cases hupper
      cases rest with
      | nil => cases hl
      | cons next more =>
        cases hl
        rfl
    | succ k => exact ih hupper hl

theorem Line.start_succ {code : List Char} {k : Nat} {upper l : Line}
    (hupper : (all code)[k]? = some upper) (hl : (all code)[k + 1]? = some l) :
    l.start = upper.start + upper.text.length + 1 :=
  start_succ_of_getElem?_place hupper hl

namespace Position

theorem withFeeds_ne_nil {texts : List (List Char)} (h : texts ≠ []) : withFeeds texts ≠ [] := by
  rw [← List.length_pos_iff, length_withFeeds]
  exact List.length_pos_iff.mpr h

theorem locate_cons {line : Nat} {i : Int} {text : List Char} {rest : List (List Char)}
    (h : rest ≠ []) :
    locate line i (text :: rest) =
      if i < text.length then ⟨line, i⟩ else locate (line + 1) (i - text.length) rest := by
  cases rest with
  | nil => exact absurd rfl h
  | cons next more => rfl

theorem count_take_eq_zero {text : List Char} (h : '\n' ∉ text) (i : Nat) :
    (text.take i).count '\n' = 0 :=
  List.count_eq_zero.mpr fun hmem => h (List.mem_of_mem_take hmem)

/-- An index is on the line whose number is that of the line feeds before it.  As long as the text
reaches, what separates it from the start of that line is the text behind the last of them. -/
theorem locate_withFeeds {texts : List (List Char)} (hne : texts ≠ [])
    (hfeeds : ∀ text ∈ texts, '\n' ∉ text) (line first i : Nat) :
    ∃ l, (Line.place first texts)[((withFeeds texts).flatten.take i).count '\n']? = some l ∧
      locate line i (withFeeds texts) =
        ⟨line + ((withFeeds texts).flatten.take i).count '\n', (first + i : Nat) - l.start⟩ ∧
      (i ≤ (withFeeds texts).flatten.length →
        first + i = l.start + Text.afterFeed ((withFeeds texts).flatten.take i)) := by
  induction texts generalizing line first i with
  | nil => exact absurd rfl hne
  | cons text rest ih =>
    have htext : '\n' ∉ text := hfeeds text List.mem_cons_self
    have hbefore : i ≤ text.length → Text.afterFeed (text.take i) = i := by
      intro hi
      rw [Text.afterFeed_of_not_mem fun hmem => htext (List.mem_of_mem_take hmem), List.length_take]
      omega
    cases rest with
    | nil =>
      have hflat : (withFeeds [text]).flatten = text := by simp [withFeeds]
      rw [hflat, count_take_eq_zero htext i]
      refine ⟨⟨first, text⟩, rfl, ?_, fun hi => by rw [hbefore hi]⟩
      simp only [withFeeds, locate]
      congr 1
      omega
    | cons next more =>
      have hrest : next :: more ≠ [] := List.cons_ne_nil next more
      simp only [withFeeds, List.flatten_cons]
      rw [locate_cons (withFeeds_ne_nil hrest)]
      by_cases hi : i ≤ text.length
      · -- The index is on this line, whose line feed is not before it.
        have htake : (text ++ ['\n'] ++ (withFeeds (next :: more)).flatten).take i = text.take i := by
          rw [List.append_assoc, List.take_append_of_le_length hi]
        have hhere : (i : Int) < (text ++ ['\n']).length := by
          rw [List.length_append, List.length_singleton]
          omega
        rw [htake, count_take_eq_zero htext i, if_pos hhere]
        refine ⟨⟨first, text⟩, rfl, ?_, fun _ => by rw [hbefore hi]⟩
        congr 1
        dsimp only
        omega
      · obtain ⟨j, rfl⟩ := Nat.exists_eq_add_of_lt (Nat.lt_of_not_le hi)
        obtain ⟨l, hl, hlocate, hfeed⟩ := ih hrest (fun t ht => hfeeds t (List.mem_cons_of_mem text ht))
          (line + 1) (first + text.length + 1) j
        have hlength : (text ++ ['\n']).length = text.length + 1 := by simp
        have htake : (text ++ ['\n'] ++ (withFeeds (next :: more)).flatten).take (text.length + j + 1) =
            text ++ '\n' :: (withFeeds (next :: more)).flatten.take j := by
          have hindex : text.length + j + 1 = (text ++ ['\n']).length + j := by omega
          rw [hindex, List.take_length_add_append, List.append_assoc, List.singleton_append]
        have hcount : (text ++ '\n' :: (withFeeds (next :: more)).flatten.take j).count '\n' =
            ((withFeeds (next :: more)).flatten.take j).count '\n' + 1 := by
          rw [List.count_append, List.count_eq_zero.mpr htext, List.count_cons_self, Nat.zero_add]
        have hbehind : ¬ ((text.length + j + 1 : Nat) : Int) < (text ++ ['\n']).length := by omega
        have hleft : ((text.length + j + 1 : Nat) : Int) - (text ++ ['\n']).length = j := by omega
        rw [htake, hcount, if_neg hbehind, hleft, hlocate, Text.afterFeed_append_cons]
        refine ⟨l, hl, ?_, ?_⟩
        · congr 1 <;> omega
        · intro hle
          rw [List.length_append] at hle
          have hnext := hfeed (by omega)
          omega

section Code
variable (code : List Char)

theorem ofIndex_eq (i : Nat) :
    ∃ l, (Line.all code)[(code.take i).count '\n']? = some l ∧
      ofIndex code i = ⟨(code.take i).count '\n', i - l.start⟩ ∧
      (i ≤ code.length → i = l.start + Text.afterFeed (code.take i)) := by
  have hflat := flatten_linesOf code
  have hfound := locate_withFeeds (Text.splitOn_ne_nil '\n' code)
    (fun text ht => Text.not_mem_of_mem_splitOn ht) 0 0 i
  unfold linesOf at hflat
  rw [hflat, Nat.zero_add, Nat.zero_add] at hfound
  exact hfound

theorem indexOf_natCast (line : Nat) (column : Int) :
    indexOf code line column = ((linesOf code).take line).flatten.length + column := by
  simp only [indexOf, Text.place_of_nonneg (Int.natCast_nonneg line), Int.toNat_natCast]

theorem toIndex_ofIndex (i : Nat) : toIndex code (ofIndex code i) = i := by
  obtain ⟨l, hl, hplace, -⟩ := ofIndex_eq code i
  have hstart := Line.start_of_getElem?_place hl
  rw [toIndex, hplace, indexOf_natCast]
  dsimp only [linesOf]
  omega

end Code

theorem locate_of_getElem? {lines : List (List Char)} {k column : Nat} {text : List Char}
    (h : lines[k]? = some text) (hcolumn : column < text.length ∨ k + 1 = lines.length)
    (line : Nat) :
    locate line ((lines.take k).flatten.length + column) lines = ⟨line + k, column⟩ := by
  induction lines generalizing line k with
  | nil => cases h
  | cons first rest ih =>
    cases k with
    | zero =>
      obtain rfl : first = text := Option.some.inj h
      cases rest with
      | nil => simp [locate]
      | cons next more =>
        have hhere : (column : Int) < first.length := by
          rcases hcolumn with hlt | hlast
          · omega
          · simp at hlast
        simp [locate, hhere]
    | succ k =>
      have hne : rest ≠ [] := by
        rintro rfl
        cases h
      have hnext := ih h (hcolumn.imp_right Nat.succ.inj) (line + 1)
      rw [locate_cons hne, List.take_succ_cons, List.flatten_cons, List.length_append, if_neg (by omega)]
      have hleft : ((first.length + (rest.take k).flatten.length : Nat) : Int) + column - first.length =
          (rest.take k).flatten.length + column := by omega
      rw [hleft, hnext]
      congr 1
      omega

theorem getElem?_withFeeds (texts : List (List Char)) (k : Nat) :
    (withFeeds texts)[k]? =
      texts[k]?.map fun text => if k + 1 < texts.length then text ++ ['\n'] else text := by
  induction texts generalizing k with
  | nil => rfl
  | cons text rest ih =>
    cases rest with
    | nil => cases k <;> rfl
    | cons next more =>
      cases k with
      | zero => simp [withFeeds]
      | succ k =>
        simp only [withFeeds, List.getElem?_cons_succ, ih k, List.length_cons, Nat.add_lt_add_iff_right]

section Code
variable {code : List Char} {k : Nat} {l : Line} (hl : (Line.all code)[k]? = some l)
include hl

theorem indexOf_line (column : Int) : indexOf code k column = l.start + column := by
  rw [indexOf_natCast, Line.start_of_getElem?_place hl, Nat.zero_add, linesOf]

theorem ofIndex_line {column : Nat} (hcolumn : column ≤ l.text.length) :
    ofIndex code (l.start + column) = ⟨k, column⟩ := by
  have htext : (Text.splitOn '\n' code)[k]? = some l.text := by
    rw [← Line.map_text_all, List.getElem?_map, hl]
    rfl
  have hfound := getElem?_withFeeds (Text.splitOn '\n' code) k
  rw [htext, Option.map_some] at hfound
  have hplace := @locate_of_getElem? _ k column _ hfound ?_ 0
  · rw [Nat.zero_add, ← linesOf, ← indexOf_natCast, indexOf_line hl] at hplace
    exact hplace
  · rw [length_withFeeds]
    have hk := (List.getElem?_eq_some_iff.mp htext).1
    split
    · left
      rw [List.length_append, List.length_singleton]
      omega
    · right
      omega

theorem above_line {upper : Line} (hupper : (Line.all code)[k - 1]? = some upper) {column : Nat}
    (hcolumn : column ≤ l.text.length) : above code (l.start + column) = upper.start + column := by
  -- The line above gives the start, the line itself the column.
  unfold above toIndex
  rw [ofIndex_line hl hcolumn]
  exact indexOf_line hupper column

end Code

/-- Indices and positions.  The lines make up the text, one for each line feed and one more.  An
index of the text, its end included, lies on the line with as many line feeds before it, as far from
the start of that line as from the last of them, and it is the index of that position.  A column
that its line has, or that is the end of the last line, is found again from its index. -/
theorem index_position_inverse (code : List Char) :
    (linesOf code).flatten = code ∧ (linesOf code).length = code.count '\n' + 1 ∧
      (∀ i : Nat, i ≤ code.length →
        ofIndex code i = ⟨(code.take i).count '\n', Text.afterFeed (code.take i)⟩ ∧
          toIndex code (ofIndex code i) = i) ∧
      ∀ (line column : Nat) (text : List Char), (linesOf code)[line]? = some text →
        column < text.length ∨ line + 1 = (linesOf code).length ∧ column ≤ text.length →
        ofIndex code (indexOf code line column) = ⟨line, column⟩ := by
  refine ⟨flatten_linesOf code, length_linesOf code, ?_, ?_⟩
  · intro i hi
    obtain ⟨l, -, hplace, hfeed⟩ := ofIndex_eq code i
    refine ⟨?_, toIndex_ofIndex code i⟩
    have hcolumn := hfeed hi
    rw [hplace]
    congr 1
    omega
  · intro line column text htext hcolumn
    have hfound := locate_of_getElem? htext (hcolumn.imp_right And.left) 0
    rwa [← indexOf_natCast, Nat.zero_add] at hfound

/-- An empty line in the middle, and an empty last line behind a line feed, where the end of the text
lies. -/
theorem index_position_inverse_example :
    let code := "ab\n\nc\n".toList
    linesOf code = ["ab\n".toList, "\n".toList, "c\n".toList, []] ∧
      ofIndex code 3 = ⟨1, 0⟩ ∧ toIndex code (ofIndex code 3) = 3 ∧
      ofIndex code 6 = ⟨3, 0⟩ ∧ ofIndex code (indexOf code 3 0) = ⟨3, 0⟩ := by
  intro code
  obtain ⟨-, -, hindex, hposition⟩ := index_position_inverse code
  obtain ⟨hempty, hback⟩ := hindex 3 (by decide)
  refine ⟨by decide, hempty, hback, (hindex 6 (by decide)).1, ?_⟩
  exact hposition 3 0 [] (by decide) (Or.inr ⟨by decide, by decide⟩)

end Position

end Marginalia
