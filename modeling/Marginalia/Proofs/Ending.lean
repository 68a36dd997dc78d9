import Marginalia.Cut
import Marginalia.Marker
import Marginalia.Proofs.Directive

/-!
# Lines that end in a carriage return

A recogniser sees a line without its line feed, but with the carriage return that may stand before
it.  Each of them gives the same answer with and without it, save the one for flags with a value:
where nothing follows the colon, it takes the carriage return for the value.
-/

namespace Marginalia
set_option autoImplicit false

namespace Text
variable {p : Char → Bool} {c : Char} {cs : List Char}

theorem dropWhile_append_singleton (hc : p c = false) :
    (cs ++ [c]).dropWhile p = cs.dropWhile p ++ [c] := by
  induction cs with
  | nil => simp [hc]
  | cons b rest ih =>
    by_cases hb : p b = true
    · simp [hb, ih]
    · simp [hb]

theorem takeWhile_append_singleton (hc : p c = false) :
    (cs ++ [c]).takeWhile p = cs.takeWhile p := by
  apply takeWhile_append_of_head?
  rintro d ⟨⟩
  exact hc

theorem dropRight_append_singleton (hc : p c = true) : dropRight p (cs ++ [c]) = dropRight p cs := by
  simp [dropRight, hc]

theorem strip_append_blank (hc : isBlank c = true) (cs : List Char) :
    strip (cs ++ [c]) = strip cs := by
  unfold strip trim
  induction cs with
  | nil => simp [hc]
  | cons b rest ih =>
    by_cases hb : isBlank b = true
    · simpa [hb] using ih
    · rw [List.cons_append, List.dropWhile_cons_of_neg hb, List.dropWhile_cons_of_neg hb,
        ← List.cons_append, dropRight_append_singleton hc]

end Text

theorem Line.withoutReturn_append (text : List Char) : withoutReturn (text ++ ['\r']) = text := by
  simp [withoutReturn, Text.dropEnding?]

theorem Line.withoutReturn_of_not_mem {text : List Char} (h : '\r' ∉ text) :
    withoutReturn text = text := by
  have hend : ¬ ['\r'] <:+ text := fun hsuffix => h (hsuffix.subset List.mem_cons_self)
  simp [withoutReturn, Text.dropEnding?, hend]

namespace Directive
variable {line : List Char}

theorem afterSlashes?_of_ne {a b : Char} (h : ¬ (a = '/' ∧ b = '/')) (rest : List Char) :
    afterSlashes? (a :: b :: rest) = none := by
  unfold afterSlashes?
  split
  · simp_all
  · simp_all
  · rfl

theorem afterSlashes?_append (line : List Char) :
    afterSlashes? (line ++ ['\r']) = (afterSlashes? line).map (· ++ ['\r']) := by
  rcases line with _ | ⟨a, _ | ⟨b, rest⟩⟩
  · rfl
  · simp [afterSlashes?]
  · by_cases hslashes : a = '/' ∧ b = '/'
    · obtain ⟨rfl, rfl⟩ := hslashes
      cases rest with
      | nil => rfl
      | cons c rest =>
        by_cases hgap : isGap c = true
        · simp [afterSlashes?, hgap]
        · simp [afterSlashes?, hgap]
    · simp [afterSlashes?_of_ne hslashes]

theorem suffix_of_afterSlashes? {text : List Char} (h : afterSlashes? line = some text) :
    text <:+ line := by
  unfold afterSlashes? at h
  split at h
  · next c rest =>
    rw [← Option.some.inj h]
    split
    · exact ⟨['/', '/', c], rfl⟩
    · exact ⟨['/', '/'], rfl⟩
  · rw [← Option.some.inj h]
    exact List.nil_suffix
  · cases h

theorem afterAt?_append (line : List Char) :
    afterAt? (line ++ ['\r']) = (afterAt? line).map (· ++ ['\r']) := by
  unfold afterAt?
  rw [afterSlashes?_append]
  cases afterSlashes? line with
  | none => rfl
  | some rest =>
    cases rest with
    | nil => rfl
    | cons c more =>
      by_cases hc : c = '@'
      · subst hc
        rfl
      · simp [hc]

theorem flagName?_append (line : List Char) :
    flagName? (line ++ ['\r']) = (flagName? line).map fun x => (x.1, x.2 ++ ['\r']) := by
  have hreturn : Text.isWordChar '\r' = false := by decide
  unfold flagName?
  rw [afterAt?_append]
  cases afterAt? line with
  | none => rfl
  | some body =>
    simp only [Option.map_some, Text.takeWhile_append_singleton hreturn,
      Text.dropWhile_append_singleton hreturn]
    split
    · rfl
    · rfl

/-- The line is a flag line whose colon nothing follows, for another flag than the file flag. -/
def Hollow (line : List Char) : Prop :=
  ∃ name, name ≠ [] ∧ (∀ c ∈ name, Text.isWordChar c = true) ∧ name ≠ fileFlag.toList ∧
    Marked line (name ++ [':'])

theorem hollow_iff :
    Hollow line ↔ ∃ name, flagName? line = some (name, [':']) ∧ name ≠ fileFlag.toList := by
  have hcolon : Text.isWordChar ':' = false := by decide
  unfold Hollow
  apply exists_congr
  intro name
  rw [flagName?_eq_some_iff]
  constructor
  · rintro ⟨hname, hwords, hfile, hmarked⟩
    exact ⟨⟨hmarked, hname, hwords, not_word_of_head hcolon []⟩, hfile⟩
  · rintro ⟨⟨hmarked, hname, hwords, -⟩, hfile⟩
    exact ⟨hname, hwords, hfile, hmarked⟩

theorem bare?_append (h : '\r' ∉ line) : bare? (line ++ ['\r']) = bare? line := by
  unfold bare?
  rw [flagName?_append]
  cases hname : flagName? line with
  | none => rfl
  | some x =>
    obtain ⟨name, after⟩ := x
    have hafter : after ≠ ['\r'] := by
      rintro rfl
      obtain ⟨⟨gap, -, rfl⟩, -⟩ := flagName?_eq_some_iff.mp hname
      simp at h
    simp [hafter]

theorem flag?_append (h : ¬ Hollow line) : flag? (line ++ ['\r']) = flag? line := by
  have hreturn : Text.isBlank '\r' = true := by decide
  unfold flag? valued?
  rw [flagName?_append]
  cases hname : flagName? line with
  | none => rfl
  | some x =>
    obtain ⟨name, after⟩ := x
    rcases after with _ | ⟨c, _ | ⟨d, value⟩⟩
    · simp
    · by_cases hc : c = ':'
      · subst hc
        have hfile : name = fileFlag.toList := by
          by_cases hfile : name = fileFlag.toList
          · exact hfile
          · exact absurd (hollow_iff.mpr ⟨name, hname, hfile⟩) h
        simp [hfile]
      · simp [hc]
    · by_cases hc : c = ':'
      · subst hc
        have hstrip := Text.strip_append_blank hreturn (d :: value)
        rw [List.cons_append] at hstrip
        simp [hstrip]
      · simp [hc]

theorem flag?_append_of_hollow (h : Hollow line) :
    flag? line = none ∧ ∃ name, flag? (line ++ ['\r']) = some (name, "") := by
  obtain ⟨name, hname, hfile⟩ := hollow_iff.mp h
  have hother : String.ofList name ≠ fileFlag := by
    intro he
    rw [← he, String.toList_ofList] at hfile
    exact hfile rfl
  have hvalue : String.ofList (Text.strip ['\r']) = "" := by decide
  refine ⟨by simp [flag?, valued?, hname], String.ofList name, ?_⟩
  simp [flag?, valued?, flagName?_append, hname, hvalue, hother]

end Directive

namespace Cut
variable {line : List Char}

theorem text?_append (h : '\r' ∉ line) : text? (line ++ ['\r']) = text? line := by
  have hreturn : isIndent '\r' = false := by decide
  unfold text?
  rw [Text.dropWhile_append_singleton hreturn, Directive.afterSlashes?_append]
  cases hafter : Directive.afterSlashes? (line.dropWhile isIndent) with
  | none => rfl
  | some text =>
    have hmem : '\r' ∉ text := by
      intro hin
      have hsuffix := (Directive.suffix_of_afterSlashes? hafter).trans (List.dropWhile_suffix isIndent)
      exact h (hsuffix.subset hin)
    simp [Line.withoutReturn_append, Line.withoutReturn_of_not_mem hmem]

theorem isMark_append (h : '\r' ∉ line) (mark : Mark) :
    isMark mark (line ++ ['\r']) = isMark mark line := by
  simp only [isMark, text?_append h]

end Cut

namespace Marker
variable {line rest : List Char}

theorem isRest_append (h : '\r' ∉ rest) : isRest (rest ++ ['\r']) = isRest rest := by
  cases rest with
  | nil => rfl
  | cons c more =>
    have hc : c ≠ '\r' := fun he => h (he ▸ List.mem_cons_self)
    simp [isRest, beq_eq_false_iff_ne.mpr hc]

theorem label?_append (rest : List Char) : label? (rest ++ ['\r']) = label? rest := by
  have hreturn : Text.isBlank '\r' = true := by decide
  simp only [label?, Text.strip_append_blank hreturn]

theorem sign?_of_ne {c : Char} (hquery : c ≠ '?') (hcompletion : c ≠ '|') (text : List Char) :
    sign? (c :: text) =
      let carets := ((c :: text).takeWhile (· == '^')).length
      let rest := (c :: text).drop carets
      if 0 < carets && isRest rest then some (.highlight (carets + 1) (label? rest)) else none := by
  unfold sign?
  split
  · simp_all
  · simp_all
  · rfl

theorem sign?_append (h : '\r' ∉ rest) : sign? (rest ++ ['\r']) = sign? rest := by
  have hreturn : ('\r' == '^') = false := by decide
  cases rest with
  | nil => rfl
  | cons c more =>
    have hmore : '\r' ∉ more := fun hin => h (List.mem_cons_of_mem c hin)
    by_cases hquery : c = '?'
    · subst hquery
      simp [sign?, isRest_append hmore]
    · by_cases hcompletion : c = '|'
      · subst hcompletion
        simp [sign?, isRest_append hmore]
      · have hle : ((c :: more).takeWhile (· == '^')).length ≤ (c :: more).length :=
          (List.takeWhile_prefix _).length_le
        have hrest : '\r' ∉ (c :: more).drop ((c :: more).takeWhile (· == '^')).length :=
          fun hin => h (List.mem_of_mem_drop hin)
        rw [List.cons_append, sign?_of_ne hquery hcompletion, sign?_of_ne hquery hcompletion,
          ← List.cons_append, Text.takeWhile_append_singleton (p := (· == '^')) hreturn]
        simp only [List.drop_append_of_le_length hle, isRest_append hrest, label?_append]

theorem form?_append (h : '\r' ∉ line) : form? (line ++ ['\r']) = form? line := by
  have hreturn : Directive.isGap '\r' = false := by decide
  unfold form?
  rw [Text.dropWhile_append_singleton hreturn]
  have hindented := List.dropWhile_suffix (l := line) Directive.isGap
  rcases hline : line.dropWhile Directive.isGap with _ | ⟨a, _ | ⟨b, comment⟩⟩
  · simp
  · simp
  · rw [hline] at hindented
    by_cases hslashes : a = '/' ∧ b = '/'
    · obtain ⟨rfl, rfl⟩ := hslashes
      have hcomment := List.dropWhile_suffix (l := comment) Directive.isGap
      simp only [List.cons_append, Text.dropWhile_append_singleton hreturn]
      rcases htext : comment.dropWhile Directive.isGap with _ | ⟨c, rest⟩
      · simp
      · rw [htext] at hcomment
        by_cases hcaret : c = '^'
        · subst hcaret
          have hmem : '\r' ∉ rest := by
            intro hin
            apply h (hindented.subset _)
            simp [hcomment.subset (List.mem_cons_of_mem _ hin)]
          simp [sign?_append hmem]
        · simp [hcaret]
    · simp only [List.cons_append]
      split
      · simp_all
      · split
        · simp_all
        · rfl

end Marker

end Marginalia
