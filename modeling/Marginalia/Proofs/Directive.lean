import Marginalia.Directive

/-!
# The forms of directive lines

What a recogniser accepts, said without the recogniser: two slashes, at most one gap, an at sign and
a name, then nothing, or a colon and a text.  A file line is written like a flag line with a value,
but the colon is followed by a space and then by the name of the file.
-/

namespace Marginalia
set_option autoImplicit false

theorem Text.takeWhile_dropWhile_iff {p : Char → Bool} {cs first rest : List Char} :
    (cs.takeWhile p = first ∧ cs.dropWhile p = rest) ↔
      cs = first ++ rest ∧ (∀ c ∈ first, p c = true) ∧ ∀ c ∈ rest.head?, p c = false := by
  constructor
  · rintro ⟨rfl, rfl⟩
    refine ⟨List.takeWhile_append_dropWhile.symm, ?_, ?_⟩
    · exact fun c hc => List.all_eq_true.mp List.all_takeWhile c hc
    · intro c hc
      have hhead := List.head?_dropWhile_not p cs
      rw [Option.mem_def.mp hc] at hhead
      simpa using hhead
  · rintro ⟨rfl, hfirst, hrest⟩
    rw [List.takeWhile_append_of_pos hfirst, List.dropWhile_append_of_pos hfirst]
    cases rest with
    | nil => simp
    | cons c more => simp [hrest c rfl]

theorem Text.takeWhile_append_of_head? {p : Char → Bool} {t after : List Char}
    (h : ∀ c ∈ after.head?, p c = false) : (t ++ after).takeWhile p = t.takeWhile p := by
  induction t with
  | nil =>
    cases after with
    | nil => rfl
    | cons c rest => exact List.takeWhile_cons_of_neg (Bool.eq_false_iff.mp (h c rfl))
  | cons c t ih => rw [List.cons_append, List.takeWhile_cons, List.takeWhile_cons, ih]

namespace Directive

variable {line body name after : List Char}

def gaps : List (List Char) := [[], [' '], ['\t']]

/-- The line is a comment with the text behind an at sign. -/
def Marked (line body : List Char) : Prop :=
  ∃ gap ∈ gaps, line = '/' :: '/' :: (gap ++ '@' :: body)

/-- The line names the file: it has a space behind its colon, and the name is the rest of the line
without the blanks at its end. -/
def NamesFile (line : List Char) (name : String) : Prop :=
  ∃ text, text ≠ [] ∧ Marked line (fileFlag.toList ++ ':' :: ' ' :: text) ∧
    name = String.ofList (Text.stripRight text)

theorem isGap_iff (c : Char) : isGap c = true ↔ c = ' ' ∨ c = '\t' := by
  simp [isGap]

theorem marked_of_afterSlashes? (h : afterSlashes? line = some ('@' :: body)) : Marked line body := by
  unfold afterSlashes? at h
  split at h
  · next c rest =>
    by_cases hgap : isGap c = true
    · rw [if_pos hgap] at h
      obtain rfl := Option.some.inj h
      rcases (isGap_iff c).mp hgap with rfl | rfl
      · exact ⟨[' '], by simp [gaps], rfl⟩
      · exact ⟨['\t'], by simp [gaps], rfl⟩
    · rw [if_neg hgap] at h
      rw [Option.some.inj h]
      exact ⟨[], by simp [gaps], rfl⟩
  · cases h
  · cases h

theorem afterSlashes?_of_marked (h : Marked line body) : afterSlashes? line = some ('@' :: body) := by
  obtain ⟨gap, hgap, rfl⟩ := h
  simp only [gaps, List.mem_cons, List.not_mem_nil, or_false] at hgap
  rcases hgap with rfl | rfl | rfl <;> rfl

theorem afterAt?_eq_some_iff : afterAt? line = some body ↔ Marked line body := by
  constructor
  · intro h
    unfold afterAt? at h
    split at h
    · next rest hslashes =>
      obtain rfl : rest = body := Option.some.inj h
      exact marked_of_afterSlashes? hslashes
    · cases h
  · intro h
    simp [afterAt?, afterSlashes?_of_marked h]

theorem flagName?_eq_some_iff :
    flagName? line = some (name, after) ↔ Marked line (name ++ after) ∧ name ≠ [] ∧
      (∀ c ∈ name, Text.isWordChar c = true) ∧ ∀ c ∈ after.head?, Text.isWordChar c = false := by
  constructor
  · intro h
    unfold flagName? at h
    split at h
    · next body hbody =>
      dsimp only at h
      split at h
      · cases h
      · next hne =>
        obtain ⟨hname, hafter⟩ := Prod.mk.inj (Option.some.inj h)
        obtain ⟨rfl, hwords, hrest⟩ := Text.takeWhile_dropWhile_iff.mp ⟨hname, hafter⟩
        refine ⟨afterAt?_eq_some_iff.mp hbody, ?_, hwords, hrest⟩
        intro hempty
        apply hne
        rw [hname, hempty]
        rfl
    · cases h
  · rintro ⟨hbody, hname, hwords, hafter⟩
    obtain ⟨htake, hdrop⟩ := Text.takeWhile_dropWhile_iff.mpr ⟨rfl, hwords, hafter⟩
    simp [flagName?, afterAt?_eq_some_iff.mpr hbody, htake, hdrop, hname]

theorem not_word_of_head {c : Char} (hc : Text.isWordChar c = false) (rest : List Char) :
    ∀ d ∈ (c :: rest).head?, Text.isWordChar d = false := by
  intro d hd
  obtain rfl : c = d := Option.some.inj hd
  exact hc

theorem bare?_eq_some_iff {flag : String} :
    bare? line = some flag ↔
      ∃ after, flagName? line = some (flag.toList, after) ∧ (after = [] ∨ after = ['\r']) := by
  unfold bare?
  constructor
  · intro h
    split at h
    · next name after hname =>
      split at h
      · next hafter =>
        rw [← Option.some.inj h, String.toList_ofList]
        exact ⟨after, hname, hafter⟩
      · cases h
    · cases h
  · rintro ⟨after, hname, hafter⟩
    simp [hname, hafter]

theorem valued?_eq_some_iff {flag value : String} :
    valued? line = some (flag, value) ↔
      ∃ text, text ≠ [] ∧ flagName? line = some (flag.toList, ':' :: text) ∧
        value = String.ofList (Text.strip text) := by
  unfold valued?
  constructor
  · intro h
    split at h
    · next name c text hname =>
      obtain ⟨rfl, rfl⟩ := Prod.mk.inj (Option.some.inj h)
      rw [String.toList_ofList]
      exact ⟨c :: text, List.cons_ne_nil c text, hname, rfl⟩
    · cases h
  · rintro ⟨text, htext, hname, rfl⟩
    obtain ⟨c, rest, rfl⟩ := List.exists_cons_of_ne_nil htext
    simp [hname]

def flag? (line : List Char) : Option (String × String) :=
  (valued? line).filter fun x => x.1 != fileFlag

theorem fileName?_eq_some_iff {file : String} : fileName? line = some file ↔ NamesFile line file := by
  unfold fileName? NamesFile
  constructor
  · intro h
    split at h
    · next body hbody =>
      dsimp only at h
      split at h
      · next hopen =>
        obtain ⟨hstart, hname⟩ := Bool.and_eq_true_iff.mp hopen
        obtain ⟨text, rfl⟩ := List.isPrefixOf_iff_prefix.mp hstart
        rw [List.drop_left] at h hname
        refine ⟨text, by simpa using hname, ?_, (Option.some.inj h).symm⟩
        have hmarked := afterAt?_eq_some_iff.mp hbody
        simpa using hmarked
      · cases h
    · cases h
  · rintro ⟨text, htext, hmarked, rfl⟩
    have hopening : fileFlag.toList ++ ':' :: ' ' :: text = (fileFlag.toList ++ [':', ' ']) ++ text := by
      simp
    rw [hopening] at hmarked
    rw [afterAt?_eq_some_iff.mpr hmarked]
    simp [htext]

end Directive

end Marginalia
