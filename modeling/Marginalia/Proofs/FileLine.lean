import Marginalia.Proofs.FlagLine
import Marginalia.Proofs.Partition

/-!
# Flag lines and file lines

Two readers of a sample know the file flag: the one that looks for flags passes its lines over, and
the one that cuts the sample into sections opens a section there.  The first wants something behind
the colon, the second a space and then something, and a line without a colon is a flag for the first.
-/

namespace Marginalia
set_option autoImplicit false

namespace Directive
variable {line after : List Char}

theorem isName_fileFlag : IsName fileFlag where
  nonempty := by decide
  words := List.all_eq_true.mp (by decide)

theorem flagName?_fileFlag_iff (hafter : ∀ c ∈ after.head?, Text.isWordChar c = false) :
    flagName? line = some (fileFlag.toList, after) ↔ Marked line (fileFlag.toList ++ after) := by
  rw [flagName?_eq_some_iff_isName hafter, and_iff_right isName_fileFlag]

theorem bare?_fileFlag_iff :
    bare? line = some fileFlag ↔
      ∃ ending, (ending = [] ∨ ending = ['\r']) ∧ Marked line (fileFlag.toList ++ ending) := by
  rw [bare?_eq_some_iff_marked]
  exact exists_congr fun ending => and_iff_right isName_fileFlag

theorem valued?_fileFlag_iff :
    (∃ value, valued? line = some (fileFlag, value)) ↔
      ∃ text, text ≠ [] ∧ Marked line (fileFlag.toList ++ ':' :: text) := by
  constructor
  · rintro ⟨value, hvalue⟩
    obtain ⟨text, htext, hname, -⟩ := valued?_eq_some_iff.mp hvalue
    exact ⟨text, htext, (flagName?_fileFlag_iff (not_word_of_colon text)).mp hname⟩
  · rintro ⟨text, htext, hmarked⟩
    have hname := (flagName?_fileFlag_iff (not_word_of_colon text)).mpr hmarked
    exact ⟨_, valued?_eq_some_iff.mpr ⟨text, htext, hname, rfl⟩⟩

end Directive

namespace Flag
variable {v : Vocabulary} {code : List Char} {l : Line}

/-- The line is written as a flag line with a value, but no flag is read off it. -/
def PassedOver (code : List Char) (l : Line) : Prop :=
  ∃ x, (l, x) ∈ Line.select Directive.valued? code ∧ (l, x) ∉ valuedLines code

theorem passedOver_iff :
    PassedOver code l ↔ l ∈ Line.all code ∧
      ∃ text, text ≠ [] ∧ Directive.Marked l.text (Directive.fileFlag.toList ++ ':' :: text) := by
  rw [← Directive.valued?_fileFlag_iff]
  constructor
  · rintro ⟨⟨name, value⟩, hselect, hleft⟩
    have hname : name = Directive.fileFlag := by
      by_cases hname : name = Directive.fileFlag
      · exact hname
      · exact absurd (List.mem_filter.mpr ⟨hselect, by simpa using hname⟩) hleft
    obtain ⟨hl, hvalued⟩ := Line.mem_select_iff.mp hselect
    rw [hname] at hvalued
    exact ⟨hl, value, hvalued⟩
  · rintro ⟨hl, value, hvalued⟩
    refine ⟨(Directive.fileFlag, value), Line.mem_select_iff.mpr ⟨hl, hvalued⟩, ?_⟩
    simp [valuedLines]

theorem name_of_parse {name : String} {value : Value} {span : Span} {f : Flag}
    (h : parse v name value span = .ok f) :
    (f.name = name ∧ (name ∈ v.tags ∨ v.declaration? name = none)) ∨
      ∃ d ∈ v.declarations, f.name = d.name := by
  obtain ⟨place, hread, rfl⟩ := Outcome.map_eq_ok.mp h
  unfold read at hread
  split at hread
  · next htag =>
    rw [← Except.ok.inj hread]
    exact Or.inl ⟨rfl, Or.inl (List.contains_iff_mem.mp htag)⟩
  · split at hread
    · next d hfound =>
      obtain ⟨_, _, rfl⟩ := Outcome.map_eq_ok.mp hread
      exact Or.inr ⟨d, List.mem_of_find?_eq_some hfound, rfl⟩
    · next hnone =>
      split at hread
      · obtain ⟨_, _, rfl⟩ := Outcome.map_eq_ok.mp hread
        exact Or.inl ⟨rfl, Or.inr hnone⟩
      · rw [← Except.ok.inj hread]
        exact Or.inl ⟨rfl, Or.inr hnone⟩

section Foreign
variable (htags : Directive.fileFlag ∉ v.tags)
  (hdeclarations : ∀ d ∈ v.declarations, d.name ≠ Directive.fileFlag)

include htags hdeclarations in
/-- Without tags and declarations of that name, the file flag is a flag only where no colon follows
it.  A declaration that differs from it in case takes such a flag over. -/
theorem named_fileFlag_iff {flags : List Flag} (h : findAll v code = .ok flags) :
    (∃ f ∈ flags, f.name = Directive.fileFlag) ↔
      v.declaration? Directive.fileFlag = none ∧
        ∃ l ∈ Line.all code, Directive.bare? l.text = some Directive.fileFlag := by
  constructor
  · rintro ⟨f, hf, hname⟩
    -- Neither a tag nor a declaration has the name, so it is the one on the line.
    have hsource : ∀ {name : String} {value : Value} {span : Span},
        parse v name value span = .ok f →
          name = Directive.fileFlag ∧ v.declaration? Directive.fileFlag = none := by
      intro name value span hparse
      rcases name_of_parse hparse with ⟨hsame, htag | hnone⟩ | ⟨d, hd, hsame⟩
      · exact absurd (hsame.symm.trans hname ▸ htag) htags
      · rw [← hsame, hname] at hnone ⊢
        exact ⟨rfl, hnone⟩
      · exact absurd (hsame.symm.trans hname) (hdeclarations d hd)
    rcases (mem_findAll_iff h).mp hf with ⟨⟨l, name⟩, hmem, hparse⟩ | ⟨⟨l, name, value⟩, hmem, hparse⟩
    · obtain ⟨rfl, hnone⟩ := hsource hparse
      exact ⟨hnone, l, Line.mem_select_iff.mp hmem⟩
    · obtain ⟨rfl, -⟩ := hsource hparse
      simp [valuedLines] at hmem
  · rintro ⟨hnone, l, hl, hbare⟩
    have hparse : parse v Directive.fileFlag (.bool true) l.span =
        .ok ⟨.unknown, Directive.fileFlag, .bool true, l.span⟩ := by
      have hspelling : Behaviour.Field.ofSpelling? Directive.fileFlag = none := by decide
      have htag : v.tags.contains Directive.fileFlag = false := by simpa using htags
      simp only [parse, read, htag, hnone, hspelling]
      rfl
    have hmem : (l, Directive.fileFlag) ∈ bareLines code := Line.mem_select_iff.mpr ⟨hl, hbare⟩
    exact ⟨_, (mem_findAll_iff h).mpr (Or.inl ⟨_, hmem, hparse⟩), rfl⟩

end Foreign

end Flag

namespace Section
variable {code : List Char} {defaultName root : String} {l : Line}

theorem exists_openedBy_iff (hl : l ∈ Line.all code) :
    (∃ s ∈ split code defaultName root, s.OpenedBy l) ↔ ∃ name, Directive.NamesFile l.text name := by
  constructor
  · rintro ⟨s, -, hopened⟩
    exact ⟨s.filename, hopened.names⟩
  · rintro ⟨name, hnames⟩
    obtain ⟨-, hopening⟩ := openings_openedBy root (List.nil_append (fileLines code)).symm
    obtain ⟨s, hs, hopened⟩ := hopening (l, name) (mem_fileLines_iff.mpr ⟨hl, hnames⟩)
    rw [split_eq]
    exact ⟨s, List.mem_append_right _ hs, hopened⟩

/-- Where the two readers of the file flag agree.  A line is passed over as a flag exactly if something
follows the colon of its file flag, and it opens a section exactly if it is passed over and what
follows is a space and more.  A flag has the name of the file flag exactly if a line has the file
flag without a colon and the schema does not declare it in another case. -/
theorem opened_iff_passedOver (v : Flag.Vocabulary) (htags : Directive.fileFlag ∉ v.tags)
    (hdeclarations : ∀ d ∈ v.declarations, d.name ≠ Directive.fileFlag) (code : List Char)
    (defaultName root : String) :
    (∀ l ∈ Line.all code,
      (Flag.PassedOver code l ↔ ∃ text, text ≠ [] ∧
        Directive.Marked l.text (Directive.fileFlag.toList ++ ':' :: text)) ∧
      ((∃ s ∈ split code defaultName root, s.OpenedBy l) ↔ Flag.PassedOver code l ∧
        ∃ text, text ≠ [] ∧
          Directive.Marked l.text (Directive.fileFlag.toList ++ ':' :: ' ' :: text))) ∧
    ∀ flags, Flag.findAll v code = .ok flags →
      ((∃ f ∈ flags, f.name = Directive.fileFlag) ↔
        v.declaration? Directive.fileFlag = none ∧ ∃ l ∈ Line.all code,
          ∃ ending, (ending = [] ∨ ending = ['\r']) ∧
            Directive.Marked l.text (Directive.fileFlag.toList ++ ending)) := by
  constructor
  · intro l hl
    have hpassed : Flag.PassedOver code l ↔ _ := Flag.passedOver_iff
    rw [and_iff_right hl] at hpassed
    refine ⟨hpassed, ?_⟩
    rw [exists_openedBy_iff hl, hpassed]
    constructor
    · rintro ⟨name, text, htext, hmarked, -⟩
      exact ⟨⟨' ' :: text, List.cons_ne_nil _ _, hmarked⟩, text, htext, hmarked⟩
    · rintro ⟨-, text, htext, hmarked⟩
      exact ⟨_, text, htext, hmarked, rfl⟩
  · intro flags hflags
    rw [Flag.named_fileFlag_iff htags hdeclarations hflags]
    simp only [Directive.bare?_fileFlag_iff]

theorem opened_iff_passedOver_example :
    let v : Flag.Vocabulary := ⟨["log"], [Schema.plain .boolean "strict"]⟩
    let code := "// @filename\n// @filename: a.ts\nlet a\n".toList
    (∃ s ∈ split code "index.ts" "/", s.OpenedBy ⟨13, "// @filename: a.ts".toList⟩) ∧
      ∃ flags, Flag.findAll v code = .ok flags ∧ ∃ f ∈ flags, f.name = Directive.fileFlag := by
  intro v code
  obtain ⟨hlines, hflags⟩ := opened_iff_passedOver v (by decide) (by decide) code "index.ts" "/"
  constructor
  · obtain ⟨hpassed, hopened⟩ := hlines ⟨13, "// @filename: a.ts".toList⟩ (by decide +kernel)
    have hmarked : Directive.Marked "// @filename: a.ts".toList
        (Directive.fileFlag.toList ++ ':' :: ' ' :: "a.ts".toList) := ⟨[' '], by decide, by decide⟩
    refine hopened.mpr ⟨hpassed.mpr ⟨_, ?_, hmarked⟩, "a.ts".toList, by decide, hmarked⟩
    exact List.cons_ne_nil _ _
  · have hfound : (Flag.findAll v code).toOption.isSome := by decide +kernel
    obtain ⟨flags, hfound⟩ := Option.isSome_iff_exists.mp hfound
    have hok := Outcome.eq_ok_of_toOption hfound
    refine ⟨flags, hok, (hflags flags hok).mpr ⟨?_, ⟨0, "// @filename".toList⟩, by decide +kernel, ?_⟩⟩
    · rw [← Option.not_isSome_iff_eq_none]
      decide +kernel
    · exact ⟨[], Or.inl rfl, [' '], by decide, by decide⟩

/-- A line with nothing but the file flag is read as a flag, and a line without a space behind the
colon is passed over without opening a section. -/
theorem opened_iff_passedOver_counterexample :
    (∃ flags, Flag.findAll ⟨[], Schema.defaultDeclarations⟩ "// @filename\n".toList = .ok flags ∧
      ∃ f ∈ flags, f.name = Directive.fileFlag) ∧
    (let code := "// @filename:a.ts\nlet a\n".toList
      let l : Line := ⟨0, "// @filename:a.ts".toList⟩
      Flag.PassedOver code l ∧ ¬ ∃ s ∈ split code "index.ts" "/", s.OpenedBy l) := by
  constructor
  · have hnames : ((Flag.findAll ⟨[], Schema.defaultDeclarations⟩ "// @filename\n".toList).toOption.map
        fun flags => flags.any fun f => f.name == Directive.fileFlag) = some true := by
      decide +kernel
    obtain ⟨flags, hok, hany⟩ := Outcome.exists_ok_of_toOption_map hnames
    obtain ⟨f, hf, hname⟩ := List.any_eq_true.mp hany
    exact ⟨flags, hok, f, hf, beq_iff_eq.mp hname⟩
  · intro code l
    have hl : l ∈ Line.all code := by decide +kernel
    constructor
    · exact Flag.passedOver_iff.mpr ⟨hl, "a.ts".toList, by decide, [' '], by decide, by decide⟩
    · rw [exists_openedBy_iff hl]
      rintro ⟨name, hnames⟩
      have hnone : Directive.fileName? l.text = none := by decide +kernel
      rw [Directive.fileName?_eq_some_iff.mpr hnames] at hnone
      cases hnone

end Section

end Marginalia
