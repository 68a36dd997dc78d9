import Mathlib.Data.List.Forall2
import Marginalia.Proofs.Directive
import Marginalia.Proofs.Removal
import Marginalia.Schema.Defaults

/-!
# Flags line by line

Flags without a value are read before those with one, and then all of them are put into the order of
their places.  When all can be read, this comes to one pass over the lines: a line of the form of a
flag line gives one flag, and no other line gives any.
-/

namespace Marginalia
set_option autoImplicit false

/-! ## What a line gives -/

namespace Directive
variable {line : List Char} {name : String} {value : Value}

/-- What may be the name of a flag. -/
structure IsName (name : String) : Prop where
  nonempty : name.toList ≠ []
  words : ∀ c ∈ name.toList, Text.isWordChar c = true

/-- The line is a flag line with this name and this value.  A name alone, behind which a carriage
return may stand, is switched on.  The value behind a colon is what stands there without the blanks
around it; a file line gives no flag. -/
inductive Gives (line : List Char) (name : String) : Value → Prop where
  | bare (ending : List Char) (hname : IsName name) (hending : ending = [] ∨ ending = ['\r'])
      (hmarked : Marked line (name.toList ++ ending)) : Gives line name (.bool true)
  | valued (text : List Char) (hname : IsName name) (hfile : name ≠ fileFlag) (htext : text ≠ [])
      (hmarked : Marked line (name.toList ++ ':' :: text)) :
      Gives line name (.str (String.ofList (Text.strip text)))

def given? (line : List Char) : Option (String × Value) :=
  ((bare? line).map fun name => (name, .bool true)).or
    ((flag? line).map fun x => (x.1, .str x.2))

theorem flagName?_eq_some_iff_isName {after : List Char}
    (hafter : ∀ c ∈ after.head?, Text.isWordChar c = false) :
    flagName? line = some (name.toList, after) ↔
      IsName name ∧ Marked line (name.toList ++ after) := by
  rw [flagName?_eq_some_iff]
  constructor
  · rintro ⟨hmarked, hname, hwords, -⟩
    exact ⟨⟨hname, hwords⟩, hmarked⟩
  · rintro ⟨⟨hname, hwords⟩, hmarked⟩
    exact ⟨hmarked, hname, hwords, hafter⟩

theorem not_word_of_ending {ending : List Char} (h : ending = [] ∨ ending = ['\r']) :
    ∀ c ∈ ending.head?, Text.isWordChar c = false := by
  have hreturn : Text.isWordChar '\r' = false := by decide
  rcases h with rfl | rfl
  · simp
  · exact not_word_of_head hreturn []

theorem not_word_of_colon (text : List Char) :
    ∀ c ∈ (':' :: text).head?, Text.isWordChar c = false := by
  have hcolon : Text.isWordChar ':' = false := by decide
  exact not_word_of_head hcolon text

theorem bare?_eq_some_iff_marked :
    bare? line = some name ↔ ∃ ending, IsName name ∧ (ending = [] ∨ ending = ['\r']) ∧
      Marked line (name.toList ++ ending) := by
  rw [bare?_eq_some_iff]
  apply exists_congr
  intro ending
  constructor
  · rintro ⟨hname, hending⟩
    obtain ⟨hword, hmarked⟩ := (flagName?_eq_some_iff_isName (not_word_of_ending hending)).mp hname
    exact ⟨hword, hending, hmarked⟩
  · rintro ⟨hword, hending, hmarked⟩
    exact ⟨(flagName?_eq_some_iff_isName (not_word_of_ending hending)).mpr ⟨hword, hmarked⟩, hending⟩

theorem flag?_eq_some_iff {text : String} :
    flag? line = some (name, text) ↔ ∃ behind, IsName name ∧ name ≠ fileFlag ∧ behind ≠ [] ∧
      Marked line (name.toList ++ ':' :: behind) ∧ text = String.ofList (Text.strip behind) := by
  unfold flag?
  rw [Option.filter_eq_some_iff, valued?_eq_some_iff]
  constructor
  · rintro ⟨⟨behind, hbehind, hname, rfl⟩, hfile⟩
    obtain ⟨hword, hmarked⟩ := (flagName?_eq_some_iff_isName (not_word_of_colon behind)).mp hname
    exact ⟨behind, hword, by simpa using hfile, hbehind, hmarked, rfl⟩
  · rintro ⟨behind, hword, hfile, hbehind, hmarked, rfl⟩
    have hname := (flagName?_eq_some_iff_isName (not_word_of_colon behind)).mpr ⟨hword, hmarked⟩
    exact ⟨⟨behind, hbehind, hname, rfl⟩, by simpa using hfile⟩

theorem bare?_eq_none_or (line : List Char) : bare? line = none ∨ flag? line = none := by
  -- Behind the name stands an end or a colon, never both.
  cases hbare : bare? line with
  | none => exact Or.inl rfl
  | some name =>
    apply Or.inr
    obtain ⟨after, hname, hafter⟩ := bare?_eq_some_iff.mp hbare
    unfold flag? valued?
    rw [hname]
    rcases hafter with rfl | rfl <;> rfl

theorem given?_eq_some_iff : given? line = some (name, value) ↔ Gives line name value := by
  unfold given?
  constructor
  · intro h
    rcases Option.or_eq_some_iff.mp h with h | ⟨-, h⟩
    · obtain ⟨_, hbare, h⟩ := Option.map_eq_some_iff.mp h
      obtain ⟨rfl, rfl⟩ := Prod.mk.inj h
      obtain ⟨ending, hname, hending, hmarked⟩ := bare?_eq_some_iff_marked.mp hbare
      exact .bare ending hname hending hmarked
    · obtain ⟨⟨_, _⟩, hflag, h⟩ := Option.map_eq_some_iff.mp h
      obtain ⟨rfl, rfl⟩ := Prod.mk.inj h
      obtain ⟨text, hname, hfile, htext, hmarked, rfl⟩ := flag?_eq_some_iff.mp hflag
      exact .valued text hname hfile htext hmarked
  · intro h
    cases h with
    | bare ending hname hending hmarked =>
      rw [bare?_eq_some_iff_marked.mpr ⟨ending, hname, hending, hmarked⟩]
      rfl
    | valued text hname hfile htext hmarked =>
      have hflag := flag?_eq_some_iff.mpr ⟨text, hname, hfile, htext, hmarked, rfl⟩
      have hbare : bare? line = none := by
        rcases bare?_eq_none_or line with hnone | hnone
        · exact hnone
        · rw [hflag] at hnone
          cases hnone
      rw [hbare, hflag]
      rfl

end Directive

/-! ## One pass over the lines -/

theorem Outcome.forall₂_of_mapM {ε α β : Type} {f : α → Except ε β} {xs : List α} {ys : List β}
    (h : xs.mapM f = .ok ys) : List.Forall₂ (fun x y => f x = .ok y) xs ys := by
  induction xs generalizing ys with
  | nil =>
    cases h
    exact .nil
  | cons x xs ih =>
    obtain ⟨y, rest, hy, hrest, rfl⟩ := mapM_cons_eq_ok.mp h
    exact .cons hy (ih hrest)

theorem List.filterMap_or_perm {α β : Type} {f g : α → Option β}
    (h : ∀ a, f a = none ∨ g a = none) (xs : List α) :
    (xs.filterMap f ++ xs.filterMap g).Perm (xs.filterMap fun a => (f a).or (g a)) := by
  induction xs with
  | nil => exact .nil
  | cons a xs ih =>
    simp only [List.filterMap_cons]
    cases hf : f a with
    | none =>
      cases hg : g a with
      | none => exact ih
      | some b => exact List.perm_middle.trans (ih.cons b)
    | some b =>
      have hg : g a = none := (h a).resolve_left (hf ▸ Option.some_ne_none b)
      rw [hg]
      exact ih.cons b

namespace Line

theorem map_select {α β : Type} (recognise : List Char → Option α) (g : α → β) (code : List Char) :
    (select recognise code).map (fun x => (x.1, g x.2)) =
      select (fun text => (recognise text).map g) code := by
  unfold select
  rw [List.map_filterMap]
  congr 1
  funext l
  dsimp only
  cases recognise l.text <;> rfl

theorem map_fst_select {α : Type} (recognise : List Char → Option α) (code : List Char) :
    (select recognise code).map Prod.fst = (all code).filter fun l => (recognise l.text).isSome := by
  unfold select
  induction all code with
  | nil => rfl
  | cons l rest ih =>
    cases hl : recognise l.text with
    | none => simpa [hl] using ih
    | some a => simpa [hl] using ih

theorem written_of_mem_all {code : List Char} {l : Line} (h : l ∈ all code) :
    (code.drop l.start).take (l.text.length + 1) = l.text ++ ['\n'] ∨
      code.drop l.start = l.text ∧ l.span.stop = code.length + 1 := by
  -- The last line has no line feed, and its place ends one past the sample.
  obtain ⟨front, back, rfl, hstart, -, hback⟩ := exists_of_mem_all h
  rw [← hstart, List.drop_left]
  rcases hback with rfl | ⟨rest, rfl⟩
  · refine Or.inr ⟨List.append_nil _, ?_⟩
    simp only [span, List.length_append, List.length_nil]
    omega
  · apply Or.inl
    rw [List.take_length_add_append]
    rfl

end Line

namespace Flag
variable {v : Vocabulary} {code : List Char} {flags : List Flag}

theorem valuedLines_eq (code : List Char) : valuedLines code = Line.select Directive.flag? code := by
  unfold valuedLines Line.select
  rw [List.filter_filterMap]
  apply List.filterMap_congr
  intro l _
  cases hvalued : Directive.valued? l.text with
  | none => simp [Directive.flag?, hvalued]
  | some x =>
    by_cases hname : x.1 = Directive.fileFlag
    · simp [Directive.flag?, hvalued, hname, Option.filter]
    · simp [Directive.flag?, hvalued, hname, Option.filter]

def readBare (v : Vocabulary) (code : List Char) : Except Failure (List Flag) :=
  (bareLines code).mapM fun x => parse v x.2 (.bool true) x.1.span

def readValued (v : Vocabulary) (code : List Char) : Except Failure (List Flag) :=
  (valuedLines code).mapM fun x => parse v x.2.1 (.str x.2.2) x.1.span

theorem findAll_eq (v : Vocabulary) (code : List Char) :
    findAll v code = (readBare v code >>= fun bare => readValued v code >>= fun valued =>
      .ok (Sorting.sort (fun f g => decide (f.span.start ≤ g.span.start)) (bare ++ valued))) := rfl

def givenLines (code : List Char) : List (Line × String × Value) := Line.select Directive.given? code

def readLine (v : Vocabulary) (x : Line × String × Value) : Except Failure Flag :=
  parse v x.2.1 x.2.2 x.1.span

theorem lines_perm (code : List Char) :
    ((bareLines code).map (fun x => (x.1, x.2, Value.bool true)) ++
      (valuedLines code).map fun x => (x.1, x.2.1, Value.str x.2.2)).Perm (givenLines code) := by
  rw [bareLines, valuedLines_eq, Line.map_select Directive.bare? fun name => (name, Value.bool true),
    Line.map_select Directive.flag? fun x => (x.1, Value.str x.2)]
  have hperm := List.filterMap_or_perm (α := Line)
    (f := fun l => ((Directive.bare? l.text).map fun name => (name, Value.bool true)).map fun x => (l, x))
    (g := fun l => ((Directive.flag? l.text).map fun x => (x.1, Value.str x.2)).map fun x => (l, x))
    (fun l => ?_) (Line.all code)
  · refine hperm.trans (.of_eq ?_)
    unfold givenLines Line.select Directive.given?
    congr 1
    funext l
    rw [Option.map_or]
  · rcases Directive.bare?_eq_none_or l.text with hnone | hnone
    · exact Or.inl (by rw [hnone]; rfl)
    · exact Or.inr (by rw [hnone]; rfl)

theorem givenLines_pairwise (code : List Char) :
    (givenLines code).Pairwise fun x y => x.1.start + x.1.text.length + 1 ≤ y.1.start := by
  have hpairwise := (Line.all_pairwise code).filter fun l => (Directive.given? l.text).isSome
  rw [← Line.map_fst_select, List.pairwise_map] at hpairwise
  exact hpairwise

theorem readLines_pairwise {xs : List (Line × String × Value)}
    (hxs : xs.Pairwise fun x y => x.1.start + x.1.text.length + 1 ≤ y.1.start)
    (h : xs.mapM (readLine v) = .ok flags) :
    flags.Pairwise fun f g => f.span.stop ≤ g.span.start ∧ f.span.start < g.span.start := by
  induction xs generalizing flags with
  | nil =>
    cases h
    exact .nil
  | cons x xs ih =>
    obtain ⟨f, rest, hf, hrest, rfl⟩ := Outcome.mapM_cons_eq_ok.mp h
    obtain ⟨hx, hxs⟩ := List.pairwise_cons.mp hxs
    refine List.pairwise_cons.mpr ⟨?_, ih hxs hrest⟩
    intro g hg
    obtain ⟨y, hy, hparse⟩ := Outcome.exists_of_mem_mapM hrest hg
    have hapart := hx y hy
    rw [span_of_parse hf, span_of_parse hparse]
    simp only [Line.span]
    omega

theorem readBoth_eq_ok_iff {both : List Flag} :
    ((bareLines code).map (fun x => (x.1, x.2, Value.bool true)) ++
        (valuedLines code).map fun x => (x.1, x.2.1, Value.str x.2.2)).mapM (readLine v) = .ok both ↔
      ∃ bare valued, readBare v code = .ok bare ∧ readValued v code = .ok valued ∧
        both = bare ++ valued := by
  rw [Outcome.mapM_append_eq_ok, List.mapM_map, List.mapM_map]
  rfl

theorem eq_of_start_eq (h : (givenLines code).mapM (readLine v) = .ok flags) {f g : Flag}
    (hf : f ∈ flags) (hg : g ∈ flags) (hstart : f.span.start = g.span.start) : f = g := by
  obtain ⟨⟨l, x⟩, hl, hx⟩ := Outcome.exists_of_mem_mapM h hf
  obtain ⟨⟨m, y⟩, hm, hy⟩ := Outcome.exists_of_mem_mapM h hg
  obtain ⟨hl, hgives⟩ := Line.mem_select_iff.mp hl
  obtain ⟨hm, hgives'⟩ := Line.mem_select_iff.mp hm
  rw [span_of_parse hx, span_of_parse hy] at hstart
  have hsame : l = m := by
    simp only [Line.span] at hstart
    rcases Line.eq_or_apart hl hm with hsame | happart | happart
    · exact hsame
    · omega
    · omega
  subst hsame
  obtain rfl : x = y := Option.some.inj (hgives.symm.trans hgives')
  exact Except.ok.inj (hx.symm.trans hy)

theorem readLines_of_findAll (h : findAll v code = .ok flags) :
    (givenLines code).mapM (readLine v) = .ok flags := by
  rw [findAll_eq] at h
  obtain ⟨bare, hbare, h⟩ := Outcome.bind_eq_ok.mp h
  obtain ⟨valued, hvalued, h⟩ := Outcome.bind_eq_ok.mp h
  have hboth := readBoth_eq_ok_iff.mpr ⟨bare, valued, hbare, hvalued, rfl⟩
  obtain ⟨found, hfound, hperm⟩ := Outcome.mapM_perm (lines_perm code) hboth
  have hstrict := readLines_pairwise (givenLines_pairwise code) hfound
  have hsorted := Sorting.sort_perm (fun f g : Flag => decide (f.span.start ≤ g.span.start))
    (bare ++ valued)
  have hleft : found.Pairwise fun f g : Flag => f.span.start ≤ g.span.start :=
    hstrict.imp fun hfg => Int.le_of_lt hfg.2
  have hright : (Sorting.sort (fun f g : Flag => decide (f.span.start ≤ g.span.start))
      (bare ++ valued)).Pairwise fun f g => f.span.start ≤ g.span.start := by
    refine (Sorting.sort_pairwise ?_ ?_ _).imp fun hfg => of_decide_eq_true hfg
    · intro a b c hab hbc
      exact decide_eq_true (Int.le_trans (of_decide_eq_true hab) (of_decide_eq_true hbc))
    · intro a b
      exact (Int.le_total a.span.start b.span.start).imp decide_eq_true decide_eq_true
  rw [hfound, ← h]
  apply congrArg Except.ok
  -- Both lists hold the same flags in the order of their starts, and no two of them start together.
  refine List.Perm.eq_of_pairwise ?_ hleft hright (hsorted.trans hperm).symm
  intro f g hf hg hle hge
  exact eq_of_start_eq hfound hf ((hsorted.trans hperm).mem_iff.mp hg) (Int.le_antisymm hle hge)

/-- Flags are found exactly if each flag line can be read, and they come in the order of the lines. -/
theorem findAll_eq_ok_iff :
    findAll v code = .ok flags ↔ (givenLines code).mapM (readLine v) = .ok flags := by
  refine ⟨readLines_of_findAll, fun h => ?_⟩
  obtain ⟨_, hboth, -⟩ := Outcome.mapM_perm (lines_perm code).symm h
  obtain ⟨bare, valued, hbare, hvalued, -⟩ := readBoth_eq_ok_iff.mp hboth
  have hfound : ∃ found, findAll v code = .ok found := by
    rw [findAll_eq, hbare, hvalued]
    exact ⟨_, rfl⟩
  obtain ⟨found, hfound⟩ := hfound
  rw [hfound]
  exact (readLines_of_findAll hfound).symm.trans h

/-- The flags of a sample, line by line.  When they are found, there is one for each line that is
written as a flag line and none for any other line, in the order of the lines: what the name and the
value of the line are read as, at the place of the line.  The places are whole lines, one behind the
other.  The last line has no line feed, and its place ends one past the sample. -/
theorem findAll_lines (v : Vocabulary) (code : List Char) (flags : List Flag)
    (h : findAll v code = .ok flags) :
    ∃ lines : List Line, lines.Sublist (Line.all code) ∧
      (∀ l ∈ Line.all code, l ∈ lines ↔ ∃ name value, Directive.Gives l.text name value) ∧
      List.Forall₂ (fun l f => f.span = l.span ∧ ∀ name value,
        Directive.Gives l.text name value → parse v name value l.span = .ok f) lines flags ∧
      (∀ l ∈ lines,
        (code.drop l.start).take (l.text.length + 1) = l.text ++ ['\n'] ∨
          code.drop l.start = l.text ∧ l.span.stop = code.length + 1) ∧
      flags.Pairwise fun f g => f.span.start < g.span.start ∧ f.span.stop ≤ g.span.start := by
  have hread := findAll_eq_ok_iff.mp h
  have hmem : ∀ x ∈ givenLines code, x.1 ∈ Line.all code ∧ Directive.given? x.1.text = some x.2 :=
    fun x hx => Line.mem_select_iff.mp hx
  refine ⟨(givenLines code).map Prod.fst, ?_, ?_, ?_, ?_, ?_⟩
  · unfold givenLines
    rw [Line.map_fst_select]
    exact List.filter_sublist
  · intro l hl
    constructor
    · intro hin
      obtain ⟨⟨_, name, value⟩, hx, rfl⟩ := List.mem_map.mp hin
      exact ⟨name, value, Directive.given?_eq_some_iff.mp (hmem _ hx).2⟩
    · rintro ⟨name, value, hgives⟩
      have hx := Line.mem_select_iff.mpr ⟨hl, Directive.given?_eq_some_iff.mpr hgives⟩
      exact List.mem_map_of_mem (f := Prod.fst) hx
  · rw [List.forall₂_map_left_iff]
    refine ((List.forall₂_and_left _ _).mpr ⟨hmem, Outcome.forall₂_of_mapM hread⟩).imp ?_
    rintro ⟨l, given⟩ f ⟨⟨-, hgiven⟩, hparse⟩
    refine ⟨span_of_parse hparse, fun name value hgives => ?_⟩
    obtain rfl : given = (name, value) :=
      Option.some.inj (hgiven.symm.trans (Directive.given?_eq_some_iff.mpr hgives))
    exact hparse
  · intro l hl
    obtain ⟨x, hx, rfl⟩ := List.mem_map.mp hl
    exact Line.written_of_mem_all (hmem x hx).1
  · exact (readLines_pairwise (givenLines_pairwise code) hread).imp And.symm

/-- A value, a carriage return behind a name, a file line, a flag that does not start its line, and a
last line whose colon a blank follows. -/
theorem findAll_lines_example :
    let v : Vocabulary := ⟨["log"], [Schema.plain .boolean "strict"]⟩
    let code := "// @strict:  false \n//@log\r\n// @filename: a.ts\n // @log\n// @log: ".toList
    ∃ (flags : List Flag) (lines : List Line), findAll v code = .ok flags ∧
      lines.length = flags.length ∧
      flags.map Flag.span = [⟨0, 20⟩, ⟨20, 28⟩, ⟨56, 66⟩] ∧
      ⟨0, "// @strict:  false ".toList⟩ ∈ lines ∧ ⟨28, "// @filename: a.ts".toList⟩ ∉ lines ∧
      flags.Pairwise fun f g => f.span.start < g.span.start ∧ f.span.stop ≤ g.span.start := by
  intro v code
  have hfound : ((findAll v code).toOption.map fun flags => flags.map Flag.span) =
      some [⟨0, 20⟩, ⟨20, 28⟩, ⟨56, 66⟩] := by
    decide +kernel
  obtain ⟨flags, hflags, hspans⟩ := Outcome.exists_ok_of_toOption_map hfound
  obtain ⟨lines, -, hlines, hread, -, hpairwise⟩ := findAll_lines v code flags hflags
  refine ⟨flags, lines, hflags, hread.length_eq, hspans, ?_, ?_, hpairwise⟩
  · have hsome : (Directive.given? "// @strict:  false ".toList).isSome = true := by decide +kernel
    obtain ⟨⟨name, value⟩, hgiven⟩ := Option.isSome_iff_exists.mp hsome
    refine (hlines _ (by decide +kernel)).mpr ⟨name, value, ?_⟩
    exact Directive.given?_eq_some_iff.mp hgiven
  · rw [hlines _ (by decide +kernel)]
    rintro ⟨name, value, hgives⟩
    have hnone : (Directive.given? "// @filename: a.ts".toList).isSome = false := by decide +kernel
    rw [Directive.given?_eq_some_iff.mpr hgives] at hnone
    cases hnone

end Flag

end Marginalia
