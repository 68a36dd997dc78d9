import Mathlib.Data.List.Basic
import Marginalia.Proofs.Ending
import Marginalia.Proofs.FlagLine
import Marginalia.Schema.Defaults

/-!
# Both line endings

A text that ends its lines with carriage return and line feed has the lines of the text that ends
them with line feeds only, pushed back by the carriage returns before them.  Directives are read off
both alike, with one exception: a flag line whose colon nothing follows becomes a flag.
-/

namespace Marginalia
set_option autoImplicit false

/-! ## Texts and their indices -/

namespace Text

/-- The text with a carriage return before each line feed. -/
def returned (cs : List Char) : List Char :=
  cs.flatMap fun c => if c = '\n' then ['\r', '\n'] else [c]

theorem returned_cons (c : Char) (cs : List Char) :
    returned (c :: cs) = (if c = '\n' then ['\r', '\n'] else [c]) ++ returned cs := by
  simp [returned]

theorem length_returned (cs : List Char) : (returned cs).length = cs.length + cs.count '\n' := by
  induction cs with
  | nil => rfl
  | cons c cs ih =>
    rw [returned_cons, List.length_append, ih]
    by_cases hc : c = '\n'
    · simp [hc]
      omega
    · simp [hc]
      omega

def withReturns : List (List Char) → List (List Char)
  | [] => []
  | [piece] => [piece]
  | piece :: next :: rest => (piece ++ ['\r']) :: withReturns (next :: rest)

theorem withReturns_cons {pieces : List (List Char)} (h : pieces ≠ []) (piece : List Char) :
    withReturns (piece :: pieces) = (piece ++ ['\r']) :: withReturns pieces := by
  obtain ⟨next, rest, rfl⟩ := List.exists_cons_of_ne_nil h
  rfl

theorem splitOn_returned (cs : List Char) :
    splitOn '\n' (returned cs) = withReturns (splitOn '\n' cs) := by
  induction cs with
  | nil => rfl
  | cons c cs ih =>
    rw [returned_cons]
    by_cases hc : c = '\n'
    · rw [if_pos hc, List.cons_append, List.singleton_append]
      simp [splitOn, hc, ih, withReturns_cons (splitOn_ne_nil '\n' cs)]
    · rw [if_neg hc, List.singleton_append]
      simp only [splitOn, if_neg hc, ih]
      cases hpieces : splitOn '\n' cs with
      | nil => exact absurd hpieces (splitOn_ne_nil '\n' cs)
      | cons piece pieces =>
        cases pieces with
        | nil => rfl
        | cons next rest => rfl

/-- Where an index comes to stand when carriage returns are put before line feeds. -/
def pushed (cs : List Char) (i : Int) : Int := i + (cs.take i.toNat).count '\n'

theorem pushed_lt_iff (cs : List Char) (i j : Int) : pushed cs i < pushed cs j ↔ i < j := by
  have hcount : ∀ {i j : Int}, i ≤ j →
      (cs.take i.toNat).count '\n' ≤ (cs.take j.toNat).count '\n' := by
    intro i j hij
    exact (List.take_sublist_take_left (by omega)).count_le '\n'
  unfold pushed
  rcases Int.lt_or_le i j with hij | hij
  · have hle := hcount (Int.le_of_lt hij)
    omega
  · have hle := hcount hij
    omega

theorem pushed_le_iff (cs : List Char) (i j : Int) : pushed cs i ≤ pushed cs j ↔ i ≤ j := by
  have hlt := pushed_lt_iff cs j i
  omega

end Text

namespace Span

def pushed (cs : List Char) (s : Span) : Span := ⟨Text.pushed cs s.start, Text.pushed cs s.stop⟩

theorem contains_pushed (cs : List Char) (s : Span) (i : Int) :
    (s.pushed cs).contains (Text.pushed cs i) = s.contains i := by
  apply Bool.eq_iff_iff.mpr
  simp only [contains_iff, pushed, Text.pushed_le_iff, Text.pushed_lt_iff]

theorem covered_pushed (cs : List Char) (spans : List Span) (i : Int) :
    covered (spans.map (pushed cs)) (Text.pushed cs i) = covered spans i := by
  simp only [covered, List.any_map, Function.comp_def, contains_pushed]

end Span

/-! ## Lines -/

namespace Line
variable {code : List Char} {l : Line}

def Fed (code : List Char) (l : Line) : Prop := l.start + l.text.length < code.length

instance (code : List Char) (l : Line) : Decidable (Fed code l) :=
  inferInstanceAs (Decidable (_ < _))

/-- The line as it is found in the text with carriage returns. -/
def returned (code : List Char) (l : Line) : Line :=
  ⟨l.start + (code.take l.start).count '\n', if Fed code l then l.text ++ ['\r'] else l.text⟩

theorem start_returned (code : List Char) (l : Line) :
    ((l.returned code).start : Int) = Text.pushed code l.start := by
  simp [returned, Text.pushed]

theorem returned_start_lt_iff (code : List Char) (l m : Line) :
    (l.returned code).start < (m.returned code).start ↔ l.start < m.start := by
  have hpushed := Text.pushed_lt_iff code l.start m.start
  rw [← start_returned, ← start_returned] at hpushed
  omega

theorem count_take_of_mem_all (h : l ∈ all code) :
    (code.take (l.start + l.text.length + 1)).count '\n' =
      (code.take l.start).count '\n' + if Fed code l then 1 else 0 := by
  obtain ⟨front, back, hcode, hstart, hfeed, hback⟩ := exists_of_mem_all h
  have hfront : code.take l.start = front := by
    rw [hcode, ← hstart, List.take_left]
  have hthrough : code.take (l.start + l.text.length + 1) = front ++ (l.text ++ back.take 1) := by
    rw [hcode, ← hstart, Nat.add_assoc, List.take_length_add_append, List.take_length_add_append]
  have hfed : Fed code l ↔ back ≠ [] := by
    rw [Fed, hcode, ← List.length_pos_iff, List.length_append, List.length_append]
    omega
  rw [hfront, hthrough, List.count_append, List.count_append, List.count_eq_zero.mpr hfeed]
  rcases hback with rfl | ⟨rest, rfl⟩
  · simp [hfed]
  · simp [hfed]

theorem span_returned (h : l ∈ all code) : (l.returned code).span = l.span.pushed code := by
  have hcount := count_take_of_mem_all h
  have hstop : ((l.start : Int) + l.text.length + 1).toNat = l.start + l.text.length + 1 := by omega
  simp only [span, returned, Span.pushed, Text.pushed, Span.mk.injEq, hstop, hcount, Int.toNat_natCast]
  by_cases hfed : Fed code l
  · simp [hfed]
    omega
  · simp [hfed]
    omega

theorem place_withReturns {before : List Char} {texts : List (List Char)} (hne : texts ≠ [])
    (hfeeds : ∀ text ∈ texts, '\n' ∉ text)
    (hcode : code = before ++ (Position.withFeeds texts).flatten) :
    place (before.length + before.count '\n') (Text.withReturns texts) =
      (place before.length texts).map (returned code) := by
  -- The text as a whole stays; what has been read moves from the lines to `before`.
  induction texts generalizing before with
  | nil => exact absurd rfl hne
  | cons text rest ih =>
    have hbefore : code.take before.length = before := by
      rw [hcode, List.take_left]
    cases rest with
    | nil =>
      have hlast : ¬ Fed code ⟨before.length, text⟩ := by
        simp [Fed, hcode, Position.withFeeds]
      simp [Text.withReturns, place, returned, hbefore, hlast]
    | cons next more =>
      have hfed : Fed code ⟨before.length, text⟩ := by
        simp [Fed, hcode, Position.withFeeds]
      have hlater := ih (List.cons_ne_nil next more)
        (fun t ht => hfeeds t (List.mem_cons_of_mem text ht))
        (show code = (before ++ (text ++ ['\n'])) ++ (Position.withFeeds (next :: more)).flatten by
          simp [hcode, Position.withFeeds])
      have hcount : (before ++ (text ++ ['\n'])).count '\n' = before.count '\n' + 1 := by
        simp [List.count_eq_zero.mpr (hfeeds text List.mem_cons_self)]
      have hlength : (before ++ (text ++ ['\n'])).length = before.length + text.length + 1 := by
        simp
        omega
      have hstart : before.length + before.count '\n' + (text ++ ['\r']).length + 1 =
          before.length + text.length + 1 + (before.count '\n' + 1) := by
        simp
        omega
      rw [hcount, hlength] at hlater
      rw [Text.withReturns, place, place, List.map_cons, hstart, hlater]
      congr 1
      simp [returned, hbefore, hfed]

theorem all_returned (code : List Char) :
    all (Text.returned code) = (all code).map (returned code) := by
  have hcode : code = [] ++ (Position.withFeeds (Text.splitOn '\n' code)).flatten :=
    (Position.flatten_linesOf code).symm
  have hplace := place_withReturns (Text.splitOn_ne_nil '\n' code)
    (fun text ht => Text.not_mem_of_mem_splitOn ht) hcode
  rw [all, Text.splitOn_returned]
  exact hplace

theorem not_mem_text {c : Char} (hc : c ∉ code) (h : l ∈ all code) : c ∉ l.text := by
  obtain ⟨front, back, hcode, -⟩ := exists_of_mem_all h
  rw [hcode] at hc
  exact fun hin => hc (by simp [hin])

theorem select_returned {α : Type} {recognise : List Char → Option α}
    (h : ∀ l ∈ all code, Fed code l → recognise (l.text ++ ['\r']) = recognise l.text) :
    select recognise (Text.returned code) =
      (select recognise code).map fun x => (x.1.returned code, x.2) := by
  unfold select
  rw [all_returned, List.filterMap_map, List.map_filterMap]
  apply List.filterMap_congr
  intro l hl
  have htext : recognise (l.returned code).text = recognise l.text := by
    by_cases hfed : Fed code l
    · simp [returned, hfed, h l hl hfed]
    · simp [returned, hfed]
  simp [htext, Function.comp_def]

/-- The numbers of the lines that spans cover. -/
def numbers (code : List Char) (spans : List Span) : List Nat :=
  ((all code).zipIdx.filter fun x => Span.covered spans x.1.start).map Prod.snd

theorem mem_numbers_iff {spans : List Span} {k : Nat} :
    k ∈ numbers code spans ↔ ∃ l, (all code)[k]? = some l ∧ Span.covered spans l.start = true := by
  simp only [numbers, List.mem_map, List.mem_filter, List.mem_zipIdx_iff_getElem?, Prod.exists]
  constructor
  · rintro ⟨l, _, ⟨hl, hcovered⟩, rfl⟩
    exact ⟨l, hl, hcovered⟩
  · rintro ⟨l, hl, hcovered⟩
    exact ⟨l, k, ⟨hl, hcovered⟩, rfl⟩

theorem numbers_returned (code : List Char) (spans : List Span) :
    numbers (Text.returned code) (spans.map (Span.pushed code)) = numbers code spans := by
  have hcovered : ∀ l : Line, Span.covered (spans.map (Span.pushed code)) (l.returned code).start =
      Span.covered spans l.start := by
    intro l
    rw [start_returned, Span.covered_pushed]
  unfold numbers
  rw [all_returned, List.zipIdx_map, List.filter_map, List.map_map]
  simp only [Function.comp_def, Prod.map, hcovered, id]

end Line

/-! ## Flags -/

namespace Flag
variable {v : Vocabulary} {code : List Char}

def pushed (code : List Char) (f : Flag) : Flag := { f with span := f.span.pushed code }

theorem parse_pushed (name : String) (value : Value) (span : Span) :
    parse v name value (span.pushed code) = (parse v name value span).map (pushed code) := by
  unfold parse read
  split
  · rfl
  · split
    · next d _ =>
      cases d.coerce value with
      | ok coerced => rfl
      | error e => rfl
    · split
      · next f _ =>
        cases f.coerce value with
        | ok coerced => rfl
        | error e => rfl
      · rfl

theorem mapM_select_returned {α : Type} {recognise : List Char → Option α}
    (h : ∀ l ∈ Line.all code, l.Fed code → recognise (l.text ++ ['\r']) = recognise l.text)
    (name : α → String) (value : α → Value) :
    ((Line.select recognise (Text.returned code)).mapM fun x =>
        parse v (name x.2) (value x.2) x.1.span) =
      ((Line.select recognise code).mapM fun x =>
        parse v (name x.2) (value x.2) x.1.span).map (List.map (pushed code)) := by
  rw [Line.select_returned h, List.mapM_map, ← Outcome.mapM_map]
  apply Outcome.mapM_congr
  intro x hx
  have hl := (Line.mem_select_iff.mp hx).1
  simp only [Function.comp_apply, Line.span_returned hl, parse_pushed]

theorem findAll_returned (hreturn : '\r' ∉ code)
    (hhollow : ∀ l ∈ Line.all code, l.Fed code → ¬ Directive.Hollow l.text) :
    findAll v (Text.returned code) = (findAll v code).map (List.map (pushed code)) := by
  have hbare : readBare v (Text.returned code) = (readBare v code).map (List.map (pushed code)) :=
    mapM_select_returned (fun l hl _ => Directive.bare?_append (Line.not_mem_text hreturn hl)) id
      fun _ => .bool true
  have hvalued : readValued v (Text.returned code) =
      (readValued v code).map (List.map (pushed code)) := by
    unfold readValued
    rw [valuedLines_eq, valuedLines_eq]
    exact mapM_select_returned (fun l hl hfed => Directive.flag?_append (hhollow l hl hfed)) Prod.fst
      fun x => .str x.2
  -- Flags are sorted by their starts, and pushing them back keeps the order of these.
  have hsort : ∀ f g : Flag, decide ((pushed code f).span.start ≤ (pushed code g).span.start) =
      decide (f.span.start ≤ g.span.start) :=
    fun f g => decide_eq_decide.mpr (Text.pushed_le_iff code _ _)
  rw [findAll_eq, findAll_eq, hbare, hvalued]
  cases readBare v code with
  | error e => rfl
  | ok bare =>
    cases readValued v code with
    | error e => rfl
    | ok valued =>
      apply congrArg Except.ok
      rw [← List.map_append, Sorting.sort_map hsort]

end Flag

/-! ## Cuts and markers -/

namespace Cut
variable {code : List Char}

theorem lines_returned (hreturn : '\r' ∉ code) (mark : Mark) :
    lines mark (Text.returned code) = (lines mark code).map (Line.returned code) := by
  unfold lines
  rw [Line.all_returned, List.filter_map]
  congr 1
  apply List.filter_congr
  intro l hl
  by_cases hfed : l.Fed code
  · simp [Line.returned, hfed, isMark_append (Line.not_mem_text hreturn hl)]
  · simp [Line.returned, hfed]

theorem pairs_returned {begins ends : List Line} (hbegins : ∀ l ∈ begins, l ∈ Line.all code)
    (hends : ∀ l ∈ ends, l ∈ Line.all code) :
    (pairs (begins.map (Line.returned code)) (ends.map (Line.returned code))).toOption =
      (pairs begins ends).toOption.map (List.map (Span.pushed code)) := by
  induction begins generalizing ends with
  | nil => rfl
  | cons first begins ih =>
    cases ends with
    | nil => rfl
    | cons last ends =>
      have hfirst := Line.span_returned (hbegins first List.mem_cons_self)
      have hlast := Line.span_returned (hends last List.mem_cons_self)
      have hrest := ih (fun l hl => hbegins l (List.mem_cons_of_mem first hl))
        fun l hl => hends l (List.mem_cons_of_mem last hl)
      simp only [List.map_cons, pairs, Line.returned_start_lt_iff]
      split
      · rfl
      · rw [Outcome.toOption_map, hrest, Outcome.toOption_map, hfirst, hlast]
        cases (pairs begins ends).toOption with
        | none => rfl
        | some spans => rfl

theorem outer_returned (hreturn : '\r' ∉ code) :
    outer (Text.returned code) = (outer code).map (Span.pushed code) := by
  have hlength : ((Text.returned code).length : Int) = Text.pushed code code.length := by
    simp [Text.length_returned, Text.pushed]
  have hzero : Text.pushed code 0 = 0 := by simp [Text.pushed]
  unfold outer
  rw [lines_returned hreturn, lines_returned hreturn, List.getLast?_map, List.head?_map,
    List.map_append]
  congr 1
  · cases hlast : (lines .before code).getLast? with
    | none => rfl
    | some l =>
      have hl := mem_all_of_mem_lines (List.mem_of_getLast? hlast)
      simp [Span.pushed, hzero, Line.span_returned hl]
  · cases hfirst : (lines .after code).head? with
    | none => rfl
    | some l => simp [Span.pushed, hlength, Line.start_returned]

theorem findAll_returned (hreturn : '\r' ∉ code) :
    (findAll (Text.returned code)).toOption =
      (findAll code).toOption.map (List.map (Span.pushed code)) := by
  have hall : ∀ mark, ∀ l ∈ lines mark code, l ∈ Line.all code :=
    fun _ _ hl => mem_all_of_mem_lines hl
  have hpairs := pairs_returned (hall .begins) (hall .ends)
  rw [findAll_eq, findAll_eq, lines_returned hreturn, lines_returned hreturn, List.length_map,
    List.length_map, outer_returned hreturn]
  split
  · rfl
  · rw [Outcome.toOption_map, hpairs, Outcome.toOption_map, Option.map_map, Option.map_map]
    congr 1
    funext spans
    simp

end Cut

theorem Marker.removals_returned {code : List Char} (hreturn : '\r' ∉ code) :
    removals (Text.returned code) = (removals code).map (Span.pushed code) := by
  unfold removals lines
  rw [Line.select_returned fun l hl _ => form?_append (Line.not_mem_text hreturn hl), List.map_map,
    List.map_map]
  apply List.map_congr_left
  intro x hx
  exact Line.span_returned (Line.mem_select_iff.mp hx).1

/-! ## Reading -/

/-- Two texts are read alike: they have the same flags in the same order or fail for the same reason,
and flags, cuts and markers erase lines of the same numbers. -/
structure ReadAlike (v : Flag.Vocabulary) (code other : List Char) : Prop where
  flags : (Flag.findAll v other).map (List.map fun f => (f.kind, f.name, f.value)) =
    (Flag.findAll v code).map (List.map fun f => (f.kind, f.name, f.value))
  flagLines : (Flag.findAll v other).map (fun flags => Line.numbers other (flags.map Flag.span)) =
    (Flag.findAll v code).map fun flags => Line.numbers code (flags.map Flag.span)
  cutLines : (Cut.findAll other).toOption.map (Line.numbers other) =
    (Cut.findAll code).toOption.map (Line.numbers code)
  markerLines : Line.numbers other (Marker.removals other) = Line.numbers code (Marker.removals code)

section Reading
variable {v : Flag.Vocabulary} {code : List Char} {flags : List Flag} {l : Line}

theorem readAlike_returned (hreturn : '\r' ∉ code)
    (hhollow : ∀ l ∈ Line.all code, l.Fed code → ¬ Directive.Hollow l.text) :
    ReadAlike v code (Text.returned code) where
  flags := by
    rw [Flag.findAll_returned hreturn hhollow]
    cases Flag.findAll v code with
    | error e => rfl
    | ok flags => simp [Except.map, Flag.pushed, Function.comp_def]
  flagLines := by
    rw [Flag.findAll_returned hreturn hhollow]
    cases Flag.findAll v code with
    | error e => rfl
    | ok flags =>
      have hspans : (flags.map (Flag.pushed code)).map Flag.span =
          (flags.map Flag.span).map (Span.pushed code) := by
        simp [Flag.pushed]
      simp only [Except.map, hspans, Line.numbers_returned]
  cutLines := by
    rw [Cut.findAll_returned hreturn, Option.map_map]
    congr 1
    funext spans
    exact Line.numbers_returned code spans
  markerLines := by
    rw [Marker.removals_returned hreturn, Line.numbers_returned]

theorem Flag.not_covered_of_hollow (h : findAll v code = .ok flags) (hl : l ∈ Line.all code)
    (hhollow : Directive.Hollow l.text) : Span.covered (flags.map Flag.span) l.start = false := by
  obtain ⟨name, hname, -⟩ := Directive.hollow_iff.mp hhollow
  have hbare : Directive.bare? l.text = none := by simp [Directive.bare?, hname]
  have hvalued := (Directive.flag?_append_of_hollow hhollow).1
  rw [covered_spans h hl (Nat.le_refl _) (Nat.le_add_right _ _), List.any_eq_false]
  intro f hf hspan
  have hspan := beq_iff_eq.mp hspan
  rcases (mem_findAll_iff h).mp hf with ⟨x, hx, hparse⟩ | ⟨x, hx, hparse⟩
  · obtain ⟨hm, hx⟩ := Line.mem_select_iff.mp hx
    have hsame := Line.eq_of_span_eq hl hm ((span_of_parse hparse).symm.trans hspan)
    rw [hsame, hbare] at hx
    cases hx
  · rw [valuedLines_eq] at hx
    obtain ⟨hm, hx⟩ := Line.mem_select_iff.mp hx
    have hsame := Line.eq_of_span_eq hl hm ((span_of_parse hparse).symm.trans hspan)
    rw [hsame, hvalued] at hx
    cases hx

theorem Flag.covered_of_hollow (h : findAll v (Text.returned code) = .ok flags)
    (hl : l ∈ Line.all code) (hfed : l.Fed code) (hhollow : Directive.Hollow l.text) :
    Span.covered (flags.map Flag.span) (l.returned code).start = true := by
  obtain ⟨-, name, hname⟩ := Directive.flag?_append_of_hollow hhollow
  have hmem : (l.returned code, name, "") ∈ valuedLines (Text.returned code) := by
    rw [valuedLines_eq, Line.mem_select_iff, Line.all_returned]
    refine ⟨List.mem_map_of_mem hl, ?_⟩
    simpa [Line.returned, hfed] using hname
  obtain ⟨f, hf, hspan⟩ := exists_mem_of_mem_valuedLines h hmem
  rw [Span.covered, List.any_map, List.any_eq_true]
  refine ⟨f, hf, ?_⟩
  simp only [Function.comp_apply, hspan, Line.span, Span.contains_iff]
  omega

/-- A text is read alike with both line endings if it has no flag line with only a line feed behind
the colon.  Where the flags of the text can be read, it is read alike only then. -/
theorem readAlike_returned_iff (v : Flag.Vocabulary) (code : List Char) (hreturn : '\r' ∉ code) :
    ((∀ l ∈ Line.all code, l.Fed code → ¬ Directive.Hollow l.text) →
      ReadAlike v code (Text.returned code)) ∧
    ∀ flags, Flag.findAll v code = .ok flags → ReadAlike v code (Text.returned code) →
      ∀ l ∈ Line.all code, l.Fed code → ¬ Directive.Hollow l.text := by
  refine ⟨readAlike_returned hreturn, ?_⟩
  intro flags hflags halike l hl hfed hhollow
  -- The number of the line is among those that flags erase in one text, but not in the other.
  have hlines := halike.flagLines
  rw [hflags] at hlines
  obtain ⟨others, hothers, hnumbers⟩ := Outcome.map_eq_ok.mp hlines
  obtain ⟨k, hk⟩ := List.mem_iff_getElem?.mp hl
  have hfound : k ∈ Line.numbers (Text.returned code) (others.map Flag.span) := by
    refine Line.mem_numbers_iff.mpr ⟨l.returned code, ?_, Flag.covered_of_hollow hothers hl hfed hhollow⟩
    rw [Line.all_returned, List.getElem?_map, hk]
    rfl
  rw [hnumbers] at hfound
  obtain ⟨m, hm, hcovered⟩ := Line.mem_numbers_iff.mp hfound
  obtain rfl : l = m := Option.some.inj (hk.symm.trans hm)
  rw [Flag.not_covered_of_hollow hflags hl hhollow] at hcovered
  cases hcovered

theorem readAlike_returned_iff_example :
    let v : Flag.Vocabulary := ⟨["log"], [Schema.plain .boolean "strict"]⟩
    let code := "// @strict: true\n// @log\n// ---cut---\nlet a\n//  ^?\n// @strict:".toList
    let hollow := "// @strict:\n".toList
    ReadAlike v code (Text.returned code) ∧ ¬ ReadAlike v hollow (Text.returned hollow) := by
  intro v code hollow
  constructor
  · apply (readAlike_returned_iff v code (by decide +kernel)).1
    intro l hl hfed hhollow
    obtain ⟨name, hname, -⟩ := Directive.hollow_iff.mp hhollow
    have hnone : ∀ l ∈ Line.all code, l.Fed code →
        ¬ (Directive.flagName? l.text).any (·.2 == [':']) = true := by
      decide +kernel
    apply hnone l hl hfed
    simp [hname]
  · intro halike
    have hfound : (Flag.findAll v hollow).toOption.isSome := by decide +kernel
    obtain ⟨flags, hfound⟩ := Option.isSome_iff_exists.mp hfound
    have hnone := (readAlike_returned_iff v hollow (by decide +kernel)).2 flags
      (Outcome.eq_ok_of_toOption hfound) halike ⟨0, "// @strict:".toList⟩ (by decide +kernel)
      (by decide +kernel)
    have hwords : "strict".toList.all Text.isWordChar = true := by decide
    apply hnone
    refine ⟨"strict".toList, by decide, List.all_eq_true.mp hwords, by decide, ?_⟩
    exact ⟨[' '], by decide, by decide⟩

/-- A flag that is not there with a line feed alone is switched on by the carriage return. -/
theorem readAlike_returned_counterexample :
    let code := "// @strict:\n".toList
    '\r' ∉ code ∧
      ¬ ReadAlike ⟨[], Schema.defaultDeclarations⟩ code (Text.returned code) := by
  intro code
  refine ⟨by decide +kernel, ?_⟩
  intro halike
  have hcount := congrArg (fun x => x.toOption.map List.length) halike.flags
  revert hcount
  decide +kernel

end Reading

end Marginalia
