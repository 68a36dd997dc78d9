import Marginalia.Plan
import Marginalia.Proofs.Line
import Marginalia.Proofs.Outcome
import Marginalia.Proofs.Span.Erase

/-!
# Removals are whole lines

Flags, cuts and markers put spans into the removals of a plan.  Each of these spans is made of whole
lines, so erasing them takes or leaves every line as a whole.
-/

namespace Marginalia
set_option autoImplicit false

/-- The line is cut: it lies at or before the last line that cuts before, at or behind the first
that cuts after, or from a line that begins a cut through the line of the same rank that ends one. -/
def Cut.hides (code : List Char) (l : Line) : Bool :=
  (lines .before code).getLast?.any (fun b => l.start ≤ b.start) ||
    (lines .after code).head?.any (fun a => a.start ≤ l.start) ||
    ((lines .begins code).zip (lines .ends code)).any
      fun (b, e) => b.start ≤ l.start && l.start ≤ e.start

namespace Line

/-- The line goes when directives are erased: it is a flag line or a marker line, or it is cut. -/
def isErased (flags : List Flag) (code : List Char) (l : Line) : Bool :=
  flags.any (fun f => f.span == l.span) || (Marker.form? l.text).isSome || Cut.hides code l

section Index
variable {code : List Char} {l m : Line} {i : Nat}

theorem start_le_index_iff (hl : l ∈ all code) (hm : m ∈ all code) (hi : l.start ≤ i)
    (hlt : i ≤ l.start + l.text.length) : m.start ≤ i ↔ m.start ≤ l.start := by
  rcases eq_or_apart hl hm with rfl | h | h <;> omega

theorem index_lt_stop_iff (hl : l ∈ all code) (hm : m ∈ all code) (hi : l.start ≤ i)
    (hlt : i ≤ l.start + l.text.length) :
    i < m.start + m.text.length + 1 ↔ l.start ≤ m.start := by
  rcases eq_or_apart hl hm with rfl | h | h <;> omega

theorem span_start_le_iff (hl : l ∈ all code) (hm : m ∈ all code) (hi : l.start ≤ i)
    (hlt : i ≤ l.start + l.text.length) : m.span.start ≤ i ↔ m.start ≤ l.start := by
  have hstart := start_le_index_iff hl hm hi hlt
  simp only [span]
  omega

theorem lt_span_stop_iff (hl : l ∈ all code) (hm : m ∈ all code) (hi : l.start ≤ i)
    (hlt : i ≤ l.start + l.text.length) : i < m.span.stop ↔ l.start ≤ m.start := by
  have hstop := index_lt_stop_iff hl hm hi hlt
  simp only [span]
  omega

theorem span_contains_iff (hl : l ∈ all code) (hm : m ∈ all code) (hi : l.start ≤ i)
    (hlt : i ≤ l.start + l.text.length) : m.span.contains i = true ↔ m.span = l.span := by
  rw [Span.contains_iff, span_start_le_iff hl hm hi hlt, lt_span_stop_iff hl hm hi hlt]
  simp only [span, Span.mk.injEq]
  rcases eq_or_apart hl hm with rfl | h | h <;> omega

theorem eq_of_span_eq (hl : l ∈ all code) (hm : m ∈ all code) (h : m.span = l.span) : m = l := by
  simp only [span, Span.mk.injEq] at h
  rcases eq_or_apart hl hm with he | hbefore | hbehind
  · exact he.symm
  · omega
  · omega

end Index

end Line

namespace Flag

theorem span_of_parse {v : Vocabulary} {name : String} {value : Value} {span : Span} {f : Flag}
    (h : parse v name value span = .ok f) : f.span = span := by
  obtain ⟨place, hread, rfl⟩ := Outcome.map_eq_ok.mp h
  unfold read at hread
  split at hread
  · rw [← Except.ok.inj hread]
  · split at hread
    · obtain ⟨_, _, rfl⟩ := Outcome.map_eq_ok.mp hread
      rfl
    · split at hread
      · obtain ⟨_, _, rfl⟩ := Outcome.map_eq_ok.mp hread
        rfl
      · rw [← Except.ok.inj hread]

theorem mem_findAll_iff {v : Vocabulary} {code : List Char} {flags : List Flag}
    (h : findAll v code = .ok flags) {f : Flag} :
    f ∈ flags ↔ (∃ x ∈ bareLines code, parse v x.2 (.bool true) x.1.span = .ok f) ∨
      ∃ x ∈ valuedLines code, parse v x.2.1 (.str x.2.2) x.1.span = .ok f := by
  unfold findAll at h
  obtain ⟨bare, hbare, h⟩ := Outcome.bind_eq_ok.mp h
  obtain ⟨valued, hvalued, h⟩ := Outcome.bind_eq_ok.mp h
  rw [← Except.ok.inj h, Sorting.mem_sort_iff, List.mem_append, Outcome.mem_mapM_iff hbare,
    Outcome.mem_mapM_iff hvalued]

theorem exists_mem_of_mem_valuedLines {v : Vocabulary} {code : List Char} {flags : List Flag}
    (h : findAll v code = .ok flags) {x : Line × String × String} (hx : x ∈ valuedLines code) :
    ∃ f ∈ flags, f.span = x.1.span := by
  have hfound := h
  unfold findAll at hfound
  obtain ⟨bare, -, hfound⟩ := Outcome.bind_eq_ok.mp hfound
  obtain ⟨valued, hvalued, -⟩ := Outcome.bind_eq_ok.mp hfound
  obtain ⟨f, -, hparse⟩ := Outcome.exists_mem_of_mapM hvalued hx
  exact ⟨f, (mem_findAll_iff h).mpr (Or.inr ⟨x, hx, hparse⟩), span_of_parse hparse⟩

theorem exists_line_of_mem_findAll {v : Vocabulary} {code : List Char} {flags : List Flag}
    (h : findAll v code = .ok flags) {f : Flag} (hf : f ∈ flags) :
    ∃ l ∈ Line.all code, f.span = l.span := by
  rcases (mem_findAll_iff h).mp hf with ⟨⟨l, name⟩, hmem, hparse⟩ | ⟨⟨l, name, value⟩, hmem, hparse⟩
  · exact ⟨l, (Line.mem_select_iff.mp hmem).1, span_of_parse hparse⟩
  · exact ⟨l, (Line.mem_select_iff.mp (List.mem_filter.mp hmem).1).1, span_of_parse hparse⟩

theorem covered_spans {v : Vocabulary} {code : List Char} {flags : List Flag}
    (h : findAll v code = .ok flags) {l : Line} {i : Nat} (hl : l ∈ Line.all code)
    (hi : l.start ≤ i) (hlt : i ≤ l.start + l.text.length) :
    Span.covered (flags.map Flag.span) i = flags.any fun f => f.span == l.span := by
  apply Bool.eq_iff_iff.mpr
  simp only [Span.covered, List.any_map, List.any_eq_true, Function.comp_apply, beq_iff_eq]
  constructor
  · rintro ⟨f, hf, hin⟩
    obtain ⟨m, hm, hspan⟩ := exists_line_of_mem_findAll h hf
    rw [hspan] at hin
    exact ⟨f, hf, hspan.trans ((Line.span_contains_iff hl hm hi hlt).mp hin)⟩
  · rintro ⟨f, hf, hspan⟩
    refine ⟨f, hf, ?_⟩
    rw [hspan]
    exact (Line.span_contains_iff hl hl hi hlt).mpr rfl

end Flag

namespace Marker

theorem covered_removals {code : List Char} {l : Line} {i : Nat} (hl : l ∈ Line.all code)
    (hi : l.start ≤ i) (hlt : i ≤ l.start + l.text.length) :
    Span.covered (removals code) i = (form? l.text).isSome := by
  apply Bool.eq_iff_iff.mpr
  simp only [Span.covered, removals, List.any_map, List.any_eq_true, Function.comp_apply,
    Option.isSome_iff_exists]
  constructor
  · rintro ⟨⟨m, f⟩, hmem, hin⟩
    obtain ⟨hm, hform⟩ := Line.mem_select_iff.mp hmem
    have hspan := (Line.span_contains_iff hl hm hi hlt).mp hin
    have hsame := Line.eq_of_span_eq hl hm hspan
    exact ⟨f, hsame ▸ hform⟩
  · rintro ⟨f, hform⟩
    exact ⟨(l, f), Line.mem_select_iff.mpr ⟨hl, hform⟩, (Line.span_contains_iff hl hl hi hlt).mpr rfl⟩

end Marker

namespace Cut

theorem mem_all_of_mem_lines {mark : Mark} {code : List Char} {l : Line}
    (h : l ∈ lines mark code) : l ∈ Line.all code :=
  (List.mem_filter.mp h).1

theorem pairs_ok {begins ends : List Line} {spans : List Span} (h : pairs begins ends = .ok spans) :
    spans = (begins.zip ends).map (fun (b, e) => ⟨b.span.start, e.span.stop⟩) ∧
      ∀ x ∈ begins.zip ends, x.1.start ≤ x.2.start := by
  induction begins generalizing ends spans with
  | nil =>
    rw [← Except.ok.inj h]
    simp
  | cons first begins ih =>
    cases ends with
    | nil =>
      rw [← Except.ok.inj h]
      simp
    | cons last ends =>
      simp only [pairs] at h
      split at h
      · cases h
      · next horder =>
        obtain ⟨rest, hrest, rfl⟩ := Outcome.map_eq_ok.mp h
        obtain ⟨hspans, hle⟩ := ih hrest
        refine ⟨by simp [hspans], ?_⟩
        intro x hx
        rcases List.mem_cons.mp hx with rfl | hx
        · exact Nat.le_of_not_lt horder
        · exact hle x hx

theorem lines_pairwise (mark : Mark) (code : List Char) :
    (lines mark code).Pairwise fun a b => a.start ≤ b.start := by
  unfold lines
  refine ((Line.all_pairwise code).filter _).imp fun h => ?_
  omega

def outer (code : List Char) : List Span :=
  ((lines .before code).getLast?.toList.map fun l => ⟨0, l.span.stop⟩) ++
    (lines .after code).head?.toList.map fun l => ⟨l.start, code.length⟩

theorem findAll_eq (code : List Char) :
    findAll code =
      if (lines .begins code).length ≠ (lines .ends code).length then
        .error (.mismatchedCuts (.counts (lines .begins code).length (lines .ends code).length))
      else (pairs (lines .begins code) (lines .ends code)).map (outer code ++ ·) := by
  unfold findAll
  simp only
  split
  · rfl
  · cases pairs (lines .begins code) (lines .ends code) with
    | error e => rfl
    | ok spans => rfl

theorem length_begins_eq {code : List Char} {cuts : List Span} (h : findAll code = .ok cuts) :
    (lines .begins code).length = (lines .ends code).length := by
  rw [findAll_eq] at h
  split at h
  · cases h
  · next heq => exact Decidable.not_not.mp heq

theorem findAll_ok {code : List Char} {cuts : List Span} (h : findAll code = .ok cuts) :
    ∃ spans, pairs (lines .begins code) (lines .ends code) = .ok spans ∧
      cuts = ((lines .before code).getLast?.toList.map fun l => ⟨0, l.span.stop⟩) ++
        ((lines .after code).head?.toList.map fun l => ⟨l.start, code.length⟩) ++ spans := by
  rw [findAll_eq] at h
  split at h
  · cases h
  · obtain ⟨spans, hspans, h⟩ := Outcome.map_eq_ok.mp h
    exact ⟨spans, hspans, h.symm⟩

theorem failsOnly_pairs {P : Failure → Prop} (h : ∀ mismatch, P (.mismatchedCuts mismatch))
    (begins ends : List Line) : Outcome.FailsOnly P (pairs begins ends) := by
  fun_induction pairs begins ends with
  | case1 first begins last ends hlt => exact Outcome.failsOnly_error (h _)
  | case2 first begins last ends hle ih => exact ih.map _
  | case3 => exact Outcome.failsOnly_ok []

theorem failsOnly_findAll {P : Failure → Prop} (h : ∀ mismatch, P (.mismatchedCuts mismatch))
    (code : List Char) : Outcome.FailsOnly P (findAll code) := by
  rw [findAll_eq]
  split
  · exact Outcome.failsOnly_error (h _)
  · exact (failsOnly_pairs h _ _).map _

/-- Which lines the spans between paired lines hide. -/
theorem covered_zip {code : List Char} {l : Line} {i : Nat} (hl : l ∈ Line.all code)
    (hi : l.start ≤ i) (hlt : i ≤ l.start + l.text.length) :
    Span.covered (((lines .begins code).zip (lines .ends code)).map fun (b, e) =>
        ⟨b.span.start, e.span.stop⟩) i =
      ((lines .begins code).zip (lines .ends code)).any
        fun (b, e) => b.start ≤ l.start && l.start ≤ e.start := by
  apply Bool.eq_iff_iff.mpr
  simp only [Span.covered, List.any_map, List.any_eq_true, Function.comp_apply,
    Span.contains_iff, Bool.and_eq_true, decide_eq_true_eq]
  refine exists_congr fun x => and_congr_right fun hmem => ?_
  obtain ⟨hb, he⟩ := List.of_mem_zip hmem
  exact and_congr (Line.span_start_le_iff hl (mem_all_of_mem_lines hb) hi hlt)
    (Line.lt_span_stop_iff hl (mem_all_of_mem_lines he) hi hlt)

theorem covered_findAll {code : List Char} {cuts : List Span} (h : findAll code = .ok cuts)
    {l : Line} {i : Nat} (hl : l ∈ Line.all code) (hi : l.start ≤ i)
    (hlt : i ≤ l.start + l.text.length) (hcode : i < code.length) :
    Span.covered cuts i = hides code l := by
  obtain ⟨spans, hpairs, rfl⟩ := findAll_ok h
  obtain ⟨rfl, -⟩ := pairs_ok hpairs
  rw [Span.covered_append, Span.covered_append, hides, covered_zip hl hi hlt]
  congr 2
  · cases hlast : (lines .before code).getLast? with
    | none => rfl
    | some b =>
      have hb := mem_all_of_mem_lines (List.mem_of_getLast? hlast)
      apply Bool.eq_iff_iff.mpr
      simp [Line.lt_span_stop_iff hl hb hi hlt]
  · cases hhead : (lines .after code).head? with
    | none => rfl
    | some a =>
      have ha := mem_all_of_mem_lines (List.mem_of_head? hhead)
      apply Bool.eq_iff_iff.mpr
      simp [Line.start_le_index_iff hl ha hi hlt, hcode]

theorem mem_findAll_iff {code : List Char} {cuts : List Span} (h : findAll code = .ok cuts)
    {s : Span} : s ∈ cuts ↔
      (∃ b, (lines .before code).getLast? = some b ∧ s = ⟨0, b.span.stop⟩) ∨
      (∃ a, (lines .after code).head? = some a ∧ s = ⟨a.start, code.length⟩) ∨
      ∃ b e, (b, e) ∈ (lines .begins code).zip (lines .ends code) ∧ b.start ≤ e.start ∧
        s = ⟨b.span.start, e.span.stop⟩ := by
  obtain ⟨spans, hpairs, rfl⟩ := findAll_ok h
  obtain ⟨rfl, horder⟩ := pairs_ok hpairs
  simp only [List.mem_append, List.mem_map, Option.mem_toList, or_assoc, Prod.exists]
  refine or_congr ?_ (or_congr ?_ ?_)
  · exact exists_congr fun b => and_congr_right fun _ => eq_comm
  · exact exists_congr fun a => and_congr_right fun _ => eq_comm
  · refine exists_congr fun b => exists_congr fun e => and_congr_right fun hmem => ?_
    exact ⟨fun he => ⟨horder (b, e) hmem, he.symm⟩, fun he => he.2.symm⟩

theorem proper_of_mem_findAll {code : List Char} {cuts : List Span} (h : findAll code = .ok cuts) :
    ∀ s ∈ cuts, s.Proper := by
  intro s hs
  rcases (mem_findAll_iff h).mp hs with ⟨b, -, rfl⟩ | ⟨a, ha, rfl⟩ | ⟨b, e, -, hle, rfl⟩
  · exact ⟨by simp, by simp only [Line.span]; omega⟩
  · have := Line.stop_le_of_mem_all (mem_all_of_mem_lines (List.mem_of_head? ha))
    exact ⟨by simp, by simp only; omega⟩
  · exact ⟨by simp [Line.span], by simp only [Line.span]; omega⟩

end Cut

theorem Line.span_proper (l : Line) : l.span.Proper :=
  ⟨by simp [span], by simp only [span]; omega⟩

def Flag.text? (f : Flag) : Option String :=
  match f.value with
  | .str s => some s
  | _ => none

namespace Plan
variable {start plan : Plan} {vocabulary : Flag.Vocabulary} {root : String} {code : List Char}
  {tags : List Note}

theorem tagNote?_eq (f : Flag) :
    tagNote? f = if f.kind = .tag then
      some { start := f.span.stop, length := 0, body := .tag f.name f.text? } else none := by
  unfold tagNote? Flag.text?
  cases f.kind <;> cases f.value <;> rfl

theorem tagNote?_eq_some {f : Flag} {n : Note} (h : tagNote? f = some n) :
    f.kind = .tag ∧ n = { start := f.span.stop, length := 0, body := .tag f.name f.text? } := by
  rw [tagNote?_eq] at h
  obtain ⟨hkind, hnote⟩ := Option.ite_none_right_eq_some.mp h
  exact ⟨hkind, (Option.some.inj hnote).symm⟩

/-- All that reading the directives of a sample does to a plan. -/
theorem read_ok (h : start.read vocabulary root code = .ok (plan, tags)) :
    ∃ flags cuts, Flag.findAll vocabulary code = .ok flags ∧ Cut.findAll code = .ok cuts ∧
      (start.withFlags flags).checkOptions = .ok () ∧ tags = flags.filterMap tagNote? ∧
      plan = { start.withFlags flags with
        removals := flags.map Flag.span ++ cuts ++ Marker.removals code
        asked := Marker.requests code (start.withFlags flags).asked
        sections := Section.split code (defaultName start.extension) root } := by
  unfold read at h
  obtain ⟨flags, hflags, h⟩ := Outcome.bind_eq_ok.mp h
  obtain ⟨_, hcheck, h⟩ := Outcome.bind_eq_ok.mp h
  obtain ⟨cuts, hcuts, h⟩ := Outcome.bind_eq_ok.mp h
  obtain ⟨rfl, rfl⟩ := Prod.mk.inj (Except.ok.inj h)
  exact ⟨flags, cuts, hflags, hcuts, hcheck, rfl, rfl⟩

theorem findAll_flags (h : start.read vocabulary root code = .ok (plan, tags)) :
    Flag.findAll vocabulary code = .ok plan.flags := by
  obtain ⟨flags, cuts, hflags, -, -, -, rfl⟩ := read_ok h
  exact hflags

theorem line_of_mem_flags (h : start.read vocabulary root code = .ok (plan, tags)) {f : Flag}
    (hf : f ∈ plan.flags) : ∃ l ∈ Line.all code, f.span = l.span ∧ l.span ∈ plan.removals := by
  obtain ⟨l, hl, hspan⟩ := Flag.exists_line_of_mem_findAll (findAll_flags h) hf
  refine ⟨l, hl, hspan, hspan ▸ ?_⟩
  obtain ⟨flags, cuts, -, -, -, -, rfl⟩ := read_ok h
  exact List.mem_append_left _ (List.mem_append_left _ (List.mem_map_of_mem hf))

theorem removals_proper (h : start.read vocabulary root code = .ok (plan, tags)) :
    ∀ s ∈ plan.removals, s.Proper := by
  obtain ⟨flags, cuts, hflags, hcuts, -, -, rfl⟩ := read_ok h
  intro s hs
  rcases List.mem_append.mp hs with hs | hs
  · rcases List.mem_append.mp hs with hs | hs
    · obtain ⟨f, hf, rfl⟩ := List.mem_map.mp hs
      obtain ⟨l, -, hspan⟩ := Flag.exists_line_of_mem_findAll hflags hf
      rw [hspan]
      exact l.span_proper
    · exact Cut.proper_of_mem_findAll hcuts s hs
  · obtain ⟨x, -, rfl⟩ := List.mem_map.mp hs
    exact x.1.span_proper

theorem removals_whole (h : start.read vocabulary root code = .ok (plan, tags))
    {flags : List Flag} (hflags : Flag.findAll vocabulary code = .ok flags) :
    Line.Whole code (Span.stays plan.removals) fun l => !l.isErased flags code := by
  obtain ⟨flags', cuts, hflags', hcuts, -, -, rfl⟩ := read_ok h
  obtain rfl : flags' = flags := Except.ok.inj (hflags'.symm.trans hflags)
  intro l hl i hi hlt hcode
  have hcov := Cut.covered_findAll hcuts hl hi hlt hcode
  simp only [Span.stays, Span.covered_append, Flag.covered_spans hflags hl hi hlt, hcov,
    Marker.covered_removals hl hi hlt, Line.isErased]
  congr 1
  rw [Bool.or_assoc, Bool.or_assoc, Bool.or_comm (Cut.hides code l)]

end Plan

end Marginalia
