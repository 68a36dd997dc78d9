import Marginalia.Proofs.Cause
import Marginalia.Proofs.Hover

/-!
# Notes and the bounds of the text

Hovers, highlights, completions and errors of a result lie in its text.  The answer to a query is as
long as the identifier under the caret, so it may reach past the end of the text.  A tag stands
behind its line; where the directives are kept and the line has no line feed, that is one past the
end.
-/

namespace Marginalia
set_option autoImplicit false

namespace Span

theorem stop_le_of_mem_merge {spans : List Span} {bound : Int} (h : ∀ s ∈ spans, s.stop ≤ bound) :
    ∀ t ∈ merge spans, t.stop ≤ bound := by
  intro t ht
  obtain ⟨-, b, hb, hstop⟩ := bounds_of_mem_merge ht
  rw [hstop]
  exact h b hb

end Span

theorem Line.span_stop_le {code : List Char} {l : Line} (h : l ∈ all code) :
    l.span.stop ≤ code.length + 1 := by
  have hstop := stop_le_of_mem_all h
  unfold span
  dsimp only
  omega

theorem Cut.stop_le_of_mem_findAll {code : List Char} {cuts : List Span} (h : findAll code = .ok cuts) :
    ∀ s ∈ cuts, s.stop ≤ code.length + 1 := by
  intro s hs
  rcases (mem_findAll_iff h).mp hs with ⟨b, hb, rfl⟩ | ⟨a, -, rfl⟩ | ⟨b, e, hmem, -, rfl⟩
  · exact Line.span_stop_le (mem_all_of_mem_lines (List.mem_of_getLast? hb))
  · dsimp only
    omega
  · exact Line.span_stop_le (mem_all_of_mem_lines (List.of_mem_zip hmem).2)

theorem Work.anchor_cases (plan : Plan) (n : Note) :
    anchor plan n = n ∨ ∃ s ∈ Span.merge plan.removals, anchor plan n = { n with start := s.stop } := by
  unfold anchor
  dsimp only
  split
  · exact Or.inl rfl
  · split
    · next s hs => exact Or.inr ⟨s, List.mem_of_find?_eq_some hs, rfl⟩
    · exact Or.inl rfl

namespace Plan
variable {start plan : Plan} {vocabulary : Flag.Vocabulary} {root : String} {code : List Char}
  {tags : List Note}

/-- A removal ends at most one past the text, behind a line feed that is not there. -/
theorem removals_stop_le (h : start.read vocabulary root code = .ok (plan, tags)) :
    ∀ s ∈ plan.removals, s.stop ≤ code.length + 1 := by
  obtain ⟨flags, cuts, hflags, hcuts, -, -, rfl⟩ := read_ok h
  intro s hs
  rcases List.mem_append.mp hs with hs | hs
  · rcases List.mem_append.mp hs with hs | hs
    · obtain ⟨f, hf, rfl⟩ := List.mem_map.mp hs
      obtain ⟨l, hl, hspan⟩ := Flag.exists_line_of_mem_findAll hflags hf
      rw [hspan]
      exact Line.span_stop_le hl
    · exact Cut.stop_le_of_mem_findAll hcuts s hs
  · obtain ⟨x, hx, rfl⟩ := List.mem_map.mp hs
    exact Line.span_stop_le (Line.mem_select_iff.mp hx).1

theorem tag_of_mem_tags (h : start.read vocabulary root code = .ok (plan, tags)) {n : Note}
    (hn : n ∈ tags) : ∃ f ∈ plan.flags, ∃ l ∈ Line.all code, f.kind = .tag ∧ f.span = l.span ∧
      f.span ∈ plan.removals ∧ n.start = f.span.stop ∧ n.length = 0 ∧
      ∃ name text, n.body = .tag name text := by
  have hmem : n ∈ plan.flags.filterMap tagNote? := by
    obtain ⟨flags, cuts, -, -, -, rfl, rfl⟩ := read_ok h
    exact hn
  obtain ⟨f, hf, hnote⟩ := List.mem_filterMap.mp hmem
  obtain ⟨l, hl, hspan, hremoved⟩ := line_of_mem_flags h hf
  obtain ⟨hkind, rfl⟩ := tagNote?_eq_some hnote
  exact ⟨f, hf, l, hl, hkind, hspan, hspan ▸ hremoved, rfl, rfl, _, _, rfl⟩

/-- Where the end of an erased span is left: in the text, since the index of a line feed that is not
there counts as erased. -/
theorem eraseStart_stop_le (h : start.read vocabulary root code = .ok (plan, tags)) {s : Span}
    (hproper : s.Proper) (hfilled : s.Filled) (hstop : s.stop ≤ code.length + 1)
    (hcovered : ∀ i, s.contains i = true → Span.covered plan.removals i = true)
    (hkept : 0 ≤ Span.eraseStart 0 s.stop plan.removals) :
    Span.eraseStart 0 s.stop plan.removals ≤ (Span.eraseText code plan.removals).length := by
  obtain ⟨hstart, hle⟩ := hproper
  unfold Span.Filled at hfilled
  obtain ⟨-, hnew⟩ := Span.stays_of_eraseStart (removals_proper h) (by omega) (Int.le_refl 0) hkept
  rw [Span.length_eraseText (removals_proper h)]
  by_cases hinside : s.stop ≤ code.length
  · have hmono := Text.countBelow_mono (p := Span.stays plan.removals)
      (show s.stop.toNat ≤ code.length by omega)
    omega
  · have herased : Span.stays plan.removals code.length = false := by
      have hlast : s.contains code.length = true := (Span.contains_iff s _).mpr ⟨by omega, by omega⟩
      rw [Span.stays, hcovered _ hlast]
      rfl
    have hbehind : s.stop.toNat = code.length + 1 := by omega
    rw [hbehind, Text.countBelow_succ, herased] at hnew
    simp only [Bool.false_eq_true, if_false] at hnew
    omega

theorem settled_tag_le (h : start.read vocabulary root code = .ok (plan, tags)) {n : Note} {l : Line}
    (hl : l ∈ Line.all code) (hremoved : l.span ∈ plan.removals) (hstart : n.start = l.span.stop)
    (hlength : n.length = 0) (hkept : 0 ≤ (plan.settled n).start) :
    (plan.settled n).start ≤ (Span.eraseText code plan.removals).length := by
  have hown : ∀ i, l.span.contains i = true → Span.covered plan.removals i = true :=
    fun i hi => (Span.covered_iff _ _).mpr ⟨l.span, hremoved, (Span.contains_iff _ _).mp hi⟩
  unfold settled Note.erase at hkept ⊢
  dsimp only at hkept ⊢
  rcases Work.anchor_cases plan n with hsame | ⟨s, hs, hmoved⟩
  · rw [hsame, hstart, hlength] at hkept ⊢
    exact eraseStart_stop_le h l.span_proper l.span_filled (Line.span_stop_le hl) hown hkept
  · rw [hmoved] at hkept ⊢
    dsimp only at hkept ⊢
    rw [hlength] at hkept ⊢
    refine eraseStart_stop_le h (Span.proper_of_mem_merge (removals_proper h) s hs)
      (Span.filled_of_mem_merge (removals_filled h) s hs)
      (Span.stop_le_of_mem_merge (removals_stop_le h) s hs) ?_ hkept
    intro i hi
    rw [← Span.covered_merge]
    exact (Span.covered_iff _ _).mpr ⟨s, hs, (Span.contains_iff _ _).mp hi⟩

end Plan

theorem Identifier.StandsIn.within {text : List Char} {x : Identifier} (h : x.StandsIn text) :
    0 ≤ x.span.start ∧ x.span.start + x.text.length ≤ text.length := by
  obtain ⟨first, hspan, hstop, -⟩ := h
  rw [hspan]
  dsimp only
  omega

theorem Section.within_of_contains {code : List Char} {s : Section} (h : s.PartOf code) {i : Int}
    (hi : s.contains i = true) : 0 ≤ i ∧ i ≤ code.length := by
  have hplace := (s.contains_iff i).mp hi
  have hstop := h.stop
  omega

/-- When a note of a result lies in its text.  The answer to a query does if it would in the sample; a
tag does if the directives are erased or its line has a line feed; any other note always does. -/
def Note.BoundedIn (text : List Char) (code : List Char) (plan : Plan) (n : Note) : Prop :=
  match n.body with
  | .query _ => ∃ i ∈ plan.asked.queries, ∃ x : Identifier, x.StandsIn code ∧
      x.span.touches i = true ∧ n.length = x.text.length ∧
      (n.start + n.length ≤ text.length ↔ i + x.text.length ≤ code.length)
  | .tag _ _ => ∃ f ∈ plan.flags, ∃ l ∈ Line.all code, f.kind = .tag ∧ f.span = l.span ∧
      (n.start + n.length ≤ text.length ↔
        plan.behaviour.keepNotations = false ∨ l.start + l.text.length < code.length)
  | _ => n.start + n.length ≤ text.length

namespace Plan
variable {start plan : Plan} {vocabulary : Flag.Vocabulary} {root : String} {code : List Char}
  {tags : List Note} (hread : start.read vocabulary root code = .ok (plan, tags)) {m : Note}
  (hkept : 0 ≤ (plan.moved m).start)
include hread hkept

theorem bounded_of_tag (hm : m ∈ tags) :
    (plan.moved m).BoundedIn (plan.shownText code) code plan := by
  obtain ⟨f, hf, l, hl, hkind, hspan, hremoved, hstart, hlength, name, text, hbody⟩ :=
    tag_of_mem_tags hread hm
  unfold Note.BoundedIn
  rw [plan.body_moved, hbody, plan.length_moved, hlength]
  refine ⟨f, hf, l, hl, hkind, hspan, ?_⟩
  rw [hspan] at hremoved hstart
  unfold moved at hkept
  unfold shownText moved
  cases hkeep : plan.behaviour.keepNotations with
  | true =>
    -- The tag stands one past the line feed that ends its line, be it there or not.
    have hstop := Line.stop_le_of_mem_all hl
    simp only [if_true, hstart, Line.span, Bool.true_eq_false, false_or]
    omega
  | false =>
    rw [hkeep, if_neg Bool.false_ne_true] at hkept
    have hle := settled_tag_le hread hl hremoved hstart hlength hkept
    simp only [Bool.false_eq_true, if_false, true_or, iff_true]
    omega

theorem moved_within (htag : m.isTag = false) (hstart : 0 ≤ m.start) (hlength : 0 ≤ m.length)
    (hstop : m.start + m.length ≤ code.length) :
    (plan.moved m).start + (plan.moved m).length ≤ (plan.shownText code).length := by
  rw [plan.length_moved]
  exact (moved_add_le_iff (removals_proper hread) htag hstart hlength hkept (by omega)).mpr hstop

theorem bounded_of_tells {job : Job} {s : Section} {xs : List Identifier}
    (hs : s.PartOf code) (hxs : ∀ x ∈ xs, x.StandsIn code) (hm : Answered.Tells job plan s xs m) :
    (plan.moved m).BoundedIn (plan.shownText code) code plan := by
  unfold Note.BoundedIn
  rw [plan.body_moved]
  cases hm with
  | hover known hx =>
    obtain ⟨hstart, hstop⟩ := (hxs _ hx).within
    exact moved_within hread hkept rfl hstart (Int.natCast_nonneg _) hstop
  | highlight label known hx =>
    obtain ⟨hstart, hstop⟩ := (hxs _ hx).within
    exact moved_within hread hkept rfl hstart (Int.natCast_nonneg _) hstop
  | completion offered hi hcontains =>
    obtain ⟨hstart, hstop⟩ := s.within_of_contains hs hcontains
    refine moved_within hread hkept rfl hstart (Int.le_refl 0) ?_
    exact (Int.add_zero _).symm ▸ hstop
  | @query i x known hi hcontains hx =>
    obtain ⟨hstart, hstop⟩ := s.within_of_contains hs hcontains
    have hiff := moved_add_le_iff (removals_proper hread) (n := Answered.queryNote i x known) rfl
      hstart (Int.natCast_nonneg _) hkept hstop
    refine ⟨i, hi, x, hxs x (List.mem_of_find?_eq_some hx), ?_, ?_, ?_⟩
    · exact List.find?_some (p := fun y : Identifier => y.span.touches i) hx
    · exact plan.length_moved _
    · rw [plan.length_moved]
      exact hiff

theorem bounded_of_cause {rules : List Checker.Rule} {s last : Section} {rule : Checker.Rule} {i : Nat}
    (hcause : m.CausedBy plan.sections rules s last rule i) :
    (plan.moved m).BoundedIn (plan.shownText code) code plan := by
  obtain ⟨_, _, _, _, hbody, -⟩ := hcause.body
  have hstart := hcause.start
  have hlength := hcause.length
  rw [sections_eq hread] at hcause
  have hstop := hcause.stop_le
  have htag : m.isTag = false := Note.isTag_eq_false fun _ _ htag => by
    rw [hbody] at htag
    cases htag
  unfold Note.BoundedIn
  rw [plan.body_moved, hbody]
  exact moved_within hread hkept htag (by omega) (by omega) (by omega)

end Plan

/-- No note of a result starts before its text, and it is known when one ends behind it. -/
theorem Annotator.notes_bounded (a : Annotator) (q : Request) (w : World) (r : Result)
    (h : (a.annotate q w).1 = .ok r) (htrees : Tree.Fit w.trees r.plan.parsed) :
    ∃ plan tags, a.reading q = .ok (plan, tags) ∧
      ∀ n ∈ r.notes, 0 ≤ n.start ∧ n.BoundedIn r.code q.code plan := by
  obtain ⟨plan, notes, hcollected, hending⟩ := exists_collected h
  obtain ⟨tags, found, errors, hreading, hfound, herrors, rfl⟩ := collected_ok hcollected
  obtain ⟨start, -, hread⟩ := Outcome.bind_eq_ok.mp hreading
  refine ⟨plan, tags, hreading, ?_⟩
  intro n hn
  obtain ⟨hemit, m, hm, hkept, rfl⟩ := Answered.exists_of_mem_notes hending hn
  refine ⟨hkept, ?_⟩
  rw [Answered.code_of_ending hending hemit]
  show (plan.moved m).BoundedIn (plan.shownText q.code) q.code plan
  rcases List.mem_append.mp hm with hm | hm
  · rcases List.mem_append.mp (List.mem_filter.mp hm).1 with hm | hm
    · exact Plan.bounded_of_tag hread hkept hm
    · obtain ⟨y, hy, htells⟩ := Answered.tells_of_mem_populated hemit hfound hm
      have hparts : ∀ s ∈ plan.taken, s.PartOf q.code := by
        intro s hs
        have hmem := (List.mem_filter.mp hs).1
        rw [Plan.sections_eq hread] at hmem
        exact Section.partOf_of_mem_split hmem
      have hparsed : r.plan.parsed = plan.taken.filter plan.parses := by
        obtain ⟨removals, hfinal⟩ := Answered.plan_of_ending hending hemit
        rw [hfinal]
        unfold Plan.parsed
        rw [if_neg (ne_true_of_eq_false hemit)]
        rfl
      rw [hparsed] at htrees
      have hmem : y.1 ∈ plan.taken := by
        rw [← plan.map_fst_readAll w.trees plan.taken]
        exact List.mem_map_of_mem hy
      exact Plan.bounded_of_tells hread hkept (hparts y.1 hmem)
        (Plan.standsIn_of_mem_readAll htrees hparts y hy) htells
  · obtain ⟨c, -, s, last, rule, i, hcause⟩ := Answered.exists_cause hread herrors hm
    exact Plan.bounded_of_cause hread hkept hcause

/-- A tag on a last line without a line feed, which is erased: the tag is left at the end. -/
theorem Annotator.notes_bounded_example :
    let a : Annotator :=
      { script := { quickInfo := [("abc", .str "let abc: any")] }, tags := ["log"], declarations := [] }
    let q : Request := { code := "let abc\n//  ^?\n// @log".toList }
    let w : World := {}
    ∃ r plan tags, (a.annotate q w).1 = .ok r ∧ Tree.Fit w.trees r.plan.parsed ∧
      r.code = "let abc\n".toList ∧ r.notes.map (fun n => (n.kindName, n.start, n.length)) =
        [("hover", 4, 3), ("query", 4, 3), ("tag", 8, 0)] ∧
      a.reading q = .ok (plan, tags) ∧
      ∀ n ∈ r.notes, 0 ≤ n.start ∧ n.BoundedIn r.code q.code plan := by
  intro a q w
  have hrun : ((a.annotate q w).1.toOption.map fun r =>
      (r.code, r.notes.map fun n => (n.kindName, n.start, n.length))) =
        some ("let abc\n".toList, [("hover", 4, 3), ("query", 4, 3), ("tag", 8, 0)]) := by
    decide +kernel
  obtain ⟨r, hr, hvalues⟩ := Outcome.exists_ok_of_toOption_map hrun
  obtain ⟨hcode, hnotes⟩ := Prod.mk.inj hvalues
  have hfit : Tree.Fit w.trees r.plan.parsed := fun ts hts => by cases hts
  obtain ⟨plan, tags, hread, hall⟩ := notes_bounded a q w r hr hfit
  exact ⟨r, plan, tags, hr, hfit, hcode, hnotes, hread, hall⟩

/-- A tag that is kept with its line stands behind a line feed that is not there, and the answer to
a query inside the last word of a text reaches past its end. -/
theorem Annotator.notes_bounded_counterexample :
    (let a : Annotator := { tags := ["log"], declarations := [] }
      let q : Request :=
        { code := "let a\n// @log".toList, behaviour := [("keepNotations", .bool true)] }
      ∃ r, (a.annotate q {}).1 = .ok r ∧ ∃ n ∈ r.notes, r.code.length < n.start + n.length) ∧
    (let a : Annotator :=
        { script := { quickInfo := [("abcdef", .str "let abcdef: any")] }, declarations := [] }
      let q : Request := { code := "let abcdef".toList, queries := [.int 9] }
      ∃ r, (a.annotate q {}).1 = .ok r ∧ ∃ n ∈ r.notes, r.code.length < n.start + n.length) := by
  have hreaches : ∀ x : Except Failure Result,
      (x.toOption.map fun r => r.notes.any fun n => r.code.length < n.start + n.length) = some true →
        ∃ r, x = .ok r ∧ ∃ n ∈ r.notes, r.code.length < n.start + n.length := by
    intro x hx
    obtain ⟨r, hr, hany⟩ := Outcome.exists_ok_of_toOption_map hx
    obtain ⟨n, hn, hout⟩ := List.any_eq_true.mp hany
    exact ⟨r, hr, n, hn, of_decide_eq_true hout⟩
  constructor
  · apply hreaches
    decide +kernel
  · apply hreaches
    decide +kernel

end Marginalia
