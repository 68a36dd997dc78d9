import Mathlib.Data.List.Pairwise
import Marginalia.Proofs.KeptLines

/-!
# Nothing is left to erase

Every flag line, every marker line and every cut line lies in a removal of its own sample.  Erasure
takes or leaves lines as a whole, so it makes no line that was not there before.  A result without
its directives, read as a sample again, therefore has nothing to erase.
-/

namespace Marginalia
set_option autoImplicit false

/-- The text has no flags, no cuts and no markers, whatever the names in it may mean. -/
structure Unmarked (code : List Char) : Prop where
  flags : ∀ vocabulary, Flag.findAll vocabulary code = .ok []
  cuts : Cut.findAll code = .ok []
  markers : Marker.lines code = []

theorem Line.Whole.exists_of_mem_select {α : Type} {recognise : List Char → Option α}
    {code : List Char} {p : Nat → Bool} {kept : Line → Bool} (h : Whole code p kept)
    (hempty : recognise [] = none) {l : Line} {a : α}
    (hl : (l, a) ∈ select recognise (Text.keepFrom p 0 code)) :
    ∃ m, (m, a) ∈ select recognise code ∧ kept m = true := by
  rw [h.select_keepFrom hempty] at hl
  obtain ⟨⟨m, b⟩, hmem, hmoved⟩ := List.mem_map.mp hl
  obtain ⟨hselect, hkept⟩ := List.mem_filter.mp hmem
  obtain ⟨-, rfl⟩ := Prod.mk.inj hmoved
  exact ⟨m, hselect, hkept⟩

namespace Flag
variable {v : Vocabulary} {code : List Char} {flags : List Flag} {l : Line}

theorem isErased_of_span (code : List Char) {f : Flag} (hf : f ∈ flags) (hspan : f.span = l.span) :
    l.isErased flags code = true := by
  have hany : flags.any (fun f => f.span == l.span) = true :=
    List.any_eq_true.mpr ⟨f, hf, beq_iff_eq.mpr hspan⟩
  unfold Line.isErased
  rw [hany]
  rfl

theorem isErased_of_flagLine (h : findAll v code = .ok flags)
    (hl : (∃ name, (l, name) ∈ bareLines code) ∨ ∃ flag, (l, flag) ∈ valuedLines code) :
    l.isErased flags code = true := by
  unfold findAll at h
  obtain ⟨bare, hbare, h⟩ := Outcome.bind_eq_ok.mp h
  obtain ⟨valued, hvalued, h⟩ := Outcome.bind_eq_ok.mp h
  have hmem : ∀ f, f ∈ flags ↔ f ∈ bare ∨ f ∈ valued := by
    intro f
    rw [← Except.ok.inj h, Sorting.mem_sort_iff, List.mem_append]
  rcases hl with ⟨name, hl⟩ | ⟨flag, hl⟩
  · obtain ⟨f, hf, hparse⟩ := Outcome.exists_mem_of_mapM hbare hl
    exact isErased_of_span code ((hmem f).mpr (Or.inl hf)) (span_of_parse hparse)
  · obtain ⟨f, hf, hparse⟩ := Outcome.exists_mem_of_mapM hvalued hl
    exact isErased_of_span code ((hmem f).mpr (Or.inr hf)) (span_of_parse hparse)

theorem findAll_of_no_lines (v : Vocabulary) (hbare : bareLines code = [])
    (hvalued : valuedLines code = []) : findAll v code = .ok [] := by
  unfold findAll
  rw [hbare, hvalued]
  rfl

end Flag

namespace Cut
variable {code : List Char} {cuts : List Span} {l : Line}

theorem hides_of_mem_lines (h : findAll code = .ok cuts) {mark : Mark} (hl : l ∈ lines mark code) :
    hides code l = true := by
  have hsorted := lines_pairwise mark code
  have hrefl : Std.Refl fun a b : Line => a.start ≤ b.start := ⟨fun a => Nat.le_refl a.start⟩
  obtain ⟨spans, hpairs, -⟩ := findAll_ok h
  obtain ⟨-, horder⟩ := pairs_ok hpairs
  have hlength := length_begins_eq h
  unfold hides
  simp only [Bool.or_eq_true]
  cases mark with
  | before =>
    refine Or.inl (Or.inl ?_)
    rw [List.getLast?_eq_some_getLast (List.ne_nil_of_mem hl), Option.any_some]
    exact decide_eq_true (hsorted.rel_getLast hl)
  | after =>
    refine Or.inl (Or.inr ?_)
    rw [List.head?_eq_some_head (List.ne_nil_of_mem hl), Option.any_some]
    exact decide_eq_true (hsorted.rel_head hl)
  | begins =>
    -- The line begins the cut of its own rank, which ends at the line or further on.
    rw [← List.map_fst_zip (Nat.le_of_eq hlength)] at hl
    obtain ⟨⟨b, e⟩, hmem, rfl⟩ := List.mem_map.mp hl
    refine Or.inr (List.any_eq_true.mpr ⟨(b, e), hmem, ?_⟩)
    simpa using horder (b, e) hmem
  | ends =>
    rw [← List.map_snd_zip (Nat.le_of_eq hlength.symm)] at hl
    obtain ⟨⟨b, e⟩, hmem, rfl⟩ := List.mem_map.mp hl
    refine Or.inr (List.any_eq_true.mpr ⟨(b, e), hmem, ?_⟩)
    simpa using horder (b, e) hmem

theorem isErased_of_mem_lines (h : findAll code = .ok cuts) {mark : Mark}
    (hl : l ∈ lines mark code) (flags : List Flag) : l.isErased flags code = true := by
  unfold Line.isErased
  rw [hides_of_mem_lines h hl, Bool.or_true]

def Mark.recognise (mark : Mark) (text : List Char) : Option Unit :=
  if isMark mark text then some () else none

theorem mem_lines_iff {mark : Mark} :
    l ∈ lines mark code ↔ (l, ()) ∈ Line.select mark.recognise code := by
  rw [Line.mem_select_iff, lines, List.mem_filter]
  unfold Mark.recognise
  cases isMark mark l.text <;> simp

theorem findAll_of_no_lines (h : ∀ mark, lines mark code = []) : findAll code = .ok [] := by
  unfold findAll
  simp only [h]
  rfl

end Cut

namespace Plan
variable {start plan : Plan} {vocabulary : Flag.Vocabulary} {root : String} {code : List Char}
  {tags : List Note}

/-- Erasing what a plan removes leaves no directive. -/
theorem unmarked_eraseText (h : start.read vocabulary root code = .ok (plan, tags)) :
    Unmarked (Span.eraseText code plan.removals) := by
  obtain ⟨flags, cuts, hflags, hcuts, -, -, -⟩ := read_ok h
  have hwhole := removals_whole h hflags
  rw [Span.eraseText_eq_keptText (removals_proper h)]
  -- Each kind of directive is recognised line by line, and all lines of the kind are erased.
  have hgone : ∀ m : Line, (!m.isErased flags code) = true → m.isErased flags code = true → False := by
    intro m hkept herased
    rw [herased] at hkept
    cases hkept
  have hbare : Flag.bareLines (Span.keptText plan.removals code) = [] := by
    apply List.eq_nil_iff_forall_not_mem.mpr
    rintro ⟨l, name⟩ hl
    obtain ⟨m, hm, hkept⟩ := hwhole.exists_of_mem_select rfl hl
    exact hgone m hkept (Flag.isErased_of_flagLine hflags (Or.inl ⟨name, hm⟩))
  have hvalued : Flag.valuedLines (Span.keptText plan.removals code) = [] := by
    apply List.eq_nil_iff_forall_not_mem.mpr
    rintro ⟨l, flag⟩ hl
    obtain ⟨hselect, hname⟩ := List.mem_filter.mp hl
    obtain ⟨m, hm, hkept⟩ := hwhole.exists_of_mem_select rfl hselect
    have hflag : (m, flag) ∈ Flag.valuedLines code := List.mem_filter.mpr ⟨hm, hname⟩
    exact hgone m hkept (Flag.isErased_of_flagLine hflags (Or.inr ⟨flag, hflag⟩))
  have hlines : ∀ mark, Cut.lines mark (Span.keptText plan.removals code) = [] := by
    intro mark
    apply List.eq_nil_iff_forall_not_mem.mpr
    intro l hl
    obtain ⟨m, hm, hkept⟩ := hwhole.exists_of_mem_select (by cases mark <;> rfl)
      (Cut.mem_lines_iff.mp hl)
    exact hgone m hkept (Cut.isErased_of_mem_lines hcuts (Cut.mem_lines_iff.mpr hm) flags)
  refine ⟨fun v => Flag.findAll_of_no_lines v hbare hvalued, Cut.findAll_of_no_lines hlines, ?_⟩
  apply List.eq_nil_iff_forall_not_mem.mpr
  rintro ⟨l, form⟩ hl
  obtain ⟨m, hm, hkept⟩ := hwhole.exists_of_mem_select rfl hl
  apply hgone m hkept
  unfold Line.isErased
  rw [(Line.mem_select_iff.mp hm).2, Option.isSome_some, Bool.or_true, Bool.true_or]

/-- Reading a text without directives finds nothing to erase, to note or to answer. -/
theorem read_of_unmarked (hcode : Unmarked code)
    (h : start.read vocabulary root code = .ok (plan, tags)) :
    plan.removals = [] ∧ plan.flags = [] ∧ tags = [] ∧ plan.asked = start.asked := by
  obtain ⟨flags, cuts, hflags, hcuts, -, rfl, rfl⟩ := read_ok h
  obtain rfl : [] = flags := Except.ok.inj ((hcode.flags vocabulary).symm.trans hflags)
  obtain rfl : [] = cuts := Except.ok.inj (hcode.cuts.symm.trans hcuts)
  refine ⟨?_, rfl, rfl, ?_⟩
  · simp only [Marker.removals, hcode.markers]
    rfl
  · simp only [Marker.requests, hcode.markers]
    rfl

end Plan

namespace Annotator

theorem code_of_not_showEmit {a : Annotator} {q : Request} {w : World} {r : Result}
    (h : (a.annotate q w).1 = .ok r) (hemit : r.plan.behaviour.showEmit = false) :
    ∃ (start plan : Plan) (tags : List Note),
      start.read (a.job q).vocabulary a.root q.code = .ok (plan, tags) ∧
      ((r.plan.behaviour.keepNotations = true ∧ r.code = q.code) ∨
        r.plan.behaviour.keepNotations = false ∧ r.code = Span.eraseText q.code plan.removals) := by
  obtain ⟨start, d, -, hrun⟩ := annotate_ok h
  obtain ⟨plan, tags, d₁, d₂, d₃, shown, final, hread, -, -, hshown, hfinish⟩ := Work.run_ok hrun
  obtain ⟨extension, removals, hplan⟩ := Work.result_plan hshown hfinish
  have hoff : plan.behaviour.showEmit = false := by
    rw [hplan] at hemit
    exact hemit
  rw [Work.emit_of_not_showEmit hoff] at hshown
  obtain ⟨rfl, rfl⟩ := Prod.mk.inj (Except.ok.inj (Prod.mk.inj hshown).1)
  refine ⟨start, plan, tags, hread, ?_⟩
  rcases Work.finish_ok hfinish with ⟨hkeep, rfl⟩ | ⟨hkeep, rfl⟩
  · exact Or.inl ⟨hkeep, rfl⟩
  · exact Or.inr ⟨hkeep, rfl⟩

/-- A result without its directives has no directive left: read again, with the same names or with
others, it has no flag, no cut and no marker, erasing what is read in it leaves it as it is, and a
second call on it shows it unchanged. -/
theorem code_unmarked (a : Annotator) (q : Request) (w : World) (r : Result)
    (h : (a.annotate q w).1 = .ok r) (hemit : r.plan.behaviour.showEmit = false)
    (hkeep : r.plan.behaviour.keepNotations = false) :
    Unmarked r.code ∧
      (∀ (start plan : Plan) vocabulary root tags,
        start.read vocabulary root r.code = .ok (plan, tags) →
          Span.eraseText r.code plan.removals = r.code) ∧
      ∀ (b : Annotator) (p : Request) (v : World) (again : Result), p.code = r.code →
        (b.annotate p v).1 = .ok again → again.plan.behaviour.showEmit = false →
          again.code = r.code := by
  obtain ⟨start, plan, tags, hread, hcode⟩ := code_of_not_showEmit h hemit
  have hunmarked : Unmarked r.code := by
    rcases hcode with ⟨hkept, -⟩ | ⟨-, hcode⟩
    · exact absurd (hkeep.symm.trans hkept) Bool.false_ne_true
    · rw [hcode]
      exact Plan.unmarked_eraseText hread
  have hsecond : ∀ (start plan : Plan) vocabulary root tags,
      start.read vocabulary root r.code = .ok (plan, tags) →
        Span.eraseText r.code plan.removals = r.code := by
    intro start plan vocabulary root tags hread
    rw [(Plan.read_of_unmarked hunmarked hread).1, Span.eraseText_nil]
  refine ⟨hunmarked, hsecond, ?_⟩
  intro b p v again hsame hagain hshown
  obtain ⟨start', plan', tags', hread', hcode'⟩ := code_of_not_showEmit hagain hshown
  rw [hsame] at hread' hcode'
  rcases hcode' with ⟨-, hcode'⟩ | ⟨-, hcode'⟩
  · exact hcode'
  · exact hcode'.trans (hsecond start' plan' _ _ tags' hread')

/-- Cuts overlap, a marker and a flag stand inside one of them, and a file line stays. -/
theorem code_unmarked_example :
    let a : Annotator := { declarations := [] }
    let q : Request :=
      { code := ("// ---cut-start---\n// @noErrors\nx\n// ---cut-start---\n// ---cut-end---\ny\n" ++
          "// ---cut-end---\n// @filename: b.ts\nlet b\n  // ---cut-after---\n// ---cut-after---").toList }
    ∃ r, (a.annotate q {}).1 = .ok r ∧ r.plan.behaviour.showEmit = false ∧
      r.plan.behaviour.keepNotations = false ∧ r.code = "// @filename: b.ts\nlet b\n".toList ∧
      Unmarked r.code := by
  intro a q
  have hrun : ((a.annotate q {}).1.toOption.map fun r =>
      (r.plan.behaviour.showEmit, r.plan.behaviour.keepNotations, r.code)) =
        some (false, false, "// @filename: b.ts\nlet b\n".toList) := by
    decide +kernel
  obtain ⟨r, hr, hvalues⟩ := Outcome.exists_ok_of_toOption_map hrun
  simp only [Prod.mk.injEq] at hvalues
  obtain ⟨hemit, hkeep, hcode⟩ := hvalues
  exact ⟨r, hr, hemit, hkeep, hcode, (code_unmarked a q {} r hr hemit hkeep).1⟩

end Annotator

end Marginalia
