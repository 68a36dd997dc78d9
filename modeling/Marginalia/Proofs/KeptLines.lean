import Marginalia.Annotator
import Marginalia.Proofs.Removal
import Marginalia.Proofs.Work

/-!
# The lines of a result

Without the emitted text and without kept directives, the result of a run is made of whole lines of
its sample: those that are neither flag nor marker lines and are not cut.
-/

namespace Marginalia
set_option autoImplicit false

theorem Annotator.annotate_ok {a : Annotator} {q : Request} {w : World} {r : Result}
    (h : (a.annotate q w).1 = .ok r) :
    ∃ start d, a.plan q = .ok start ∧
      Work.exec (Work.run (a.job q) start) { world := w } = (.ok r, d) := by
  unfold annotate at h
  split at h
  · cases h
  · next start hplan => exact ⟨start, _, hplan, Prod.ext h rfl⟩

namespace Work

theorem eraseText_removals {start plan : Plan} {vocabulary : Flag.Vocabulary} {root : String}
    {code : List Char} {tags : List Note} {flags : List Flag}
    (h : start.read vocabulary root code = .ok (plan, tags))
    (hflags : Flag.findAll vocabulary code = .ok flags) :
    Span.eraseText code plan.removals =
      ((Line.written code).filter fun x => !x.1.isErased flags code).flatMap Prod.snd := by
  rw [Span.eraseText_eq_keptText (Plan.removals_proper h)]
  exact (Plan.removals_whole h hflags).keepFrom_eq

end Work

/-- The result consists of the lines of the sample that are not erased, in their order and each in
full. -/
theorem Annotator.code_eq_kept_lines (a : Annotator) (q : Request) (w : World) (r : Result)
    (h : (a.annotate q w).1 = .ok r) (hemit : r.plan.behaviour.showEmit = false)
    (hkeep : r.plan.behaviour.keepNotations = false) :
    ∃ flags, Flag.findAll (a.job q).vocabulary q.code = .ok flags ∧
      (Line.written q.code).map Prod.fst = Line.all q.code ∧
      (Line.written q.code).flatMap Prod.snd = q.code ∧
      r.code = ((Line.written q.code).filter fun x => !x.1.isErased flags q.code).flatMap Prod.snd := by
  obtain ⟨start, d, -, hrun⟩ := annotate_ok h
  obtain ⟨plan, tags, d₁, d₂, d₃, shown, final, hread, -, -, hshown, hfinish⟩ := Work.run_ok hrun
  obtain ⟨flags, cuts, hflags, -⟩ := Plan.read_ok hread
  obtain ⟨extension, removals, hplan⟩ := Work.result_plan hshown hfinish
  have hoff : plan.behaviour.showEmit = false := by
    rw [hplan] at hemit
    exact hemit
  refine ⟨flags, hflags, Line.map_fst_written q.code, Line.flatMap_snd_written q.code, ?_⟩
  rcases Work.finish_ok hfinish with ⟨hkept, rfl⟩ | ⟨-, rfl⟩
  · exact absurd (hkeep.symm.trans hkept) (by decide)
  · rw [Work.emit_of_not_showEmit hoff] at hshown
    obtain ⟨rfl, rfl⟩ := Prod.mk.inj (Except.ok.inj (Prod.mk.inj hshown).1)
    exact Work.eraseText_removals hread hflags

/-- A cut above, a marker and a flag between, and a last line without a line feed. -/
theorem Annotator.code_eq_kept_lines_example :
    let a : Annotator := { script := { quickInfo := [("b", .str "let b")] }, declarations := [] }
    let q : Request := { code := "x\n// ---cut---\nlet b\n//  ^?\n// @noErrors\n\nc".toList }
    ∃ r, (a.annotate q {}).1 = .ok r ∧ r.plan.behaviour.showEmit = false ∧
      r.plan.behaviour.keepNotations = false ∧ r.code = "let b\n\nc".toList ∧
      ∃ flags, Flag.findAll (a.job q).vocabulary q.code = .ok flags ∧
        r.code =
          ((Line.written q.code).filter fun x => !x.1.isErased flags q.code).flatMap Prod.snd := by
  intro a q
  have hrun : ((a.annotate q {}).1.toOption.map fun r =>
      (r.plan.behaviour.showEmit, r.plan.behaviour.keepNotations, r.code)) =
        some (false, false, "let b\n\nc".toList) := by
    decide +kernel
  obtain ⟨r, hr, hvalues⟩ := Outcome.exists_ok_of_toOption_map hrun
  simp only [Prod.mk.injEq] at hvalues
  obtain ⟨hemit, hkeep, hcode⟩ := hvalues
  obtain ⟨flags, hflags, -, -, hlines⟩ := code_eq_kept_lines a q {} r hr hemit hkeep
  exact ⟨r, hr, hemit, hkeep, hcode, flags, hflags, hlines⟩

end Marginalia
