import Mathlib.Data.List.Basic
import Marginalia.Proofs.Cause
import Marginalia.Proofs.Setting

/-!
# Errors in what is erased

A call can be told to drop the errors that start in a place that goes.  Without that the errors are
kept until the sample is erased, and those that start in such a place are lost then.  So, as long as
errors are not held against the declared ones, dropping them changes nothing that is shown.
-/

namespace Marginalia
set_option autoImplicit false

def Behaviour.dropping (b : Behaviour) : Behaviour := { b with noErrorsCutted := true }

def Plan.dropping (p : Plan) : Plan := { p with behaviour := p.behaviour.dropping }

/-- The result of a call that drops errors, from that of the call that does not. -/
def Result.dropping (r : Result) : Result := { r with plan := r.plan.dropping }

/-! ## Errors -/

def Plan.spares (plan : Plan) (n : Note) : Bool := !plan.removes n.start

theorem Work.errorNote?_dropping (plan : Plan) (s : Section) (e : Checker.Diagnostic) :
    errorNote? plan.dropping s e = (errorNote? plan s e).filter plan.spares := by
  have hcodes : plan.dropping.behaviour.ignoredCodes = plan.behaviour.ignoredCodes := rfl
  have hdrops : plan.dropping.behaviour.noErrorsCutted = true := rfl
  have hremoves : plan.dropping.removes = plan.removes := rfl
  unfold errorNote?
  dsimp only
  rw [hcodes, hdrops, hremoves, Bool.true_and]
  by_cases hskip : (e.path != s.path || plan.behaviour.ignoredCodes.contains e.code) = true
  · rw [if_pos hskip, if_pos hskip]
    rfl
  · rw [if_neg hskip, if_neg hskip]
    by_cases hgoes : plan.removes (e.start + s.offset) = true
    · cases plan.behaviour.noErrorsCutted with
      | true => simp [hgoes]
      | false => simp [hgoes, Plan.spares, Option.filter]
    · simp [hgoes, Plan.spares, Option.filter]

namespace Answered
variable {job : Job} {plan : Plan}

def told (plan : Plan) (p : Except Failure Checker) (s : Section) : Except Failure (List Note) :=
  (p >>= fun c => c.diagnostics s.path).map fun found => found.filterMap (Work.errorNote? plan s)

theorem errors_eq (plan : Plan) (p : Except Failure Checker) :
    errors plan p =
      if plan.behaviour.noErrors = .all then .ok []
      else ((plan.sections.filter fun s => Language.isSource s.extension).mapM (told plan p)).map
        List.flatten := by
  unfold errors
  split
  · rfl
  · have htold : ∀ s : Section, (do
        return (← p >>= fun c => c.diagnostics s.path).filterMap (Work.errorNote? plan s)) =
          told plan p s := by
      intro s
      unfold told
      cases (p >>= fun c => c.diagnostics s.path) with
      | error e => rfl
      | ok found => rfl
    rw [Outcome.mapM_congr fun s _ => htold s]
    cases (plan.sections.filter fun s => Language.isSource s.extension).mapM (told plan p) with
    | error e => rfl
    | ok lists => rfl

theorem told_dropping (p : Except Failure Checker) (s : Section) :
    told plan.dropping p s = (told plan p s).map (List.filter plan.spares) := by
  unfold told
  cases (p >>= fun c => c.diagnostics s.path) with
  | error e => rfl
  | ok found =>
    apply congrArg Except.ok
    rw [List.filter_filterMap]
    exact List.filterMap_congr fun e _ => Work.errorNote?_dropping plan s e

theorem errors_dropping (p : Except Failure Checker) :
    errors plan.dropping p = (errors plan p).map (List.filter plan.spares) := by
  have hsilence : plan.dropping.behaviour.noErrors = plan.behaviour.noErrors := rfl
  have hsections : plan.dropping.sections = plan.sections := rfl
  rw [errors_eq, errors_eq, hsilence, hsections]
  split
  · rfl
  · rw [Outcome.mapM_congr fun s _ => told_dropping p s, Outcome.mapM_map]
    cases (plan.sections.filter fun s => Language.isSource s.extension).mapM (told plan p) with
    | error e => rfl
    | ok lists => exact congrArg Except.ok List.filter_flatten.symm

theorem diagnosed_dropping (hvalidation : plan.behaviour.noErrorValidation = true)
    (p : Except Failure Checker) :
    diagnosed job plan.dropping p = (diagnosed job plan p).map (List.filter plan.spares) := by
  have hsame : plan.dropping.behaviour.noErrorValidation = true := hvalidation
  unfold diagnosed expected
  rw [errors_dropping, hvalidation, hsame]
  cases errors plan p with
  | error e => rfl
  | ok found => exact congrArg Except.ok (List.filter_comm _ _ found)

theorem populated_dropping (p : Except Failure Checker) (trees : Option (List Tree))
    (sections : List Section) :
    populated job plan.dropping p trees sections = populated job plan p trees sections := by
  induction sections generalizing p trees with
  | nil => rfl
  | cons s rest ih =>
    have hcollected : ∀ c, collected job plan.dropping c s trees = collected job plan c s trees :=
      fun _ => rfl
    have htrees : treesAfter plan.dropping s trees = treesAfter plan s trees := rfl
    simp only [populated, hcollected, htrees, ih]

end Answered

/-! ## Erasing -/

theorem Plan.settled_lost {plan : Plan} (hproper : ∀ s ∈ plan.removals, s.Proper) {n : Note}
    (htag : n.isTag = false) (hstart : 0 ≤ n.start) (hlength : 1 ≤ n.length)
    (hgoes : plan.removes n.start = true) : ¬ 0 ≤ (plan.settled n).start := by
  intro hkept
  rw [plan.settled_of_not_tag htag] at hkept
  obtain ⟨hstays, -⟩ := Span.stays_of_eraseStart hproper hstart (by omega) hkept
  have hfirst := hstays n.start.toNat (Nat.le_refl _) (by omega)
  have hcovered : Span.covered plan.removals n.start = true := hgoes
  rw [Span.stays, Int.toNat_of_nonneg hstart, hcovered] at hfirst
  cases hfirst

theorem Note.resolveAll_spared {plan : Plan} {errors : List Note} (text : List Char)
    (others : List Note)
    (h : ∀ n ∈ errors, plan.removes n.start = true → ¬ 0 ≤ (plan.settled n).start) :
    resolveAll text ((others ++ errors.filter plan.spares).map plan.settled) =
      resolveAll text ((others ++ errors).map plan.settled) := by
  -- What is dropped early is among the notes that are lost, and those are dropped here.
  have hsame : ((errors.filter plan.spares).map plan.settled).filter (fun n => 0 ≤ n.start) =
      (errors.map plan.settled).filter fun n => 0 ≤ n.start := by
    rw [List.filter_map, List.filter_map, List.filter_filter]
    congr 1
    apply List.filter_congr
    intro n hn
    by_cases hgoes : plan.removes n.start = true
    · simp [h n hn hgoes]
    · simp [Plan.spares, hgoes]
  unfold resolveAll
  rw [List.map_append, List.map_append, List.filter_append, List.filter_append, hsame]

theorem Checker.one_le_length {c : Checker} (h : ∀ rule ∈ c.rules, rule.pattern ≠ [])
    (sections : List Section) {path : String} {found : List Diagnostic}
    (hfound : (c.holding sections).diagnostics path = .ok found) : ∀ e ∈ found, 1 ≤ e.length := by
  intro e he
  obtain ⟨_, -, rule, hrule, i, -, hdiagnostic⟩ := exists_of_mem_diagnostics hfound he
  have hrules : (c.holding sections).rules = c.rules :=
    (Prod.mk.inj (Prod.mk.inj (knowledge_holding c sections)).2).1
  rw [hrules] at hrule
  have hpattern := List.length_pos_iff.mpr (h rule hrule)
  have hlength := (Rule.diagnostic_ok hdiagnostic).2.2.1
  omega

namespace Answered
variable {job : Job} {plan : Plan}

theorem finished_dropping (plan : Plan) (text : List Char) (notes : List Note) :
    finished plan.dropping text notes = (finished plan text notes).dropping := by
  have hsame : plan.dropping.behaviour.keepNotations = plan.behaviour.keepNotations := rfl
  unfold finished
  rw [hsame]
  cases plan.behaviour.keepNotations with
  | true => rfl
  | false => rfl

theorem finished_spared {others errors : List Note} (text : List Char)
    (hkeep : plan.behaviour.keepNotations = false)
    (h : ∀ n ∈ errors, plan.removes n.start = true → ¬ 0 ≤ (plan.settled n).start) :
    finished plan text (others ++ errors.filter plan.spares) =
      finished plan text (others ++ errors) := by
  have hnotes := Note.resolveAll_spared (Span.eraseText text plan.removals) others h
  unfold finished
  rw [hkeep]
  exact congrArg (Result.mk (Span.eraseText text plan.removals) ·
    { plan with removals := Span.mergeDescending plan.removals }) hnotes

theorem ending_dropping (p : Except Failure Checker) {others errors : List Note}
    (hkeep : plan.behaviour.keepNotations = false)
    (h : ∀ n ∈ errors, plan.removes n.start = true → ¬ 0 ≤ (plan.settled n).start) :
    ending job plan.dropping p (others ++ errors.filter plan.spares) =
      (ending job plan p (others ++ errors)).map Result.dropping := by
  have hsame : plan.dropping.behaviour.showEmit = plan.behaviour.showEmit := rfl
  unfold ending
  rw [hsame]
  cases plan.behaviour.showEmit with
  | false =>
    apply congrArg Except.ok
    rw [finished_dropping, finished_spared job.code hkeep h]
  | true =>
    have hrefreshed : ∀ paths, Work.refreshed job plan.dropping paths =
        Work.refreshed job plan paths := fun _ => rfl
    have htaken : plan.dropping.taken = plan.taken := rfl
    have hshown : ∀ p, shown job plan.dropping p =
        (shown job plan p).map fun x => (x.1, x.2.dropping) :=
      shown_changed (Behaviour.changes_switch (Or.inl rfl))
    rw [if_pos rfl, if_pos rfl, htaken, hrefreshed, hshown]
    cases shown job plan
        (p.map (·.holding (Work.refreshed job plan (plan.taken.map Section.path)))) with
    | error e => rfl
    | ok x => exact congrArg Except.ok (finished_dropping x.2 x.1 [])

theorem error_bounds {p : Except Failure Checker} {errors : List Note}
    (h : diagnosed job plan p = .ok errors)
    (hlength : ∀ c, p = .ok c → ∀ path found, c.diagnostics path = .ok found →
      ∀ e ∈ found, 1 ≤ e.length) {n : Note} (hn : n ∈ errors) :
    n.isTag = false ∧ 0 ≤ n.start ∧ 1 ≤ n.length := by
  obtain ⟨s, -, -, c, found, hc, hfound, e, he, hnote⟩ := exists_of_mem_errors h hn
  obtain ⟨_, -, _, -, i, -, hdiagnostic⟩ := Checker.exists_of_mem_diagnostics hfound he
  have hstart := (Checker.Rule.diagnostic_ok hdiagnostic).2.1
  have hpositive := hlength c hc s.path found hfound e he
  obtain ⟨-, rfl⟩ := Work.errorNote?_eq_some hnote
  refine ⟨rfl, ?_, hpositive⟩
  dsimp only
  omega

theorem outcome_dropping {tags : List Note} (p : Except Failure Checker) (trees : Option (List Tree))
    (hproper : ∀ s ∈ plan.removals, s.Proper)
    (hvalidation : plan.behaviour.noErrorValidation = true)
    (hkeep : plan.behaviour.keepNotations = false)
    (hlength : ∀ c, p = .ok c → ∀ path found, (c.holding plan.taken).diagnostics path = .ok found →
      ∀ e ∈ found, 1 ≤ e.length) :
    outcome job plan.dropping tags p trees = (outcome job plan tags p trees).map Result.dropping := by
  have htaken : plan.dropping.taken = plan.taken := rfl
  unfold outcome
  rw [htaken, populated_dropping, diagnosed_dropping hvalidation]
  cases populated job plan p trees plan.taken with
  | error e => rfl
  | ok found =>
    rw [Outcome.ok_bind, Outcome.ok_bind]
    cases herrors : diagnosed job plan (p.map (·.holding plan.taken)) with
    | error e => rfl
    | ok errors =>
      apply ending_dropping _ hkeep
      intro n hn hgoes
      have hserved : ∀ c, p.map (·.holding plan.taken) = .ok c → ∀ path found,
          c.diagnostics path = .ok found → ∀ e ∈ found, 1 ≤ e.length := by
        intro c hc
        obtain ⟨c, hp, rfl⟩ := Outcome.map_eq_ok.mp hc
        exact hlength c hp
      obtain ⟨htag, hstart, hpositive⟩ := error_bounds herrors hserved hn
      exact plan.settled_lost hproper htag hstart hpositive hgoes

end Answered

/-- Dropping errors that start in a place that goes changes nothing that is shown.  Let two calls
differ in that option, and let no flag of the sample set it.  If errors are not held against the
declared ones, directives are erased and no error is empty, then both calls fail alike, or both give
the same text, the same notes and the same plan but for the option. -/
theorem Annotator.annotate_dropping (a : Annotator) (q : Request) (w : World) (on off : Entries)
    (h : a.Switches .noErrorsCutted on off)
    (hflags : ∀ flags, Flag.findAll (a.job q).vocabulary q.code = .ok flags →
      ∀ f ∈ flags, ¬ f.Sets .noErrorsCutted)
    (hplan : ∀ plan tags, a.reading { q with behaviour := off } = .ok (plan, tags) →
      plan.behaviour.noErrorValidation = true ∧ plan.behaviour.keepNotations = false)
    (hlength : ∀ plan tags, a.reading { q with behaviour := off } = .ok (plan, tags) →
      ∀ c, w.serving a.slot a.script plan.options = .ok c → ∀ path found,
        (c.holding plan.taken).diagnostics path = .ok found → ∀ e ∈ found, 1 ≤ e.length) :
    (a.annotate { q with behaviour := on } w).1 =
      (a.annotate { q with behaviour := off } w).1.map Result.dropping := by
  have hreading : a.reading { q with behaviour := on } =
      (a.reading { q with behaviour := off }).map fun x => (x.1.dropping, x.2) :=
    h.reading_eq (Or.inl rfl) q hflags
  rw [annotate_fst, annotate_fst, hreading]
  cases hoff : a.reading { q with behaviour := off } with
  | error e => rfl
  | ok x =>
    obtain ⟨plan, tags⟩ := x
    obtain ⟨hvalidation, hkeep⟩ := hplan plan tags hoff
    obtain ⟨start, -, hread⟩ := Outcome.bind_eq_ok.mp hoff
    exact Answered.outcome_dropping _ w.trees (Plan.removals_proper hread) hvalidation hkeep
      (hlength plan tags hoff)

/-- One error in a place that is cut and one in a place that stays. -/
theorem Annotator.annotate_dropping_example :
    let a : Annotator :=
      { script := { rules := [⟨"boom".toList, .int 1, .str "no", .int 1⟩] }, declarations := [] }
    let q : Request := { code := "let boom\n// ---cut---\nlet boom\n".toList }
    let off : Entries := [("no_error_validation", .bool true)]
    let on : Entries := [("no_error_validation", .bool true), ("no_errors_cutted", .bool true)]
    ∃ r, (a.annotate { q with behaviour := off } {}).1 = .ok r ∧
      r.notes.map Work.reported? = [some ⟨1, 4, "index.ts", "no"⟩] ∧
      (a.annotate { q with behaviour := on } {}).1 = .ok r.dropping := by
  intro a q off on
  have hswitches : a.Switches .noErrorsCutted on off := by
    refine ⟨fun f hf => ?_, rfl, rfl⟩
    cases f with
    | noErrorsCutted => exact absurd rfl hf
    | _ => rfl
  have hflags : ∀ flags, Flag.findAll (a.job q).vocabulary q.code = .ok flags →
      ∀ f ∈ flags, ¬ f.Sets .noErrorsCutted := by
    have hnone : ((Flag.findAll (a.job q).vocabulary q.code).toOption.map List.length) = some 0 := by
      decide +kernel
    intro flags hfound f hf
    rw [hfound] at hnone
    rw [List.length_eq_zero_iff.mp (Option.some.inj hnone)] at hf
    cases hf
  have hplan : ∀ plan tags, a.reading { q with behaviour := off } = .ok (plan, tags) →
      plan.behaviour.noErrorValidation = true ∧ plan.behaviour.keepNotations = false := by
    have hread : ((a.reading { q with behaviour := off }).toOption.map fun x =>
        (x.1.behaviour.noErrorValidation, x.1.behaviour.keepNotations)) = some (true, false) := by
      decide +kernel
    intro plan tags hfound
    rw [hfound] at hread
    exact Prod.mk.inj (Option.some.inj hread)
  have hlength : ∀ plan tags, a.reading { q with behaviour := off } = .ok (plan, tags) →
      ∀ c, World.serving {} a.slot a.script plan.options = .ok c → ∀ path found,
        (c.holding plan.taken).diagnostics path = .ok found → ∀ e ∈ found, 1 ≤ e.length := by
    intro plan tags _ c hc path found
    apply Checker.one_le_length
    have hrules : c.rules = a.script.rules := by
      cases hc
      rfl
    rw [hrules]
    decide
  have hrun : ((a.annotate { q with behaviour := off } {}).1.toOption.map fun r =>
      r.notes.map Work.reported?) = some [some ⟨1, 4, "index.ts", "no"⟩] := by
    decide +kernel
  obtain ⟨r, hr, hnotes⟩ := Outcome.exists_ok_of_toOption_map hrun
  have hdropping := annotate_dropping a q {} on off hswitches hflags hplan hlength
  rw [hr] at hdropping
  exact ⟨r, hr, hnotes, hdropping⟩

end Marginalia
