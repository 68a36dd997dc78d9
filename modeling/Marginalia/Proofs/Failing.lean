import Marginalia.Proofs.Coercion
import Marginalia.Proofs.Hover
import Marginalia.Proofs.Refused

/-!
# How a call can fail

Reading a sample, building a checker, collecting notes and finding errors fail only in ways that are
told to the reader: with a report, or with the faults of what was given.  The one other way to fail
is to ask the checker for the output of a file that it does not hold.  That happens because the file
to show is sought among all sections, and not only among those that a checker takes.
-/

namespace Marginalia
set_option autoImplicit false

open Outcome

/-- The failure is told to the reader: by a report, or by the faults of what was given. -/
def Failure.Told (e : Failure) : Prop := e.report?.isSome = true ∨ ∃ faults, e = .malformed faults

theorem Failure.told_malformed (faults : List Fault) : Told (.malformed faults) := Or.inr ⟨faults, rfl⟩

def Telling {α : Type} (x : Except Failure α) : Prop := FailsOnly Failure.Told x

/-- A sort of failure that takes in what is told before and behind the collecting of notes. -/
structure Failure.Around (P : Failure → Prop) : Prop where
  reading : ∀ e, e.OfReading → P e
  malformed : ∀ faults, P (.malformed faults)
  undocumented : ∀ codes expected root errors, P (.undocumentedErrors codes expected root errors)
  source : ∀ shown files, P (.missingSource shown files)
  output : ∀ shown path outputs, P (.missingOutput shown path outputs)

theorem Failure.around_told : Around Told where
  reading e he := by
    cases e with
    | unknownLanguage | invalidValue | unknownFlags | incompatibleOptions | mismatchedCuts =>
      exact Or.inl rfl
    | _ => exact False.elim he
  malformed := told_malformed
  undocumented _ _ _ _ := Or.inl rfl
  source _ _ := Or.inl rfl
  output _ _ _ := Or.inl rfl

/-! ## Reading the sample -/

section Reading
variable {P : Failure → Prop} (hP : Failure.Around P)
include hP

theorem Language.failsOnly_extensionOfTag (tag : String) : FailsOnly P (extensionOfTag tag) := by
  unfold extensionOfTag
  split
  · exact failsOnly_ok _
  · exact failsOnly_error (hP.reading _ trivial)

theorem Annotator.failsOnly_plan (a : Annotator) (q : Request) : FailsOnly P (a.plan q) := by
  unfold plan
  refine (Language.failsOnly_extensionOfTag hP q.language).bind fun _ _ => ?_
  refine (failsOnly_toExcept hP.malformed _).bind fun _ _ => ?_
  refine (failsOnly_toExcept hP.malformed q.asked).bind fun _ _ => ?_
  exact failsOnly_ok _

theorem Plan.failsOnly_checkOptions (p : Plan) : FailsOnly P p.checkOptions := by
  unfold checkOptions
  dsimp only
  split
  · exact failsOnly_error (hP.reading _ trivial)
  · split
    · exact failsOnly_error (hP.reading _ trivial)
    · exact failsOnly_ok ()

theorem Plan.failsOnly_read (start : Plan) (vocabulary : Flag.Vocabulary) (root : String)
    (code : List Char) : FailsOnly P (start.read vocabulary root code) := by
  have hflags : FailsOnly P (Flag.findAll vocabulary code) := by
    intro e he
    obtain ⟨name, value, objection, rfl⟩ := Flag.failsOnly_findAll vocabulary code e he
    exact hP.reading _ trivial
  have hcuts : FailsOnly P (Cut.findAll code) :=
    Cut.failsOnly_findAll (fun _ => hP.reading _ trivial) code
  unfold read
  refine hflags.bind fun flags _ => ?_
  refine (failsOnly_checkOptions hP (start.withFlags flags)).bind fun _ _ => ?_
  exact hcuts.bind fun cuts _ => failsOnly_ok _

theorem Annotator.failsOnly_reading (a : Annotator) (q : Request) : FailsOnly P (a.reading q) :=
  (a.failsOnly_plan hP q).bind fun start _ => start.failsOnly_read hP _ _ _

end Reading

/-! ## Checkers and trees -/

theorem World.failsOnly_serving {P : Failure → Prop} (h : ∀ faults, P (.malformed faults)) (w : World)
    (slot : Option Nat) (script : Checker.Script) (options : Entries) :
    FailsOnly P (w.serving slot script options) := by
  unfold serving
  split
  · exact failsOnly_ok _
  · exact Checker.failsOnly_ofScript h script options

theorem World.telling_serving (w : World) (slot : Option Nat) (script : Checker.Script)
    (options : Entries) : Telling (w.serving slot script options) :=
  w.failsOnly_serving Failure.told_malformed slot script options

namespace Identifier

theorem exists_charIndexFrom {i byte : Nat} {content : List Char} (h : byte ≤ byteCount content) :
    ∃ j, charIndexFrom? i byte content = some j := by
  induction content generalizing i byte with
  | nil =>
    obtain rfl : byte = 0 := Nat.le_zero.mp h
    exact ⟨i, rfl⟩
  | cons c rest ih =>
    simp only [charIndexFrom?]
    split
    · exact ⟨i, rfl⟩
    · simp only [byteCount] at h
      exact ih (by omega)

theorem exists_charIndex {content : List Char} {byte : Int} (h0 : 0 ≤ byte)
    (hle : byte ≤ byteCount content) (hword : Number.fitsWord (byteCount content) = true) :
    ∃ i, charIndex content byte = .ok i := by
  have hfits : Number.fitsWord byte = true := by
    rw [Number.fitsWord_iff] at hword ⊢
    omega
  obtain ⟨j, hj⟩ := exists_charIndexFrom (i := 0) (show byte.toNat ≤ byteCount content by omega)
  unfold charIndex
  split
  · exact ⟨byte, rfl⟩
  · simp only [hfits, Bool.not_true, Bool.false_eq_true, if_false]
    rw [if_neg (Int.not_lt.mpr h0), if_neg (Int.not_lt.mpr h0), hj]
    exact ⟨j, rfl⟩

theorem exists_atBytes {content : List Char} {first last : Int}
    (hfirst : 0 ≤ first ∧ first ≤ byteCount content) (hlast : 0 ≤ last ∧ last ≤ byteCount content)
    (hword : Number.fitsWord (byteCount content) = true) :
    ∃ xs, atBytes content first last = .ok xs := by
  obtain ⟨start, hstart⟩ := exists_charIndex hfirst.1 hfirst.2 hword
  obtain ⟨stop, hstop⟩ := exists_charIndex hlast.1 hlast.2 hword
  unfold atBytes
  rw [hstart, hstop]
  exact ⟨_, rfl⟩

end Identifier

namespace Tree

mutual

theorem exists_preorder {content : List Char}
    (hword : Number.fitsWord (Identifier.byteCount content) = true) {t : Tree}
    (ht : t.Within content) : ∃ xs, t.preorder content = .ok xs := by
  cases t with
  | node kind first last children =>
    simp only [Within] at ht
    simp only [preorder]
    split
    · exact Identifier.exists_atBytes ht.1 ht.2.1 hword
    · exact exists_preorderOfAll hword ht.2.2

theorem exists_preorderOfAll {content : List Char}
    (hword : Number.fitsWord (Identifier.byteCount content) = true) {ts : List Tree}
    (hts : AllWithin content ts) : ∃ xs, preorderOfAll content ts = .ok xs := by
  cases ts with
  | nil => exact ⟨[], by simp only [preorderOfAll]⟩
  | cons t rest =>
    simp only [AllWithin] at hts
    obtain ⟨xs, hxs⟩ := exists_preorder hword hts.1
    obtain ⟨ys, hys⟩ := exists_preorderOfAll hword hts.2
    simp only [preorderOfAll, hxs, hys]
    exact ⟨_, rfl⟩

end

/-- There is a tree for each of the sections.  It keeps within the section's text, whose bytes can be
numbered by words. -/
def Supply (trees : Option (List Tree)) (sections : List Section) : Prop :=
  ∀ ts, trees = some ts → sections.length ≤ ts.length ∧ ∀ x ∈ ts.zip sections,
    x.1.Within x.2.content ∧ Number.fitsWord (Identifier.byteCount x.2.content) = true

theorem Supply.head {ts : List Tree} {s : Section} {sections : List Section}
    (h : Supply (some ts) (s :: sections)) :
    ∃ t rest, ts = t :: rest ∧ t.Within s.content ∧
      Number.fitsWord (Identifier.byteCount s.content) = true ∧ Supply (some rest) sections := by
  obtain ⟨hlength, hall⟩ := h ts rfl
  cases ts with
  | nil => cases hlength
  | cons t rest =>
    obtain ⟨hwithin, hword⟩ := hall (t, s) List.mem_cons_self
    refine ⟨t, rest, rfl, hwithin, hword, ?_⟩
    rintro ts' ⟨⟩
    exact ⟨Nat.le_of_succ_le_succ hlength, fun x hx => hall x (List.mem_cons_of_mem (t, s) hx)⟩

end Tree

theorem Plan.exists_readSection {plan : Plan} {trees : Option (List Tree)} {s : Section}
    {sections : List Section} (h : Tree.Supply trees ((s :: sections).filter plan.parses)) :
    (∃ xs, (plan.readSection trees s).1 = .ok xs) ∧
      Tree.Supply (plan.readSection trees s).2 (sections.filter plan.parses) := by
  unfold readSection
  split
  · next hasks =>
    unfold Section.read World.identifiers
    cases hgrammar : Language.grammar? s.extension with
    | none =>
      have hparses : ¬ plan.parses s = true := by simp [parses, hgrammar]
      rw [List.filter_cons_of_neg hparses] at h
      exact ⟨⟨_, rfl⟩, h⟩
    | some grammar =>
      have hparses : plan.parses s = true := by simp [parses, hasks, hgrammar]
      rw [List.filter_cons_of_pos hparses] at h
      cases trees with
      | none => exact ⟨⟨_, rfl⟩, fun ts hts => by cases hts⟩
      | some ts =>
        obtain ⟨t, rest, rfl, hwithin, hword, hrest⟩ := h.head
        obtain ⟨xs, hxs⟩ := Tree.exists_preorder hword hwithin
        dsimp only
        rw [Tree.identifiers_eq_preorder, hxs]
        exact ⟨⟨_, rfl⟩, hrest⟩
  · next hasks =>
    have hparses : ¬ plan.parses s = true := by simp [parses, hasks]
    rw [List.filter_cons_of_neg hparses] at h
    exact ⟨⟨[], rfl⟩, h⟩

/-! ## Collecting notes -/

namespace Answered
variable {job : Job} {plan : Plan}

theorem telling_joined {first second : Except Failure (List Note)} (hfirst : Telling first)
    (hsecond : Telling second) : Telling (joined first second) :=
  hfirst.bind fun _ _ => hsecond.bind fun _ _ => failsOnly_ok _

section Notes
variable (c : Checker) (s : Section) (xs : List Identifier)

theorem telling_query (i : Int) : Telling (query job (c.create s.path s.content) s xs i) := by
  unfold query
  split
  · exact failsOnly_error (Or.inl rfl)
  · rw [Checker.infoAt_create_self, Outcome.ok_bind]
    split
    · exact failsOnly_error (Or.inl rfl)
    · exact failsOnly_ok _

theorem telling_highlight (h : Highlight) :
    Telling (highlight job (c.create s.path s.content) s xs h) := by
  unfold highlight
  refine (FailsOnly.filterMapM fun x _ => ?_).bind fun notes _ => ?_
  · unfold highlighted
    split
    · exact failsOnly_ok none
    · rw [Checker.infoAt_create_self]
      exact (failsOnly_ok _).map _
  · split
    · exact failsOnly_error (Or.inl rfl)
    · exact failsOnly_ok notes

theorem telling_completion (i : Int) : Telling (completion job plan c s i) := by
  unfold completion
  split
  · exact failsOnly_ok none
  · split
    · exact failsOnly_error (Or.inl rfl)
    · exact failsOnly_ok _

theorem telling_notes : Telling (notes job plan (c.create s.path s.content) s xs) := by
  unfold notes
  refine telling_joined ?_ (telling_joined ?_ (telling_joined ?_ ?_))
  · unfold hovers
    split
    · exact failsOnly_ok []
    · refine FailsOnly.filterMapM fun x _ => ?_
      rw [hover_create]
      exact failsOnly_ok _
  · exact FailsOnly.mapM fun i _ => telling_query c s xs i
  · exact (FailsOnly.mapM fun h _ => telling_highlight c s xs h).map _
  · exact FailsOnly.filterMapM fun i _ => telling_completion _ s i

end Notes

theorem telling_populated {p : Except Failure Checker} (hp : Telling p) {trees : Option (List Tree)}
    {sections : List Section}
    (htrees : plan.behaviour.showEmit = false → Tree.Supply trees (sections.filter plan.parses)) :
    Telling (populated job plan p trees sections) := by
  induction sections generalizing p trees with
  | nil => exact failsOnly_ok []
  | cons s rest ih =>
    unfold populated
    refine hp.bind fun c _ => ?_
    apply telling_joined
    · unfold collected
      split
      · exact failsOnly_ok []
      · next hemit =>
        obtain ⟨⟨xs, hxs⟩, -⟩ := Plan.exists_readSection (htrees (Bool.eq_false_iff.mpr hemit))
        rw [hxs]
        exact telling_notes c s xs
    · apply ih (failsOnly_ok _)
      intro hemit
      rw [treesAfter_of_not_showEmit hemit]
      exact (Plan.exists_readSection (htrees hemit)).2

theorem failsOnly_diagnosed {P : Failure → Prop} (hP : Failure.Around P) {p : Except Failure Checker}
    (hp : FailsOnly P p) : FailsOnly P (diagnosed job plan (p.map (·.holding plan.taken))) := by
  unfold diagnosed
  refine FailsOnly.bind ?_ fun found _ => FailsOnly.map ?_ _
  · unfold errors
    split
    · exact failsOnly_ok []
    · refine (FailsOnly.mapM fun s hs => ?_).bind fun found _ => failsOnly_ok _
      obtain ⟨hmem, hsource⟩ := List.mem_filter.mp hs
      have htaken : s ∈ plan.taken :=
        List.mem_filter.mpr ⟨hmem, Plan.registers_of_isSource hsource⟩
      obtain ⟨last, hlast⟩ := Section.exists_last? htaken rfl
      refine FailsOnly.bind ?_ fun found _ => failsOnly_ok _
      refine (hp.map _).bind fun c hc => ?_
      obtain ⟨c, -, rfl⟩ := Outcome.map_eq_ok.mp hc
      have htext : (c.holding plan.taken).textOf s.path = .ok last.content := by
        unfold Checker.textOf
        rw [Checker.file?_holding, hlast]
        rfl
      unfold Checker.diagnostics
      rw [htext]
      refine FailsOnly.map (FailsOnly.mapM fun rule _ => ?_) _
      exact FailsOnly.mapM fun i _ => failsOnly_toExcept hP.malformed _
  · unfold expected
    split
    · unfold Expectation.check
      dsimp only
      split
      · exact failsOnly_ok ()
      · exact failsOnly_error (hP.undocumented _ _ _ _)
    · exact failsOnly_ok ()

end Answered

theorem Annotator.telling_collected (a : Annotator) (q : Request) (w : World)
    (htrees : ∀ plan tags, a.reading q = .ok (plan, tags) → Tree.Supply w.trees plan.parsed) :
    Telling (a.collected q w) := by
  unfold collected
  refine (a.failsOnly_reading Failure.around_told q).bind fun x hread => ?_
  obtain ⟨plan, tags⟩ := x
  have hserving := w.telling_serving a.slot a.script plan.options
  refine (Answered.telling_populated hserving ?_).bind fun found _ => ?_
  · intro hemit
    have hsupply := htrees plan tags hread
    unfold Plan.parsed at hsupply
    rw [hemit, if_neg Bool.false_ne_true] at hsupply
    exact hsupply
  · exact (Answered.failsOnly_diagnosed Failure.around_told hserving).bind fun errors _ =>
      failsOnly_ok _

/-! ## Making the result -/

namespace Checker

theorem emit_error_cases {c : Checker} {path : String} {e : Failure} (h : c.emit path = .error e) :
    (∃ faults, e = .malformed faults) ∨
      e = .unknownFile path ∧ (c.option "outFile").truthy = false ∧ c.file? path = none := by
  unfold emit at h
  dsimp only at h
  split at h
  · split at h
    · cases h
    · cases h
      exact Or.inl ⟨_, rfl⟩
  · next hout =>
    unfold textOf at h
    cases hfile : c.file? path with
    | some text =>
      rw [hfile] at h
      cases h
    | none =>
      rw [hfile] at h
      cases h
      exact Or.inr ⟨rfl, Bool.eq_false_iff.mpr hout, rfl⟩

theorem emit_of_no_file {c : Checker} {path : String} (hout : (c.option "outFile").truthy = false)
    (hfile : c.file? path = none) : c.emit path = .error (.unknownFile path) := by
  unfold emit textOf
  dsimp only
  rw [hout, hfile]
  rfl

end Checker

theorem Failure.not_told_unknownFile (path : String) : ¬ Told (.unknownFile path) := by
  rintro (h | ⟨faults, h⟩)
  · cases h
  · cases h

namespace Plan
variable {start plan : Plan} {vocabulary : Flag.Vocabulary} {root : String} {code : List Char}
  {tags : List Note}

/-- When outputs are made, the checker lacks a file of the sample exactly if it was not given the file
and did not hold it before. -/
theorem file?_upToDate_eq_none_iff (h : start.read vocabulary root code = .ok (plan, tags))
    {s : Section} (hs : s ∈ plan.sections) (job : Job) (c : Checker) :
    (Work.upToDate job plan c).file? s.path = none ↔
      plan.registers s = false ∧ c.file? s.path = none := by
  cases hregisters : plan.registers s with
  | false => rw [file?_of_not_registers h hs hregisters, eq_self, true_and]
  | true =>
    obtain ⟨last, hlast⟩ := Section.exists_last? (List.mem_filter.mpr ⟨hs, hregisters⟩) rfl
    have hfile : (Work.upToDate job plan c).file? s.path ≠ none := by
      have htaken : Section.last? s.path plan.taken = some last := hlast
      rw [Work.upToDate, Checker.file?_holding, Checker.file?_holding, htaken]
      cases Section.last? s.path (Work.refreshed job plan (plan.taken.map Section.path)) <;>
        exact Option.some_ne_none _
    exact ⟨fun hnone => absurd hnone hfile, fun hfalse => by cases hfalse.1⟩

/-- The output of the section is to be shown, but a checker does not take such a file, and this one
does not hold it already. -/
structure Unheld (plan : Plan) (c : Checker) (s : Section) : Prop where
  shows : plan.behaviour.showEmit = true
  mem : s ∈ plan.sections
  source : Work.sourceFor? plan (Work.shownName plan) = some s.filename
  single : (c.option "outFile").truthy = false
  untaken : plan.registers s = false
  absent : c.file? s.path = none

end Plan

namespace Answered
variable {job : Job} {start plan : Plan} {code : List Char} {tags notes : List Note}
  {p : Except Failure Checker}

theorem option_upToDate (c : Checker) (name : String) :
    (Work.upToDate job plan c).option name = c.option name := by
  rw [Work.upToDate, Checker.option_holding, Checker.option_holding]

theorem ending_of_showEmit (hemit : plan.behaviour.showEmit = true) :
    ending job plan (p.map (·.holding plan.taken)) notes =
      (shown job plan (p.map (Work.upToDate job plan))).map fun x => finished x.2 x.1 [] := by
  have hboth : (p.map (·.holding plan.taken)).map
      (·.holding (Work.refreshed job plan (plan.taken.map Section.path))) =
        p.map (Work.upToDate job plan) := by
    cases p <;> rfl
  unfold ending
  rw [if_pos hemit, hboth]

theorem ending_error_cases_of {P : Failure → Prop} (hmalformed : ∀ faults, P (.malformed faults))
    (hmissing : ∀ shown files, P (.missingSource shown files))
    (houtput : ∀ shown path outputs, P (.missingOutput shown path outputs))
    (hread : start.read job.vocabulary job.root code = .ok (plan, tags)) (hp : FailsOnly P p)
    {e : Failure} (h : ending job plan (p.map (·.holding plan.taken)) notes = .error e) :
    P e ∨ ∃ c s, p = .ok c ∧ plan.Unheld c s ∧ e = .unknownFile s.path := by
  cases hemit : plan.behaviour.showEmit with
  | false =>
    unfold ending at h
    rw [hemit] at h
    cases h
  | true =>
    rw [ending_of_showEmit hemit] at h
    have hshown := map_eq_error.mp h
    unfold shown at hshown
    dsimp only at hshown
    split at hshown
    · cases hshown
      exact Or.inl (hmissing _ _)
    · next source hsource =>
      obtain ⟨s, hs, rfl⟩ := Work.exists_of_sourceFor hsource
      have hpath : job.root ++ s.filename = s.path := (Plan.names_of_mem hread hs).1.symm
      rw [hpath] at hshown
      rcases bind_eq_error.mp hshown with hfails | ⟨outputs, -, hpick⟩
      · rcases bind_eq_error.mp hfails with hnone | ⟨_, hc, hfails⟩
        · exact Or.inl (hp e (map_eq_error.mp hnone))
        · obtain ⟨c, rfl, rfl⟩ := Outcome.map_eq_ok.mp hc
          rcases Checker.emit_error_cases hfails with ⟨faults, rfl⟩ | ⟨rfl, hout, hfile⟩
          · exact Or.inl (hmalformed faults)
          · rw [option_upToDate] at hout
            obtain ⟨huntaken, habsent⟩ := (Plan.file?_upToDate_eq_none_iff hread hs job c).mp hfile
            exact Or.inr ⟨c, s, rfl, ⟨hemit, hs, hsource, hout, huntaken, habsent⟩, rfl⟩
      · split at hpick
        · cases hpick
          exact Or.inl (houtput _ _ _)
        · cases hpick

theorem ending_error_cases (hread : start.read job.vocabulary job.root code = .ok (plan, tags))
    (hp : Telling p) {e : Failure}
    (h : ending job plan (p.map (·.holding plan.taken)) notes = .error e) :
    e.Told ∨ ∃ c s, p = .ok c ∧ plan.Unheld c s ∧ e = .unknownFile s.path :=
  ending_error_cases_of Failure.told_malformed Failure.around_told.source Failure.around_told.output
    hread hp h

theorem ending_of_unheld (hread : start.read job.vocabulary job.root code = .ok (plan, tags))
    {c : Checker} {s : Section} (h : plan.Unheld c s) :
    ending job plan ((Except.ok c).map (·.holding plan.taken)) notes =
      .error (.unknownFile s.path) := by
  have hpath : job.root ++ s.filename = s.path := (Plan.names_of_mem hread h.mem).1.symm
  have hfile := (Plan.file?_upToDate_eq_none_iff hread h.mem job c).mpr ⟨h.untaken, h.absent⟩
  have hout : ((Work.upToDate job plan c).option "outFile").truthy = false := by
    rw [option_upToDate]
    exact h.single
  rw [ending_of_showEmit h.shows]
  unfold shown
  dsimp only
  rw [h.source]
  dsimp only
  rw [hpath]
  have hemit : ((Except.ok c).map (Work.upToDate job plan) >>= fun c => c.emit s.path) =
      .error (.unknownFile s.path) := Checker.emit_of_no_file hout hfile
  rw [hemit]
  rfl

theorem ending_of_no_source (hemit : plan.behaviour.showEmit = true)
    (hsource : Work.sourceFor? plan (Work.shownName plan) = none) :
    ending job plan (p.map (·.holding plan.taken)) notes =
      .error (.missingSource (Work.shownName plan) (plan.sections.map Section.filename)) := by
  rw [ending_of_showEmit hemit]
  unfold shown
  dsimp only
  rw [hsource]
  rfl

theorem ending_of_no_output {c : Checker} {source : String} {outputs : List Checker.Output}
    (hemit : plan.behaviour.showEmit = true)
    (hsource : Work.sourceFor? plan (Work.shownName plan) = some source)
    (houtputs : (Work.upToDate job plan c).emit (job.root ++ source) = .ok outputs)
    (hnames : ∀ o ∈ outputs, o.name ≠ job.root ++ Work.shownName plan ∧ o.name ≠ Work.shownName plan) :
    ending job plan ((Except.ok c).map (·.holding plan.taken)) notes =
      .error (.missingOutput (Work.shownName plan) (job.root ++ Work.shownName plan)
        (outputs.map Checker.Output.name)) := by
  have hfind : outputs.find? (fun o =>
      o.name == job.root ++ Work.shownName plan || o.name == Work.shownName plan) = none := by
    apply List.find?_eq_none.mpr
    intro o ho
    simpa using hnames o ho
  have hrun : ((Except.ok c).map (Work.upToDate job plan) >>= fun c => c.emit (job.root ++ source)) =
      .ok outputs := houtputs
  rw [ending_of_showEmit hemit]
  unfold shown
  dsimp only
  rw [hsource]
  dsimp only
  rw [hrun, Outcome.ok_bind, hfind]
  rfl

end Answered

/-- Whatever a call is given, its failure is told, unless the output to show is that of a file that
the checker does not hold.  A source or an output that is missing at all is told as such. -/
theorem Annotator.failure_told_or_unheld (a : Annotator) (q : Request) (w : World)
    (htrees : ∀ plan tags, a.reading q = .ok (plan, tags) → Tree.Supply w.trees plan.parsed) :
    (∀ e, (a.annotate q w).1 = .error e → e.Told ∨ ∃ path, e = .unknownFile path) ∧
      (∀ path, (a.annotate q w).1 = .error (.unknownFile path) ↔
        ∃ plan notes c s, a.collected q w = .ok (plan, notes) ∧
          w.serving a.slot a.script plan.options = .ok c ∧ plan.Unheld c s ∧ s.path = path) ∧
      ∀ plan notes, a.collected q w = .ok (plan, notes) → plan.behaviour.showEmit = true →
        (Work.sourceFor? plan (Work.shownName plan) = none → (a.annotate q w).1 =
          .error (.missingSource (Work.shownName plan) (plan.sections.map Section.filename))) ∧
        ∀ c source outputs, w.serving a.slot a.script plan.options = .ok c →
          Work.sourceFor? plan (Work.shownName plan) = some source →
          (Work.upToDate (a.job q) plan c).emit (a.root ++ source) = .ok outputs →
          (∀ o ∈ outputs, o.name ≠ a.root ++ Work.shownName plan ∧ o.name ≠ Work.shownName plan) →
          (a.annotate q w).1 = .error (.missingOutput (Work.shownName plan)
            (a.root ++ Work.shownName plan) (outputs.map Checker.Output.name)) := by
  have htold := a.telling_collected q w htrees
  have hcases : ∀ e, (a.annotate q w).1 = .error e → e.Told ∨ ∃ plan notes c s,
      a.collected q w = .ok (plan, notes) ∧ w.serving a.slot a.script plan.options = .ok c ∧
        plan.Unheld c s ∧ e = .unknownFile s.path := by
    intro e he
    rw [annotate_eq_collected] at he
    rcases bind_eq_error.mp he with he | ⟨⟨plan, notes⟩, hcollected, he⟩
    · exact Or.inl (htold e he)
    · obtain ⟨tags, _, _, hreading, -⟩ := collected_ok hcollected
      obtain ⟨start, -, hread⟩ := Outcome.bind_eq_ok.mp hreading
      have hserving := w.telling_serving a.slot a.script plan.options
      rcases Answered.ending_error_cases hread hserving he with he | ⟨c, s, hc, hs, he⟩
      · exact Or.inl he
      · exact Or.inr ⟨plan, notes, c, s, hcollected, hc, hs, he⟩
  refine ⟨?_, ?_, ?_⟩
  · intro e he
    rcases hcases e he with he | ⟨_, _, _, s, -, -, -, he⟩
    · exact Or.inl he
    · exact Or.inr ⟨s.path, he⟩
  · intro path
    constructor
    · intro he
      rcases hcases _ he with he | ⟨plan, notes, c, s, hcollected, hc, hs, he⟩
      · exact absurd he (Failure.not_told_unknownFile path)
      · exact ⟨plan, notes, c, s, hcollected, hc, hs, (Failure.unknownFile.inj he).symm⟩
    · rintro ⟨plan, notes, c, s, hcollected, hc, hs, rfl⟩
      obtain ⟨tags, _, _, hreading, -⟩ := collected_ok hcollected
      obtain ⟨start, -, hread⟩ := Outcome.bind_eq_ok.mp hreading
      rw [annotate_eq_collected, hcollected, Outcome.ok_bind, hc]
      exact Answered.ending_of_unheld hread hs
  · intro plan notes hcollected hemit
    rw [annotate_eq_collected, hcollected, Outcome.ok_bind]
    refine ⟨Answered.ending_of_no_source hemit, ?_⟩
    intro c source outputs hc hsource houtputs hnames
    rw [hc]
    exact Answered.ending_of_no_output hemit hsource houtputs hnames

/-- The output of a file that the sample does not have is asked for. -/
theorem Annotator.failure_told_or_unheld_example :
    let a : Annotator := {}
    let q : Request :=
      { code := "let a\n".toList
        behaviour := [("showEmit", .bool true), ("showEmittedFile", .str "b.js")] }
    let w : World := {}
    (∀ plan tags, a.reading q = .ok (plan, tags) → Tree.Supply w.trees plan.parsed) ∧
      (∃ plan notes, a.collected q w = .ok (plan, notes) ∧ plan.behaviour.showEmit = true) ∧
      (a.annotate q w).1 = .error (.missingSource "b.js" ["index.ts"]) ∧
      ∀ path, (a.annotate q w).1 ≠ .error (.unknownFile path) := by
  intro a q w
  have hrun : ((a.collected q w).toOption.map fun x =>
      (x.1.behaviour.showEmit, Work.sourceFor? x.1 (Work.shownName x.1), Work.shownName x.1,
        x.1.sections.map Section.filename)) = some (true, none, "b.js", ["index.ts"]) := by
    decide +kernel
  obtain ⟨⟨plan, notes⟩, hcollected, hvalues⟩ := Outcome.exists_ok_of_toOption_map hrun
  simp only [Prod.mk.injEq] at hvalues
  obtain ⟨hemit, hsource, hshown, hfiles⟩ := hvalues
  have hsupply : ∀ plan tags, a.reading q = .ok (plan, tags) → Tree.Supply w.trees plan.parsed :=
    fun _ _ _ ts hts => by cases hts
  obtain ⟨-, -, hmissing⟩ := failure_told_or_unheld a q w hsupply
  have hresult := (hmissing plan notes hcollected hemit).1 hsource
  rw [hshown, hfiles] at hresult
  refine ⟨hsupply, ⟨plan, notes, hcollected, hemit⟩, hresult, ?_⟩
  intro path hpath
  rw [hresult] at hpath
  cases hpath

/-- A data file is no module, so no checker is given it, and yet it is the file to show. -/
theorem Annotator.failure_told_counterexample :
    let a : Annotator := {}
    let q : Request :=
      { code := "{}\n".toList, language := "json", behaviour := [("showEmit", .bool true)] }
    ∃ e, (a.annotate q {}).1 = .error e ∧ e.message = "/index.json" ∧ ¬ e.Told := by
  intro a q
  have hrun : (match (a.annotate q {}).1 with
      | .error (.unknownFile path) => some path
      | _ => none) = some "/index.json" := by
    decide +kernel
  split at hrun
  · next path hpath =>
    exact ⟨_, hpath, Option.some.inj hrun, Failure.not_told_unknownFile path⟩
  · cases hrun

end Marginalia
