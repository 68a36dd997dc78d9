import Marginalia.Proofs.Checker
import Marginalia.Proofs.KeptLines

/-!
# The emitted text of a file

Before outputs are made, the erased sample is cut into sections again and the files under their
paths are brought up to date.  A file of which nothing is found again keeps the text with which it
was registered, erased parts included.
-/

namespace Marginalia
set_option autoImplicit false

def Plan.taken (plan : Plan) : List Section := plan.sections.filter plan.registers

namespace Work
variable {job : Job} {plan : Plan} {d d' : Draft}

def Keeps (job : Job) (plan : Plan) (c : Option Checker) (paths : List String) (d : Draft) : Prop :=
  checker? job plan d = c ∧ d.registered = paths

theorem meets_registerOnly {c : Option Checker} {paths : List String} (s : Section) :
    Meets (Keeps job plan c paths) (register job plan s)
      (fun _ => Keeps job plan (c.map (·.holding [s])) (paths ++ [s.path])) fun _ _ => True := by
  refine Meets.of_exec_ok fun d _ d' ⟨hchecker, hpaths⟩ hrun => ?_
  unfold register at hrun
  obtain ⟨_, d₁, hcreate, hrun⟩ := exec_bind_ok.mp hrun
  obtain ⟨-, hafter, hregistered⟩ := perform_checker hcreate
  obtain ⟨_, _, hmodify, hrun⟩ := exec_bind_ok.mp hrun
  cases hmodify
  cases hrun
  refine ⟨?_, ?_⟩
  · rw [← hchecker]
    exact Eq.trans (checker?_congr rfl rfl rfl) hafter
  · dsimp only
    rw [hregistered, hpaths]

theorem meets_populate_emit {c : Option Checker} (hemit : plan.behaviour.showEmit = true) :
    Meets (Keeps job plan c []) (populate job plan)
      (fun _ => Keeps job plan (c.map (·.holding plan.taken))
        (plan.taken.map Section.path)) fun _ _ => True := by
  unfold populate
  rw [hemit]
  have hstep : ∀ done, ∀ s ∈ plan.taken,
      Meets (Keeps job plan (c.map (·.holding done)) (done.map Section.path))
        (do register job plan s; if !true then collect job plan s)
        (fun _ => Keeps job plan (c.map (·.holding (done ++ [s]))) ((done ++ [s]).map Section.path))
        fun _ _ => True := by
    intro done s _
    simp only [Checker.holding_append, List.map_append, List.map_cons, List.map_nil]
    have hregister := @meets_registerOnly job plan (c.map (·.holding done)) (done.map Section.path) s
    rw [Option.map_map] at hregister
    exact Meets.bind hregister fun _ => Meets.of_pure fun d hd => hd
  have hloop := Meets.forM_done hstep
  have hnone : c.map (·.holding []) = c := Option.map_id'
  rw [hnone] at hloop
  exact hloop

theorem meets_diagnostics {c : Option Checker} {paths : List String} (path : String) :
    Meets (Keeps job plan c paths) (perform job plan (.diagnostics path))
      (fun _ => Keeps job plan c paths) fun _ _ => True := by
  refine Meets.of_exec_ok fun d _ d' ⟨hchecker, hpaths⟩ hrun => ?_
  obtain ⟨-, hafter, hregistered⟩ := perform_checker hrun
  refine ⟨?_, hregistered.trans hpaths⟩
  rw [hafter, ← hchecker]
  exact Option.map_id'

theorem meets_diagnose_keeps {c : Option Checker} {paths : List String} :
    Meets (Keeps job plan c paths) (diagnose job plan) (fun _ => Keeps job plan c paths)
      fun _ _ => True := by
  apply Meets.diagnose (R := fun _ => True)
  · exact fun s _ _ => meets_diagnostics s.path
  · exact fun s e n he => trivial
  · intro d found keep hd hfound
    exact ⟨(checker?_congr rfl rfl rfl).trans hd.1, hd.2⟩
  · intro d e hd
    exact ⟨(checker?_congr rfl rfl rfl).trans hd.1, hd.2⟩
  · exact fun _ _ _ _ d hd => trivial

def refreshed (job : Job) (plan : Plan) (paths : List String) : List Section :=
  (Section.split (Span.eraseText job.code plan.removals) (Plan.defaultName plan.extension)
    job.root).filter fun s => paths.contains s.path

/-- The run's checker when outputs are made: it has been given the sections, and then what is found
again of them. -/
def upToDate (job : Job) (plan : Plan) (c : Checker) : Checker :=
  (c.holding plan.taken).holding (refreshed job plan (plan.taken.map Section.path))

theorem meets_update {c : Option Checker} {paths : List String} (s : Section) :
    Meets (Keeps job plan c paths)
      (do if (← get).registered.contains s.path then perform job plan (.update s.path s.content))
      (fun _ => Keeps job plan (c.map (·.holding ([s].filter fun s => paths.contains s.path))) paths)
      fun _ _ => True := by
  refine Meets.of_exec_ok fun d _ d' ⟨hchecker, hpaths⟩ hrun => ?_
  obtain ⟨_, _, hget, hrun⟩ := exec_bind_ok.mp hrun
  cases hget
  rw [hpaths] at hrun
  by_cases hs : paths.contains s.path = true
  · rw [if_pos hs] at hrun
    obtain ⟨hanswer, hafter, hregistered⟩ := perform_checker hrun
    refine ⟨?_, hregistered.trans hpaths⟩
    have hkept : [s].filter (fun s => paths.contains s.path) = [s] := List.filter_cons_of_pos hs
    rw [hafter, hkept]
    rw [hchecker] at hanswer ⊢
    cases c with
    | none => rfl
    | some c => exact congrArg some (Checker.perform_update_ok hanswer)
  · rw [if_neg hs] at hrun
    cases hrun
    have hdropped : [s].filter (fun s => paths.contains s.path) = [] := List.filter_cons_of_neg hs
    have hsame : c.map (·.holding []) = c := Option.map_id'
    rw [hdropped, hsame]
    exact ⟨hchecker, hpaths⟩

theorem meets_updateFiles {c : Option Checker} {paths : List String} :
    Meets (Keeps job plan c paths) (updateFiles job plan)
      (fun _ => Keeps job plan (c.map (·.holding (refreshed job plan paths))) paths)
      fun _ _ => True := by
  unfold updateFiles
  dsimp only
  have hstep : ∀ done : List Section, ∀ s ∈ Section.split (Span.eraseText job.code plan.removals)
      (Plan.defaultName plan.extension) job.root,
      Meets (Keeps job plan (c.map (·.holding (done.filter fun s => paths.contains s.path))) paths)
        (do if (← get).registered.contains s.path then perform job plan (.update s.path s.content))
        (fun _ => Keeps job plan
          (c.map (·.holding ((done ++ [s]).filter fun s => paths.contains s.path))) paths)
        fun _ _ => True := by
    intro done s _
    simp only [List.filter_append, Checker.holding_append]
    have hupdate := @meets_update job plan
      (c.map (·.holding (done.filter fun s => paths.contains s.path))) paths s
    rw [Option.map_map] at hupdate
    exact hupdate
  have hloop := Meets.forM_done hstep
  have hnone : c.map (·.holding ([].filter fun s => paths.contains s.path)) = c := Option.map_id'
  rw [hnone] at hloop
  exact hloop

/-- The section whose output is shown when every file has outputs of its own. -/
def source? (plan : Plan) : Option Section :=
  plan.sections.find? fun s => Language.stem s.filename == Language.stem (shownName plan)

theorem exists_of_sourceFor {shown source : String}
    (h : sourceFor? plan shown = some source) : ∃ s ∈ plan.sections, s.filename = source := by
  unfold sourceFor? at h
  dsimp only at h
  obtain ⟨s, hs, rfl⟩ := Option.map_eq_some_iff.mp h
  refine ⟨s, ?_, rfl⟩
  rcases Option.or_eq_some_iff.mp hs with hs | ⟨-, hs⟩
  · split at hs
    · exact List.mem_of_head? hs
    · cases hs
  · exact List.mem_of_find?_eq_some hs

theorem sourceFor?_eq (hout : ((plan.options.get? "outFile").getD .null).truthy = false) :
    sourceFor? plan (shownName plan) = (source? plan).map Section.filename := by
  unfold sourceFor?
  dsimp only
  rw [hout, if_neg Bool.false_ne_true, Option.none_or]
  rfl

theorem showOutput_text {final : Plan} {shown : List Char} {c : Option Checker} {paths : List String}
    (h : exec (showOutput job plan) d = (.ok (shown, final), d')) (hd : Keeps job plan c paths d)
    (hout : ((plan.options.get? "outFile").getD .null).truthy = false)
    (hbundle : ∀ k, c = some k → (k.option "outFile").truthy = false) :
    ∃ s k, source? plan = some s ∧ c = some k ∧
      (k.holding (refreshed job plan paths)).file? (job.root ++ s.filename) = some shown := by
  obtain ⟨source, outputs, output, d₁, d₂, hupdate, hsource, hcall, hmem, rfl, -, -⟩ := showOutput_ok h
  obtain ⟨hchecker, -⟩ := meets_updateFiles.ok hd hupdate
  obtain ⟨hanswer, -, -⟩ := perform_checker hcall
  rw [hchecker] at hanswer
  rw [sourceFor?_eq hout] at hsource
  obtain ⟨s, hs, rfl⟩ := Option.map_eq_some_iff.mp hsource
  cases c with
  | none =>
    -- A checker that is not there has no files, so it has no outputs.
    let empty : Checker := { options := plan.options }
    have hempty : empty.emit (job.root ++ s.filename) = .ok outputs := hanswer
    have hfalse : (empty.option "outFile").truthy = false := hout
    obtain ⟨text, hfile, -⟩ := Checker.emit_ok hfalse hempty
    cases hfile
  | some k =>
    have hemit : (k.holding (refreshed job plan paths)).emit (job.root ++ s.filename) =
        .ok outputs := hanswer
    have hfalse : ((k.holding (refreshed job plan paths)).option "outFile").truthy = false := by
      rw [Checker.option_holding]
      exact hbundle k rfl
    obtain ⟨text, hfile, hall⟩ := Checker.emit_ok hfalse hemit
    rw [← hall output hmem] at hfile
    exact ⟨s, k, hs, rfl, hfile⟩

end Work

namespace Plan

def leftOf (plan : Plan) (s : Section) : List Char := s.kept (Span.stays plan.removals)

/-- What is found again when the sample is erased and cut into sections: the stretches between file
lines that stay, each without what is erased, as far as anything is left of them. -/
def left (plan : Plan) (root : String) (code : List Char) : List Section :=
  let staying := (Section.fileLines code).filter fun x => Span.stays plan.removals x.1.start
  (Section.splitAt staying code (defaultName plan.extension) root).filterMap
    (Section.keep? (Span.stays plan.removals))

/-- The text of a file when its outputs are made: that of the last stretch found again under its
path, or else that of the last section under its path, with nothing erased. -/
def emittedText? (plan : Plan) (root : String) (code : List Char) (path : String) :
    Option (List Char) :=
  ((Section.last? path (plan.left root code)).or (Section.last? path plan.sections)).map
    Section.content

section Read
variable {start plan : Plan} {vocabulary : Flag.Vocabulary} {root : String} {code : List Char}
  {tags : List Note}

theorem foldl_applyFlag_frame (p : Plan) (flags : List Flag) :
    (flags.foldl applyFlag p).extension = p.extension ∧ (flags.foldl applyFlag p).asked = p.asked := by
  induction flags generalizing p with
  | nil => exact ⟨rfl, rfl⟩
  | cons f rest ih =>
    have hstep : (p.applyFlag f).extension = p.extension ∧ (p.applyFlag f).asked = p.asked := by
      unfold applyFlag
      split
      · exact ⟨rfl, rfl⟩
      · split <;> exact ⟨rfl, rfl⟩
      · exact ⟨rfl, rfl⟩
    obtain ⟨hextension, hasked⟩ := ih (p.applyFlag f)
    exact ⟨hextension.trans hstep.1, hasked.trans hstep.2⟩

theorem extension_withFlags (start : Plan) (flags : List Flag) :
    (start.withFlags flags).extension = start.extension :=
  (start.foldl_applyFlag_frame flags).1

theorem asked_withFlags (start : Plan) (flags : List Flag) :
    (start.withFlags flags).asked = start.asked :=
  (start.foldl_applyFlag_frame flags).2

theorem sections_eq (h : start.read vocabulary root code = .ok (plan, tags)) :
    plan.sections = Section.split code (defaultName plan.extension) root := by
  obtain ⟨flags, cuts, -, -, -, -, rfl⟩ := read_ok h
  simp only [extension_withFlags]

theorem split_eraseText (h : start.read vocabulary root code = .ok (plan, tags)) :
    Section.split (Span.eraseText code plan.removals) (defaultName plan.extension) root =
      plan.left root code := by
  obtain ⟨flags, cuts, hflags, -⟩ := read_ok h
  rw [Span.eraseText_eq_keptText (removals_proper h)]
  exact Section.split_keepFrom (removals_whole h hflags).of_start _ _

theorem names_of_mem (h : start.read vocabulary root code = .ok (plan, tags)) {s : Section}
    (hs : s ∈ plan.sections) :
    s.path = root ++ s.filename ∧ s.extension = Language.extensionOf s.filename := by
  rw [sections_eq h] at hs
  have hmade := Section.eq_make_of_mem_cutAt hs
  exact ⟨congrArg Section.path hmade, congrArg Section.extension hmade⟩

theorem registers_congr (h : start.read vocabulary root code = .ok (plan, tags)) {s t : Section}
    (hs : s ∈ plan.sections) (ht : t ∈ plan.sections) (hpath : t.path = s.path) :
    t.filename = s.filename ∧ plan.registers t = plan.registers s := by
  -- Sections under one path are files of one name.
  obtain ⟨hspath, hsextension⟩ := names_of_mem h hs
  obtain ⟨htpath, htextension⟩ := names_of_mem h ht
  rw [hspath, htpath] at hpath
  have hname : t.filename = s.filename := (String.append_right_inj root).mp hpath
  have hextension : t.extension = s.extension := by rw [htextension, hname, hsextension]
  refine ⟨hname, ?_⟩
  unfold registers
  rw [hextension]

theorem last?_taken (h : start.read vocabulary root code = .ok (plan, tags)) {s : Section}
    (hs : s ∈ plan.sections) (hregisters : plan.registers s = true) :
    Section.last? s.path plan.taken = Section.last? s.path plan.sections := by
  apply Section.last?_filter
  intro t ht hpath
  exact (registers_congr h hs ht hpath).2.trans hregisters

theorem file?_of_registers (h : start.read vocabulary root code = .ok (plan, tags)) {s : Section}
    (hs : s ∈ plan.sections) (hregisters : plan.registers s = true) (c : Checker) {job : Job}
    (hcode : job.code = code) (hroot : job.root = root) :
    (Work.upToDate job plan c).file? s.path =
      plan.emittedText? root code s.path := by
  have hpaths : (plan.taken.map Section.path).contains s.path = true :=
    List.contains_iff_mem.mpr (List.mem_map_of_mem (List.mem_filter.mpr ⟨hs, hregisters⟩))
  have hleft : Section.last? s.path (Work.refreshed job plan
      (plan.taken.map Section.path)) =
        Section.last? s.path (plan.left root code) := by
    unfold Work.refreshed
    rw [hcode, hroot, split_eraseText h]
    apply Section.last?_filter
    intro t _ hpath
    rw [hpath]
    exact hpaths
  obtain ⟨last, hlast⟩ := Section.exists_last? hs rfl
  rw [Work.upToDate, Checker.file?_holding, Checker.file?_holding, hleft,
    last?_taken h hs hregisters, emittedText?, hlast]
  cases Section.last? s.path (plan.left root code) <;> rfl

theorem file?_of_not_registers (h : start.read vocabulary root code = .ok (plan, tags)) {s : Section}
    (hs : s ∈ plan.sections) (hregisters : plan.registers s = false) (c : Checker) {job : Job} :
    (Work.upToDate job plan c).file? s.path =
      c.file? s.path := by
  have hother : ∀ t ∈ plan.taken, t.path ≠ s.path := by
    intro t ht hpath
    obtain ⟨hmem, htaken⟩ := List.mem_filter.mp ht
    rw [(registers_congr h hs hmem hpath).2, hregisters] at htaken
    cases htaken
  have hnew : ∀ t ∈ Work.refreshed job plan (plan.taken.map Section.path),
      t.path ≠ s.path := by
    intro t ht hpath
    have hcontains := (List.mem_filter.mp ht).2
    obtain ⟨u, hu, hupath⟩ := List.mem_map.mp (List.contains_iff_mem.mp hcontains)
    exact hother u hu (hupath.trans hpath)
  rw [Work.upToDate, Checker.file?_holding, Checker.file?_holding, Section.last?_eq_none hother,
    Section.last?_eq_none hnew]
  rfl

theorem emittedText?_ne_nil (h : start.read vocabulary root code = .ok (plan, tags)) {path : String}
    {text : List Char} (ht : plan.emittedText? root code path = some text) : text ≠ [] := by
  obtain ⟨s, hs, rfl⟩ := Option.map_eq_some_iff.mp ht
  cases hleft : Section.last? path (plan.left root code) with
  | some t =>
    rw [hleft, Option.some_or] at hs
    obtain rfl : t = s := Option.some.inj hs
    obtain ⟨u, -, hu⟩ := List.mem_filterMap.mp (Section.mem_of_last? hleft).1
    obtain ⟨-, hcontent, hne⟩ := Section.keep?_eq_some hu
    rw [hcontent]
    exact hne
  | none =>
    rw [hleft, Option.none_or] at hs
    have hmem := (Section.mem_of_last? hs).1
    rw [sections_eq h] at hmem
    exact (Section.partOf_of_mem_split hmem).ne_nil

/-- When all file lines stay and a file has one section, its erased text is emitted exactly if
anything is left of it. -/
theorem emittedText?_eq_kept_iff (h : start.read vocabulary root code = .ok (plan, tags))
    {s : Section} (hs : s ∈ plan.sections)
    (hlines : ∀ x ∈ Section.fileLines code, Span.stays plan.removals x.1.start = true)
    (hsingle : ∀ t ∈ plan.sections, t.filename = s.filename → t = s) :
    plan.emittedText? root code s.path = some (plan.leftOf s) ↔
      plan.leftOf s ≠ [] := by
  refine ⟨fun ht => emittedText?_ne_nil h ht, ?_⟩
  intro hne
  -- With all file lines in place, the stretches between them are the sections themselves.
  have hleft : plan.left root code =
      plan.sections.filterMap (Section.keep? (Span.stays plan.removals)) := by
    unfold left
    dsimp only
    rw [List.filter_eq_self.mpr hlines, ← Section.split_eq_splitAt, ← sections_eq h]
  obtain ⟨t, ht⟩ := Section.exists_keep? hne
  have hmem : t ∈ plan.left root code := by
    rw [hleft]
    exact List.mem_filterMap.mpr ⟨s, hs, ht⟩
  obtain ⟨u, hu⟩ := Section.exists_last? hmem (Section.keep?_eq_some ht).1
  obtain ⟨humem, hupath⟩ := Section.mem_of_last? hu
  rw [hleft] at humem
  obtain ⟨v, hv, hvu⟩ := List.mem_filterMap.mp humem
  obtain ⟨hvpath, hcontent, -⟩ := Section.keep?_eq_some hvu
  obtain rfl : v = s := hsingle v hv (registers_congr h hs hv (hvpath.symm.trans hupath)).1
  unfold emittedText?
  rw [hu, Option.some_or, Option.map_some, hcontent]
  rfl

end Read

end Plan

/-- What a run shows: the text that the source has when the run's checker has been given the sections
and then what is found again of them. -/
theorem Work.shown_text {job : Job} {plan final : Plan} {shown : List Char} {d d₁ d₂ d₃ : Draft}
    (hpopulate : exec (populate job plan) d = (.ok (), d₁))
    (hdiagnose : exec (diagnose job plan) d₁ = (.ok (), d₂))
    (hshown : exec (emit job plan) d₂ = (.ok (shown, final), d₃))
    (hemit : plan.behaviour.showEmit = true)
    (hout : ((plan.options.get? "outFile").getD .null).truthy = false)
    (hregistered : d.registered = [])
    (hbundle : ∀ c, checker? job plan d = some c → (c.option "outFile").truthy = false) :
    ∃ s c, source? plan = some s ∧ checker? job plan d = some c ∧
      (upToDate job plan c).file? (job.root ++ s.filename) = some shown := by
  have hpopulated := (meets_populate_emit hemit).ok ⟨rfl, hregistered⟩ hpopulate
  have hdiagnosed := meets_diagnose_keeps.ok hpopulated hdiagnose
  unfold emit at hshown
  rw [hemit, if_pos rfl] at hshown
  have hheld : ∀ k, (checker? job plan d).map
      (·.holding plan.taken) = some k →
        (k.option "outFile").truthy = false := by
    intro k hk
    obtain ⟨c, hc, rfl⟩ := Option.map_eq_some_iff.mp hk
    rw [Checker.option_holding]
    exact hbundle c hc
  obtain ⟨s, k, hs, hk, hfile⟩ := showOutput_text hshown hdiagnosed hout hheld
  obtain ⟨c, hc, rfl⟩ := Option.map_eq_some_iff.mp hk
  exact ⟨s, c, hs, hc, hfile⟩

theorem Work.code_of_showEmit {job : Job} {plan final : Plan} {shown : List Char}
    {d d' d'' : Draft} {r : Result} (hemit : plan.behaviour.showEmit = true)
    (hshown : exec (emit job plan) d = (.ok (shown, final), d'))
    (hfinish : exec (finish final shown) d' = (.ok r, d'')) : r.code = shown := by
  unfold emit at hshown
  rw [hemit, if_pos rfl] at hshown
  obtain ⟨_, _, _, _, _, -, -, -, -, -, -, rfl⟩ := showOutput_ok hshown
  rcases finish_ok hfinish with ⟨-, rfl⟩ | ⟨-, rfl⟩
  · rfl
  · exact Span.eraseText_nil shown

/-- Which text a call shows when it shows the emitted text and files have outputs of their own.  The
source is the first section with the stem of what is to be shown.  If the run has registered it,
the text is the erased source exactly if that is what is found again under its path, and never if
all of it is erased; when all file lines stay and the source is the only section of its name,
exactly if not all of it is erased.  If the run has not registered it, the text is what a cached
checker held under its path before. -/
theorem Annotator.emitted_eq_kept_iff (a : Annotator) (q : Request) (w : World) (r : Result)
    (h : (a.annotate q w).1 = .ok r) (hemit : r.plan.behaviour.showEmit = true)
    (hout : ((r.plan.options.get? "outFile").getD .null).truthy = false)
    (hcached : ∀ n c, w.cached? a.slot r.plan.options = some n → w.checkers[n]? = some c →
      (c.option "outFile").truthy = false) :
    ∃ start plan tags s, a.plan q = .ok start ∧
      start.read (a.job q).vocabulary a.root q.code = .ok (plan, tags) ∧
      Work.source? plan = some s ∧
      (plan.registers s = true →
        (r.code = plan.leftOf s ↔
          plan.emittedText? a.root q.code s.path = some (plan.leftOf s)) ∧
        (plan.leftOf s = [] → r.code ≠ plan.leftOf s) ∧
        ((∀ x ∈ Section.fileLines q.code, Span.stays plan.removals x.1.start = true) →
          (∀ t ∈ plan.sections, t.filename = s.filename → t = s) →
          (r.code = plan.leftOf s ↔ plan.leftOf s ≠ []))) ∧
      (plan.registers s = false →
        ∃ n c, w.cached? a.slot plan.options = some n ∧ w.checkers[n]? = some c ∧
          c.file? s.path = some r.code) := by
  obtain ⟨start, d, hstart, hrun⟩ := annotate_ok h
  obtain ⟨plan, tags, d₁, d₂, d₃, shown, final, hread, hpopulate, hdiagnose, hshown, hfinish⟩ :=
    Work.run_ok hrun
  obtain ⟨extension, removals, hplan⟩ := Work.result_plan hshown hfinish
  have hsame : r.plan.behaviour = plan.behaviour ∧ r.plan.options = plan.options := by
    rw [hplan]
    exact ⟨rfl, rfl⟩
  rw [hsame.1] at hemit
  rw [hsame.2] at hout hcached
  have hbundle : ∀ c, Work.checker? (a.job q) plan { world := w, notes := [] ++ tags } = some c →
      (c.option "outFile").truthy = false := by
    intro c hc
    rcases Work.checker?_start rfl hc with ⟨n, hn, hnc⟩ | ⟨hoptions, -⟩
    · exact hcached n c hn hnc
    · unfold Checker.option
      rw [hoptions]
      exact hout
  obtain ⟨s, c, hs, hc, hfile⟩ :=
    Work.shown_text hpopulate hdiagnose hshown hemit hout rfl hbundle
  rw [← Work.code_of_showEmit hemit hshown hfinish] at hfile
  have hmem : s ∈ plan.sections := List.mem_of_find?_eq_some hs
  rw [← (Plan.names_of_mem hread hmem).1] at hfile
  refine ⟨start, plan, tags, s, hstart, hread, hs, ?_, ?_⟩
  · intro hregisters
    have htext : plan.emittedText? a.root q.code s.path = some r.code :=
      (Plan.file?_of_registers hread hmem hregisters c rfl rfl).symm.trans hfile
    have hiff : r.code = plan.leftOf s ↔
        plan.emittedText? a.root q.code s.path = some (plan.leftOf s) := by
      rw [htext, Option.some.injEq]
    refine ⟨hiff, ?_, ?_⟩
    · intro hnil
      rw [hnil]
      exact Plan.emittedText?_ne_nil hread htext
    · intro hlines hsingle
      exact hiff.trans (Plan.emittedText?_eq_kept_iff hread hmem hlines hsingle)
  · intro hregisters
    rw [Plan.file?_of_not_registers hread hmem hregisters c] at hfile
    rcases Work.checker?_start rfl hc with ⟨n, hn, hnc⟩ | ⟨-, hfiles⟩
    · exact ⟨n, c, hn, hnc, hfile⟩
    · unfold Checker.file? at hfile
      rw [hfiles] at hfile
      cases hfile

/-- A cut hides a part of the source and all of another file stays. -/
theorem Annotator.emitted_eq_kept_iff_example :
    let a : Annotator := { declarations := [] }
    let q : Request :=
      { code := "// @showEmit\nlet a\n// ---cut---\nlet b\n// @filename: c.ts\nlet c\n".toList }
    ∃ r, (a.annotate q {}).1 = .ok r ∧ r.plan.behaviour.showEmit = true ∧
      ((r.plan.options.get? "outFile").getD .null).truthy = false ∧
      (∀ n c, ({} : World).cached? a.slot r.plan.options = some n →
        ({} : World).checkers[n]? = some c → (c.option "outFile").truthy = false) ∧
      ∃ (plan : Plan) (s : Section), Work.source? plan = some s ∧
        r.code = plan.leftOf s ∧ r.code = "let b\n".toList := by
  intro a q
  have hrun : ((a.annotate q {}).1.toOption.map fun r => (r.plan.behaviour.showEmit,
      ((r.plan.options.get? "outFile").getD .null).truthy, r.code)) =
        some (true, false, "let b\n".toList) := by
    decide +kernel
  have hplan : ((a.plan q).toOption.bind fun start =>
      (start.read (a.job q).vocabulary a.root q.code).toOption.bind fun x =>
        (Work.source? x.1).map fun s =>
          (x.1.registers s, (x.1.leftOf s).isEmpty,
            (Section.fileLines q.code).all fun y => Span.stays x.1.removals y.1.start,
            x.1.sections.all fun t => t.filename != s.filename || t == s)) =
        some (true, false, true, true) := by
    decide +kernel
  obtain ⟨r, hr, hvalues⟩ := Outcome.exists_ok_of_toOption_map hrun
  simp only [Prod.mk.injEq] at hvalues
  obtain ⟨hemit, hout, hcode⟩ := hvalues
  have hcached : ∀ n c, ({} : World).cached? a.slot r.plan.options = some n →
      ({} : World).checkers[n]? = some c → (c.option "outFile").truthy = false :=
    fun n c hn => by cases hn
  refine ⟨r, hr, hemit, hout, hcached, ?_⟩
  obtain ⟨start, plan, tags, s, hstart, hread, hs, hregistered, -⟩ :=
    emitted_eq_kept_iff a q {} r hr hemit hout hcached
  rw [hstart] at hplan
  simp only [Except.toOption, Option.bind_some, hread, hs, Option.map_some, Option.some.injEq,
    Prod.mk.injEq] at hplan
  obtain ⟨hregisters, hne, hlines, hsingle⟩ := hplan
  refine ⟨plan, s, hs, ?_, hcode⟩
  refine ((hregistered hregisters).2.2 (List.all_eq_true.mp hlines) ?_).mpr ?_
  · intro t ht hname
    have hsame := List.all_eq_true.mp hsingle t ht
    simpa [hname] using hsame
  · exact List.isEmpty_eq_false_iff.mp hne

/-- A cut hides the whole sample, and yet all of it is shown. -/
theorem Annotator.emitted_eq_kept_counterexample :
    let a : Annotator := {}
    let q : Request := { code := "const token = 1\n// ---cut---\n".toList
                         behaviour := [("show_emit", .bool true)] }
    ∃ r start plan tags s, (a.annotate q {}).1 = .ok r ∧ r.plan.behaviour.showEmit = true ∧
      ((r.plan.options.get? "outFile").getD .null).truthy = false ∧ a.plan q = .ok start ∧
      start.read (a.job q).vocabulary a.root q.code = .ok (plan, tags) ∧
      Work.source? plan = some s ∧
      plan.leftOf s = [] ∧ r.code = q.code ∧
      r.code ≠ plan.leftOf s := by
  intro a q
  have hrun : ((a.annotate q {}).1.toOption.map fun r => (r.plan.behaviour.showEmit,
      ((r.plan.options.get? "outFile").getD .null).truthy, r.code)) =
        some (true, false, "const token = 1\n// ---cut---\n".toList) := by
    decide +kernel
  have hplan : ((a.plan q).toOption.bind fun start =>
      (start.read (a.job q).vocabulary a.root q.code).toOption.bind fun x =>
        (Work.source? x.1).map x.1.leftOf) = some [] := by
    decide +kernel
  obtain ⟨r, hr, hvalues⟩ := Outcome.exists_ok_of_toOption_map hrun
  simp only [Prod.mk.injEq] at hvalues
  obtain ⟨hemit, hout, hcode⟩ := hvalues
  obtain ⟨start, hstart, hplan⟩ := Option.bind_eq_some_iff.mp hplan
  obtain ⟨⟨plan, tags⟩, hread, hplan⟩ := Option.bind_eq_some_iff.mp hplan
  obtain ⟨s, hs, hkept⟩ := Option.map_eq_some_iff.mp hplan
  refine ⟨r, start, plan, tags, s, hr, hemit, hout, Outcome.eq_ok_of_toOption hstart,
    Outcome.eq_ok_of_toOption hread, hs, hkept, hcode, ?_⟩
  rw [hkept, hcode]
  decide

end Marginalia
