import Marginalia.Proofs.Failing
import Marginalia.Proofs.Isolation
import Marginalia.Proofs.Naming

/-!
# The output that is shown by default

A sample without file lines is one file under the default name.  When no output is named, the run
looks for one whose ending it takes from the options alone, while the checker gives the output an
ending that depends on the file as well.  The two agree unless markup is to be kept and the file
cannot hold any: then the output that the run looks for is never made.
-/

namespace Marginalia
set_option autoImplicit false

/-! ## Stems and endings behind a root -/

namespace Language
variable {extension : String}

/-- What the default name of a source is made of. -/
structure Default (extension name : List Char) : Prop where
  name_eq : name = "index".toList ++ '.' :: extension
  isExtension : IsExtension extension
  declared : Text.Apart ".d.ts".toList name
  mapped : Text.Apart ".map".toList name

theorem default_of_source (h : extension ∈ sourceExtensions) :
    Default extension.toList (Plan.defaultName extension).toList := by
  have hall : ∀ e ∈ sourceExtensions, let name := (Plan.defaultName e).toList
      name = "index".toList ++ '.' :: e.toList ∧ '.' ∉ e.toList ∧ '/' ∉ e.toList ∧
        e.toList ≠ [] ∧ Text.Apart ".d.ts".toList name ∧ Text.Apart ".map".toList name := by
    decide
  obtain ⟨hname, hpoint, hslash, hne, hdeclared, hmapped⟩ := hall extension h
  exact ⟨hname, ⟨hpoint, hslash, hne⟩, hdeclared, hmapped⟩

theorem Default.cutLast? {name : List Char} (h : Default extension.toList name)
    (root : List Char) :
    Text.cutLast? '.' (root ++ name) = some (root ++ "index".toList, extension.toList) := by
  -- The name has one point only, so what stands before it does not matter.
  rw [h.name_eq, ← List.append_assoc]
  exact Text.cutLast?_append h.isExtension.point

theorem stem_defaultName (h : extension ∈ sourceExtensions) (root : String) :
    stem (root ++ Plan.defaultName extension) = root ++ "index" := by
  have hdefault := default_of_source h
  rw [stem_eq, String.toList_append, sourceName_of_apart hdefault.declared hdefault.mapped,
    hdefault.name_eq, ← List.append_assoc, withoutExtension_append hdefault.isExtension,
    ← String.toList_append, String.ofList_toList]

theorem extensionOf_defaultName (h : extension ∈ sourceExtensions) (root : String) :
    extensionOf (root ++ Plan.defaultName extension) = extension := by
  unfold extensionOf
  rw [String.toList_append, (default_of_source h).cutLast?]
  exact String.ofList_toList

end Language

theorem Section.split_of_no_fileLines {code : List Char} (hlines : fileLines code = [])
    (hcode : code ≠ []) (name root : String) : split code name root = [make root 0 name code] := by
  have hlength : 0 < code.length := List.length_pos_iff.mpr hcode
  unfold split
  rw [hlines]
  exact if_pos hlength

/-! ## What is looked for and what is made -/

/-- The options ask that outputs keep the markup of their sources. -/
def Plan.keepsMarkup (plan : Plan) : Bool :=
  ((plan.options.get? "jsx").getD .null).equalsInt Schema.preserveMarkup

namespace Work
variable {plan : Plan} (hname : plan.behaviour.showEmittedFile.getD "" = "")
include hname

theorem shownName_default :
    shownName plan = "index" ++ (if plan.keepsMarkup then ".jsx" else ".js") := by
  have hdefault : defaultShown plan = "index" ++ (if plan.keepsMarkup then ".jsx" else ".js") := by
    unfold defaultShown Plan.keepsMarkup
    split <;> rfl
  unfold shownName
  cases hshown : plan.behaviour.showEmittedFile with
  | none => exact hdefault
  | some name =>
    rw [hshown] at hname
    rw [show name = "" from hname]
    exact hdefault

theorem stem_shownName : Language.stem (shownName plan) = "index" := by
  rw [shownName_default hname]
  cases plan.keepsMarkup <;> decide +kernel

end Work

theorem Checker.outputsOf_default {extension : String} (h : extension ∈ Language.sourceExtensions)
    (c : Checker) (root : String) (text : List Char) :
    ∃ rest, c.outputsOf (root ++ Plan.defaultName extension) text =
        ⟨root ++ "index" ++ (if c.keepsMarkup extension then ".jsx" else ".js"), text⟩ :: rest ∧
      ∀ o ∈ rest, o.name = root ++ "index" ++ ".d.ts" := by
  unfold outputsOf
  dsimp only
  rw [Language.stem_defaultName h, Language.extensionOf_defaultName h]
  split
  · exact ⟨_, rfl, List.forall_mem_singleton.mpr rfl⟩
  · exact ⟨[], rfl, List.forall_mem_nil _⟩

theorem Language.getLast?_append (a : String) {b : String} (hb : b.toList ≠ []) :
    (a ++ b).toList.getLast? = b.toList.getLast? := by
  rw [String.toList_append, List.getLast?_append_of_ne_nil _ hb]

namespace Answered
variable {job : Job} {plan : Plan} {notes : List Note} {c : Checker}

theorem ending_of_output {source : String} {outputs : List Checker.Output} {output : Checker.Output}
    (hemit : plan.behaviour.showEmit = true)
    (hsource : Work.sourceFor? plan (Work.shownName plan) = some source)
    (houtputs : (Work.upToDate job plan c).emit (job.root ++ source) = .ok outputs)
    (hfind : outputs.find? (fun o =>
      o.name == job.root ++ Work.shownName plan || o.name == Work.shownName plan) = some output) :
    ∃ r, ending job plan ((Except.ok c).map (·.holding plan.taken)) notes = .ok r := by
  have hrun : ((Except.ok c).map (Work.upToDate job plan) >>= fun c => c.emit (job.root ++ source)) =
      .ok outputs := houtputs
  rw [ending_of_showEmit hemit]
  unfold shown
  dsimp only
  rw [hsource]
  dsimp only
  rw [hrun, Outcome.ok_bind, hfind]
  exact ⟨_, rfl⟩

end Answered

theorem World.alike_of_serving {w : World} {slot : Option Nat} {script : Checker.Script}
    {options : Entries} {c : Checker}
    (hdigest : ∀ n c, w.cached? slot options = some n → w.checkers[n]? = some c →
      Digest.Discerns (Value.map c.options).bytes (Value.map options).bytes)
    (h : w.serving slot script options = .ok c) : c.options.Alike options := by
  apply Entries.alike_of_canonical_eq
  unfold serving at h
  cases hn : w.cached? slot options with
  | none =>
    rw [hn] at h
    rw [(Checker.ofScript_ok h).1]
  | some n =>
    obtain ⟨k, hk, hkey⟩ := (w.guarded_keyed slot).cached hn
    rw [hn] at h
    dsimp only at h
    rw [hk] at h
    cases h
    exact (optionsKey_eq_iff (hdigest n _ hn hk)).mp hkey

/-- The run looks for an output that keeps markup, and its file cannot hold any. -/
def Plan.Misses (plan : Plan) : Prop :=
  plan.keepsMarkup = true ∧ (plan.extension = "js" ∨ plan.extension = "ts")

theorem Plan.misses_iff {plan : Plan} (h : plan.extension ∈ Language.sourceExtensions) :
    plan.Misses ↔ ((plan.extension == "jsx" || plan.extension == "tsx") && plan.keepsMarkup) ≠
      plan.keepsMarkup := by
  have hall : ∀ e ∈ Language.sourceExtensions, ∀ keeps : Bool, keeps = true ∧ (e = "js" ∨ e = "ts") ↔
      ((e == "jsx" || e == "tsx") && keeps) ≠ keeps := by
    decide
  exact hall plan.extension h plan.keepsMarkup

namespace Answered
variable (job : Job) {start plan : Plan} {tags notes : List Note} {c : Checker}
  (hread : start.read job.vocabulary job.root job.code = .ok (plan, tags)) (hcode : job.code ≠ [])
  (hlines : Section.fileLines job.code = []) (hextension : plan.extension ∈ Language.sourceExtensions)
include hread hcode hlines hextension

theorem taken_default : plan.sections =
      [Section.make job.root 0 (Plan.defaultName plan.extension) job.code] ∧
    plan.taken = plan.sections := by
  have hsections := Plan.sections_eq hread
  rw [Section.split_of_no_fileLines hlines hcode] at hsections
  have hsource : Language.isSource (Section.make job.root 0 (Plan.defaultName plan.extension)
      job.code).extension = true := by
    have hsame := Language.extensionOf_defaultName hextension ""
    rw [String.empty_append] at hsame
    unfold Section.make
    dsimp only
    rw [hsame]
    exact List.contains_iff_mem.mpr hextension
  refine ⟨hsections, ?_⟩
  unfold Plan.taken
  rw [hsections]
  exact List.filter_cons_of_pos (Plan.registers_of_isSource hsource)

variable (hname : plan.behaviour.showEmittedFile.getD "" = "")
  (hout : ((plan.options.get? "outFile").getD .null).truthy = false)
include hname hout

theorem sourceFor?_default :
    Work.sourceFor? plan (Work.shownName plan) = some (Plan.defaultName plan.extension) := by
  have hstem := Language.stem_defaultName hextension ""
  rw [String.empty_append, String.empty_append] at hstem
  have hfound : (Language.stem (Section.make job.root 0 (Plan.defaultName plan.extension)
      job.code).filename == "index") = true := beq_iff_eq.mpr hstem
  rw [Work.sourceFor?_eq hout, Work.source?, (taken_default job hread hcode hlines hextension).1,
    Work.stem_shownName hname, List.find?_cons, hfound]
  rfl

variable (halike : c.options.Alike plan.options)
include halike

omit hname in
/-- The outputs of the one file: what its own name and the options call for, and perhaps a
declaration. -/
theorem outputs_default : ∃ text rest,
    (Work.upToDate job plan c).emit (job.root ++ Plan.defaultName plan.extension) = .ok
      (⟨job.root ++ "index" ++ (if (plan.extension == "jsx" || plan.extension == "tsx") &&
        plan.keepsMarkup then ".jsx" else ".js"), text⟩ :: rest) ∧
      ∀ o ∈ rest, o.name = job.root ++ "index" ++ ".d.ts" := by
  obtain ⟨hsections, htaken⟩ := taken_default job hread hcode hlines hextension
  have hmem : Section.make job.root 0 (Plan.defaultName plan.extension) job.code ∈ plan.taken := by
    rw [htaken, hsections]
    exact List.mem_singleton_self _
  obtain ⟨hplanned, hregisters⟩ := List.mem_filter.mp hmem
  have hheld : (Work.upToDate job plan c).file? (job.root ++ Plan.defaultName plan.extension) ≠
      none := by
    intro hnone
    cases hregisters.symm.trans ((Plan.file?_upToDate_eq_none_iff hread hplanned job c).mp hnone).1
  obtain ⟨text, htext⟩ := Option.ne_none_iff_exists'.mp hheld
  have houtside : ((Work.upToDate job plan c).option "outFile").truthy = false := by
    rw [option_upToDate]
    exact (halike "outFile").1.trans hout
  have hmarkup : (Work.upToDate job plan c).keepsMarkup plan.extension =
      ((plan.extension == "jsx" || plan.extension == "tsx") && plan.keepsMarkup) := by
    unfold Checker.keepsMarkup Plan.keepsMarkup
    rw [option_upToDate]
    exact congrArg _ (halike "jsx").2.1
  obtain ⟨rest, houtputs, hrest⟩ := Checker.outputsOf_default hextension
    (Work.upToDate job plan c) job.root text
  rw [hmarkup] at houtputs
  refine ⟨text, rest, ?_, hrest⟩
  rw [Checker.emit_of_file houtside htext, houtputs]

theorem ending_default (hemit : plan.behaviour.showEmit = true) (hmade : ¬ plan.Misses) :
    ∃ r, ending job plan ((Except.ok c).map (·.holding plan.taken)) notes = .ok r := by
  obtain ⟨text, rest, houtputs, -⟩ := outputs_default job hread hcode hlines hextension hout halike
  rw [Decidable.not_not.mp (mt (Plan.misses_iff hextension).mpr hmade), String.append_assoc,
    ← Work.shownName_default hname] at houtputs
  apply ending_of_output hemit (sourceFor?_default job hread hcode hlines hextension hname hout) houtputs
  apply List.find?_cons_of_pos
  rw [beq_self_eq_true, Bool.true_or]

omit hname in
theorem outputs_of_misses (hmisses : plan.Misses) : ∃ outputs,
    (Work.upToDate job plan c).emit (job.root ++ Plan.defaultName plan.extension) = .ok outputs ∧
      ∀ o ∈ outputs, o.name.toList.getLast? = some 's' := by
  obtain ⟨text, rest, houtputs, hrest⟩ :=
    outputs_default job hread hcode hlines hextension hout halike
  have hnot : ((plan.extension == "jsx" || plan.extension == "tsx") && plan.keepsMarkup) = false := by
    have hne := (Plan.misses_iff hextension).mp hmisses
    rw [hmisses.1] at hne ⊢
    exact Bool.eq_false_iff.mpr hne
  rw [hnot] at houtputs
  refine ⟨_, houtputs, List.forall_mem_cons.mpr ⟨?_, ?_⟩⟩
  · exact Language.getLast?_append _ (by decide)
  · intro o ho
    rw [hrest o ho]
    exact Language.getLast?_append _ (by decide)

theorem ending_of_misses (hemit : plan.behaviour.showEmit = true) (hmisses : plan.Misses) :
    ∃ names, ending job plan ((Except.ok c).map (·.holding plan.taken)) notes =
      .error (.missingOutput "index.jsx" (job.root ++ "index.jsx") names) := by
  obtain ⟨outputs, houtputs, hlast⟩ :=
    outputs_of_misses job hread hcode hlines hextension hout halike hmisses
  have hshown : Work.shownName plan = "index.jsx" := by
    rw [Work.shownName_default hname, hmisses.1]
    rfl
  have hnames : ∀ o ∈ outputs, o.name ≠ job.root ++ Work.shownName plan ∧
      o.name ≠ Work.shownName plan := by
    intro o ho
    have hs := hlast o ho
    rw [hshown]
    constructor
    · intro hsame
      rw [hsame, Language.getLast?_append _ (by decide)] at hs
      cases hs
    · intro hsame
      rw [hsame] at hs
      cases hs
  refine ⟨outputs.map Checker.Output.name, ?_⟩
  rw [← hshown]
  exact ending_of_no_output hemit (sourceFor?_default job hread hcode hlines hextension hname hout)
    houtputs hnames

end Answered

/-- A call that shows the emitted text of a sample without file lines, and that names no output, has a
result unless markup is to be kept and the sample stands for a file that cannot hold any.  Then it
fails because the output that it looks for is not made. -/
theorem Annotator.default_output_iff (a : Annotator) (q : Request) (w : World) (plan : Plan)
    (notes : List Note) (hcollected : a.collected q w = .ok (plan, notes))
    (hcode : q.code ≠ []) (hlines : Section.fileLines q.code = [])
    (hextension : plan.extension ∈ Language.sourceExtensions)
    (hemit : plan.behaviour.showEmit = true)
    (hname : plan.behaviour.showEmittedFile.getD "" = "")
    (hout : ((plan.options.get? "outFile").getD .null).truthy = false)
    (hdigest : ∀ n c, w.cached? a.slot plan.options = some n → w.checkers[n]? = some c →
      Digest.Discerns (Value.map c.options).bytes (Value.map plan.options).bytes) :
    ((∃ r, (a.annotate q w).1 = .ok r) ↔ ¬ plan.Misses) ∧
      (plan.Misses → ∃ names, (a.annotate q w).1 =
        .error (.missingOutput "index.jsx" (a.root ++ "index.jsx") names)) := by
  obtain ⟨tags, found, errors, hreading, hfound, -, -⟩ := collected_ok hcollected
  obtain ⟨start, -, hread⟩ := Outcome.bind_eq_ok.mp hreading
  have hrun := annotate_eq_collected a q w
  rw [hcollected, Outcome.ok_bind] at hrun
  cases hserving : w.serving a.slot a.script plan.options with
  | error e =>
    -- The sample is registered, which takes a checker.
    obtain ⟨hsections, htaken⟩ := Answered.taken_default (a.job q) hread hcode hlines hextension
    rw [hserving, htaken, hsections] at hfound
    cases hfound
  | ok c =>
    have halike := World.alike_of_serving hdigest hserving
    dsimp only at hrun
    rw [hserving] at hrun
    have hok : ¬ plan.Misses → ∃ r, (a.annotate q w).1 = .ok r := by
      intro hmade
      rw [hrun]
      exact Answered.ending_default (a.job q) hread hcode hlines hextension hname hout halike
        hemit hmade
    have hfails : plan.Misses → ∃ names, (a.annotate q w).1 =
        .error (.missingOutput "index.jsx" (a.root ++ "index.jsx") names) := by
      intro hmisses
      rw [hrun]
      exact Answered.ending_of_misses (a.job q) hread hcode hlines hextension hname hout halike
        hemit hmisses
    refine ⟨⟨?_, hok⟩, hfails⟩
    rintro ⟨r, hr⟩ hmisses
    obtain ⟨names, herror⟩ := hfails hmisses
    cases hr.symm.trans herror

/-- A file that can hold markup, and options that ask to keep it. -/
theorem Annotator.default_output_iff_example :
    let a : Annotator := { options := [("jsx", .int 1), ("declaration", .bool true)] }
    let q : Request := { code := "let a\n".toList, language := "tsx"
                         behaviour := [("show_emit", .bool true)] }
    q.code ≠ [] ∧ Section.fileLines q.code = [] ∧
      ∃ plan notes, a.collected q {} = .ok (plan, notes) ∧
        plan.extension ∈ Language.sourceExtensions ∧ plan.behaviour.showEmit = true ∧
        plan.behaviour.showEmittedFile.getD "" = "" ∧
        ((plan.options.get? "outFile").getD .null).truthy = false ∧ plan.keepsMarkup = true ∧
        ∃ r, (a.annotate q {}).1 = .ok r := by
  intro a q
  have hplan : ((a.collected q {}).toOption.map fun x => (x.1.extension, x.1.behaviour.showEmit,
      x.1.behaviour.showEmittedFile.getD "", ((x.1.options.get? "outFile").getD .null).truthy,
      x.1.keepsMarkup)) = some ("tsx", true, "", false, true) := by
    decide +kernel
  have hcode : q.code ≠ [] := List.cons_ne_nil _ _
  have hlines : Section.fileLines q.code = [] := List.isEmpty_iff.mp (by decide +kernel)
  obtain ⟨⟨plan, notes⟩, hcollected, hvalues⟩ := Outcome.exists_ok_of_toOption_map hplan
  simp only [Prod.mk.injEq] at hvalues
  obtain ⟨htsx, hemit, hname, hout, hkeeps⟩ := hvalues
  have hextension : plan.extension ∈ Language.sourceExtensions := by
    rw [htsx]
    decide
  have hmade : ¬ plan.Misses := by
    rintro ⟨-, hjs | hts⟩
    · exact absurd (htsx.symm.trans hjs) (by decide)
    · exact absurd (htsx.symm.trans hts) (by decide)
  refine ⟨hcode, hlines, plan, notes, hcollected, hextension, hemit, hname, hout, hkeeps, ?_⟩
  have hiff := default_output_iff a q {} plan notes hcollected hcode hlines hextension hemit
    hname hout fun n c hn => by cases hn
  exact hiff.1.mpr hmade

/-- The output that a call has failed for, its path and the outputs that there were. -/
def Failure.output? : Failure → Option (String × String × List String)
  | missingOutput shown path outputs => some (shown, path, outputs)
  | _ => none

theorem Failure.eq_error_of_output? {α : Type} {x : Except Failure α} {shown path : String}
    {outputs : List String} (h : (Outcome.failure? x).bind output? = some (shown, path, outputs)) :
    x = .error (.missingOutput shown path outputs) := by
  obtain ⟨e, he, houtput⟩ := Option.bind_eq_some_iff.mp h
  obtain rfl := Outcome.failure?_eq_some.mp he
  cases e with
  | missingOutput =>
    cases houtput
    rfl
  | _ => cases houtput

/-- A sample in the default language, and options that ask to keep markup. -/
theorem Annotator.default_output_counterexample :
    let a : Annotator := { options := [("jsx", .int 1)] }
    let q : Request := { code := "let a\n".toList, behaviour := [("show_emit", .bool true)] }
    q.code ≠ [] ∧ Section.fileLines q.code = [] ∧
      ∃ plan notes, a.collected q {} = .ok (plan, notes) ∧
        plan.extension ∈ Language.sourceExtensions ∧ plan.behaviour.showEmit = true ∧
        plan.behaviour.showEmittedFile.getD "" = "" ∧
        ((plan.options.get? "outFile").getD .null).truthy = false ∧
        (a.annotate q {}).1 =
          .error (.missingOutput "index.jsx" "/index.jsx" ["/index.js"]) := by
  intro a q
  have hplan : ((a.collected q {}).toOption.map fun x => (x.1.extension, x.1.behaviour.showEmit,
      x.1.behaviour.showEmittedFile.getD "", ((x.1.options.get? "outFile").getD .null).truthy)) =
        some ("ts", true, "", false) := by
    decide +kernel
  have hcode : q.code ≠ [] := List.cons_ne_nil _ _
  have hlines : Section.fileLines q.code = [] := List.isEmpty_iff.mp (by decide +kernel)
  obtain ⟨⟨plan, notes⟩, hcollected, hvalues⟩ := Outcome.exists_ok_of_toOption_map hplan
  simp only [Prod.mk.injEq] at hvalues
  obtain ⟨hts, hemit, hname, hout⟩ := hvalues
  have hextension : plan.extension ∈ Language.sourceExtensions := by
    rw [hts]
    decide
  exact ⟨hcode, hlines, plan, notes, hcollected, hextension, hemit, hname, hout,
    Failure.eq_error_of_output? (by decide +kernel)⟩

end Marginalia
