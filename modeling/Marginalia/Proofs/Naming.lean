import Mathlib.Data.List.Basic
import Mathlib.Data.List.TakeWhile
import Marginalia.Proofs.Checker

/-!
# Names of outputs

The name of an output is the stem of its file's path with an ending, and the stem of that name is the
stem it was made of: taking the stem undoes the naming, whatever points, slashes and stacked endings
the path has.  The stem of a path is the stem of the name behind the root.  So the source that a run
finds for an output by comparing stems is the file that the output is made of, unless another file
has the same stem.
-/

namespace Marginalia
set_option autoImplicit false

namespace Text
variable {separator : Char} {base tail ending root xs ys cs : List Char}

/-! ## The last separator -/

theorem ne_of_mem_reverse (h : separator ∉ cs) : ∀ c ∈ cs.reverse, decide (c ≠ separator) = true := by
  intro c hc
  apply decide_eq_true
  rintro rfl
  exact h (List.mem_reverse.mp hc)

theorem cutLast?_append (h : separator ∉ tail) :
    cutLast? separator (base ++ separator :: tail) = some (base, tail) := by
  have hreverse : (base ++ separator :: tail).reverse =
      tail.reverse ++ separator :: base.reverse := by
    rw [List.reverse_append, List.reverse_cons, List.append_assoc, List.singleton_append]
  have htail : (base ++ separator :: tail).reverse.takeWhile (· ≠ separator) = tail.reverse := by
    rw [hreverse, List.takeWhile_append_of_pos (ne_of_mem_reverse h), List.takeWhile_cons_of_neg (by simp),
      List.append_nil]
  have hlength : (base ++ separator :: tail).length = base.length + (tail.length + 1) :=
    List.length_append
  unfold cutLast?
  dsimp only
  rw [htail, List.length_reverse, hlength, if_neg (by omega), List.reverse_reverse,
    show base.length + (tail.length + 1) - tail.length - 1 = base.length by omega, List.take_left]

theorem cutLast?_eq_none (h : separator ∉ cs) : cutLast? separator cs = none := by
  have htail : cs.reverse.takeWhile (· ≠ separator) = cs.reverse :=
    List.takeWhile_eq_self_iff.mpr (ne_of_mem_reverse h)
  simp only [cutLast?, htail, List.length_reverse, if_true]

theorem exists_last_of_mem (h : separator ∈ cs) :
    ∃ base tail, cs = base ++ separator :: tail ∧ separator ∉ tail := by
  obtain ⟨front, back, hsplit, hfront⟩ := List.eq_append_cons_of_mem (List.mem_reverse.mpr h)
  refine ⟨back.reverse, front.reverse, ?_, fun hmem => hfront (List.mem_reverse.mp hmem)⟩
  have hreverse := congrArg List.reverse hsplit
  rw [List.reverse_reverse, List.reverse_append, List.reverse_cons, List.append_assoc] at hreverse
  exact hreverse

/-! ## Endings -/

theorem dropEnding?_append_self (base ending : List Char) :
    dropEnding? ending (base ++ ending) = some base := by
  have hsuffix : ending.isSuffixOf (base ++ ending) = true :=
    List.isSuffixOf_iff_suffix.mpr (List.suffix_append base ending)
  simp [dropEnding?, hsuffix]

theorem dropEnding?_eq_none (h : ¬ ending <:+ cs) : dropEnding? ending cs = none := by
  apply if_neg
  rwa [List.isSuffixOf_iff_suffix]

def Apart (xs ys : List Char) : Prop := ¬ xs <:+ ys ∧ ¬ ys <:+ xs

instance (xs ys : List Char) : Decidable (Apart xs ys) := inferInstanceAs (Decidable (_ ∧ _))

theorem dropEnding?_of_apart (h : Apart ending ys) : dropEnding? ending (xs ++ ys) = none := by
  apply dropEnding?_eq_none
  intro hsuffix
  rcases List.suffix_or_suffix_of_suffix hsuffix (List.suffix_append xs ys) with hin | hin
  · exact h.1 hin
  · exact h.2 hin

def EndsInSlash (root : List Char) : Prop := root.getLast? = some '/'

theorem suffix_rooted_iff (hroot : EndsInSlash root) (hending : '/' ∉ ending) :
    ending <:+ root ++ cs ↔ ending <:+ cs := by
  constructor
  · intro hsuffix
    rcases List.suffix_or_suffix_of_suffix hsuffix (List.suffix_append root cs) with hin | hin
    · exact hin
    · obtain ⟨front, rfl⟩ := hin
      obtain ⟨before, hbefore⟩ := hsuffix
      rw [← List.append_assoc] at hbefore
      have hfront : before ++ front = root := List.append_cancel_right hbefore
      cases front with
      | nil => exact List.suffix_refl cs
      | cons c rest =>
        have hlast : (c :: rest).getLast? = some '/' := by
          rw [← hroot, ← hfront, List.getLast?_append_of_ne_nil _ (List.cons_ne_nil c rest)]
        exact absurd (List.mem_append_left cs (List.mem_of_getLast? hlast)) hending
  · exact fun h => h.trans (List.suffix_append root cs)

theorem dropEnding?_rooted (hroot : EndsInSlash root) (hending : '/' ∉ ending) :
    dropEnding? ending (root ++ cs) = (dropEnding? ending cs).map (root ++ ·) := by
  by_cases h : ending <:+ cs
  · obtain ⟨base, rfl⟩ := h
    rw [← List.append_assoc, dropEnding?_append_self, dropEnding?_append_self]
    rfl
  · rw [dropEnding?_eq_none h, dropEnding?_eq_none (mt (suffix_rooted_iff hroot hending).mp h)]
    rfl

end Text

/-! ## Stems -/

namespace Language
variable {root base extension cs : List Char}

/-- The text before the last point, if what follows is an extension and no part of a directory. -/
def withoutExtension (cs : List Char) : List Char :=
  match Text.cutLast? '.' cs with
  | some (base, tail) => if tail.isEmpty || tail.contains '/' then cs else base
  | none => cs

theorem stem_eq (filename : String) :
    stem filename = String.ofList (withoutExtension (sourceName filename.toList)) := by
  simp only [stem]
  generalize sourceName filename.toList = name
  cases hcut : Text.cutLast? '.' name with
  | none => simp only [withoutExtension, hcut]
  | some parts =>
    simp only [withoutExtension, hcut]
    split <;> rfl

structure IsExtension (extension : List Char) : Prop where
  point : '.' ∉ extension
  slash : '/' ∉ extension
  ne_nil : extension ≠ []

theorem withoutExtension_append (h : IsExtension extension) (base : List Char) :
    withoutExtension (base ++ '.' :: extension) = base := by
  have hother : (extension.isEmpty || extension.contains '/') = false := by
    simp [h.ne_nil, h.slash]
  simp only [withoutExtension, Text.cutLast?_append h.point, hother, Bool.false_eq_true, if_false]

theorem withoutExtension_rooted (hroot : Text.EndsInSlash root) (cs : List Char) :
    withoutExtension (root ++ cs) = root ++ withoutExtension cs := by
  by_cases hpoint : '.' ∈ cs
  · obtain ⟨base, tail, rfl, htail⟩ := Text.exists_last_of_mem hpoint
    simp only [withoutExtension, ← List.append_assoc, Text.cutLast?_append htail]
    split <;> simp
  · have hcs : withoutExtension cs = cs := by
      simp only [withoutExtension, Text.cutLast?_eq_none hpoint]
    rw [hcs]
    by_cases hdirectory : '.' ∈ root
    · -- The last point stands in the root, and the slash at its end stands behind the point.
      obtain ⟨base, tail, rfl, htail⟩ := Text.exists_last_of_mem hdirectory
      have hslash : '/' ∈ tail := by
        cases tail with
        | nil => simp [Text.EndsInSlash] at hroot
        | cons c rest =>
          unfold Text.EndsInSlash at hroot
          rw [List.append_cons, List.getLast?_append_of_ne_nil _ (List.cons_ne_nil c rest)] at hroot
          exact List.mem_of_getLast? hroot
      have hnone : '.' ∉ tail ++ cs := by simp [htail, hpoint]
      simp [withoutExtension, Text.cutLast?_append hnone, hslash]
    · have hnone : '.' ∉ root ++ cs := by simp [hdirectory, hpoint]
      simp only [withoutExtension, Text.cutLast?_eq_none hnone]

theorem sourceName_rooted (hroot : Text.EndsInSlash root) (cs : List Char) :
    sourceName (root ++ cs) = root ++ sourceName cs := by
  have hdeclared : '/' ∉ ".d.ts".toList := by decide
  have hmapped : '/' ∉ ".map".toList := by decide
  simp only [sourceName, Text.dropEnding?_rooted hroot hdeclared]
  cases Text.dropEnding? ".d.ts".toList cs with
  | none =>
    simp only [Option.map_none, Text.dropEnding?_rooted hroot hmapped]
    cases Text.dropEnding? ".map".toList cs <;> rfl
  | some source =>
    simp only [Option.map_some, List.append_assoc, Text.dropEnding?_rooted hroot hmapped]
    cases Text.dropEnding? ".map".toList (source ++ ".ts".toList) <;> simp

theorem stem_rooted {root : String} (hroot : Text.EndsInSlash root.toList) (filename : String) :
    stem (root ++ filename) = root ++ stem filename := by
  rw [stem_eq, stem_eq, String.toList_append, sourceName_rooted hroot, withoutExtension_rooted hroot,
    String.ofList_append, String.ofList_toList]

theorem sourceName_of_apart {name : List Char} (hdeclared : Text.Apart ".d.ts".toList name)
    (hmapped : Text.Apart ".map".toList name) (cs : List Char) :
    sourceName (cs ++ name) = cs ++ name := by
  simp only [sourceName, Text.dropEnding?_of_apart hdeclared, Text.dropEnding?_of_apart hmapped]
  rfl

/-- Taking the stem undoes the naming of an output. -/
theorem stem_append_ending {ending : String} (h : ending ∈ Checker.outputEndings) (base : String) :
    stem (base ++ ending) = base := by
  have hplain : ∀ extension : List Char, IsExtension extension →
      sourceName (base ++ ending).toList = base.toList ++ '.' :: extension →
      stem (base ++ ending) = base := by
    intro extension hextension hsource
    rw [stem_eq, hsource, withoutExtension_append hextension, String.ofList_toList]
  simp only [Checker.outputEndings, List.mem_cons, List.not_mem_nil, or_false] at h
  rcases h with rfl | rfl | rfl
  · apply hplain "js".toList ⟨by decide, by decide, by decide⟩
    rw [String.toList_append]
    exact sourceName_of_apart (by decide) (by decide) base.toList
  · apply hplain "jsx".toList ⟨by decide, by decide, by decide⟩
    rw [String.toList_append]
    exact sourceName_of_apart (by decide) (by decide) base.toList
  · -- A declaration counts as its source, which has an extension of its own.
    apply hplain "ts".toList ⟨by decide, by decide, by decide⟩
    have hmapped : Text.Apart ".map".toList ".ts".toList := by decide
    rw [String.toList_append]
    simp only [sourceName, Text.dropEnding?_append_self, Text.dropEnding?_of_apart hmapped]
    rfl

end Language

/-! ## Sources of outputs -/

/-- A file of the plan whose stem tells it from the files with other names, where every file has
outputs of its own. -/
structure Plan.Identifies (plan : Plan) (filename : String) : Prop where
  unbundled : ((plan.options.get? "outFile").getD .null).truthy = false
  listed : ∃ s ∈ plan.sections, s.filename = filename
  sole : ∀ s ∈ plan.sections, Language.stem s.filename = Language.stem filename →
    s.filename = filename

theorem Plan.Identifies.sourceFor? {plan : Plan} {filename shown : String}
    (h : plan.Identifies filename) (hstem : Language.stem shown = Language.stem filename) :
    Work.sourceFor? plan shown = some filename := by
  obtain ⟨s, hs, hname⟩ := h.listed
  have hfound : (plan.sections.find? fun s => Language.stem s.filename == Language.stem shown).isSome =
      true := by
    apply List.find?_isSome.mpr
    exact ⟨s, hs, by rw [hname, hstem, beq_self_eq_true]⟩
  obtain ⟨t, ht⟩ := Option.isSome_iff_exists.mp hfound
  have hsame : Language.stem t.filename = Language.stem shown := by
    simpa using List.find?_some ht
  have hfile : t.filename = filename :=
    h.sole t (List.mem_of_find?_eq_some ht) (hsame.trans hstem)
  simp only [Work.sourceFor?, h.unbundled, ht, Bool.false_eq_true, if_false, Option.none_or,
    Option.map_some, hfile]

/-- A file that a checker holds has outputs unless all files share one.  Each of them has the text of
the file and a name with the stem of the file's path.  Behind a root, its name has the stem of the
file's name, so a run that looks for the source of the output finds the file if its stem tells it
from the others. -/
theorem Checker.stem_of_output (c : Checker) (path : String) (text : List Char)
    (hfile : c.file? path = some text) (hbundle : (c.option "outFile").truthy = false) :
    ∃ outputs, c.emit path = .ok outputs ∧ outputs ≠ [] ∧ ∀ o ∈ outputs,
      Language.stem o.name = Language.stem path ∧ o.text = text ∧
      ∀ root filename : String, Text.EndsInSlash root.toList → path = root ++ filename →
        ∃ shown, o.name = root ++ shown ∧ Language.stem shown = Language.stem filename ∧
          ∀ plan : Plan, plan.Identifies filename → Work.sourceFor? plan shown = some filename := by
  refine ⟨_, emit_of_file hbundle hfile, ?_, ?_⟩
  · simp only [outputsOf]
    split <;> simp
  · intro o ho
    obtain ⟨htext, ending, hending, hname⟩ := of_mem_outputsOf ho
    refine ⟨?_, htext, ?_⟩
    · rw [hname, Language.stem_append_ending hending]
    · rintro root filename hroot rfl
      have hstem : Language.stem (Language.stem filename ++ ending) = Language.stem filename :=
        Language.stem_append_ending hending _
      refine ⟨Language.stem filename ++ ending, ?_, hstem, fun plan h => h.sourceFor? hstem⟩
      rw [hname, Language.stem_rooted hroot, String.append_assoc]

/-- A declaration in a directory with a point in its name, next to a file whose name is its stem. -/
theorem Checker.stem_of_output_example :
    let path := "/lib.v1/a.b.d.ts"
    let c : Checker := { options := [("declaration", .bool true), ("outFile", .str "")]
                         files := [(path, "x".toList)] }
    let plan : Plan := { extension := "ts", options := [], behaviour := {}
                         sections := [Section.make "/" 0 "lib.v1/a.b" "y".toList,
                           Section.make "/" 1 "lib.v1/a.b.d.ts" "x".toList] }
    c.file? path = some "x".toList ∧ (c.option "outFile").truthy = false ∧
      plan.Identifies "lib.v1/a.b.d.ts" ∧
      ∃ outputs, c.emit path = .ok outputs ∧
        outputs.map Output.name = ["/lib.v1/a.b.js", "/lib.v1/a.b.d.ts"] ∧
        ∀ o ∈ outputs, Language.stem o.name = Language.stem path ∧ o.text = "x".toList ∧
          ∃ shown, o.name = "/" ++ shown ∧
            Work.sourceFor? plan shown = some "lib.v1/a.b.d.ts" := by
  intro path c plan
  have hfile : c.file? path = some "x".toList := by decide +kernel
  have hbundle : (c.option "outFile").truthy = false := by decide +kernel
  have hidentifies : plan.Identifies "lib.v1/a.b.d.ts" := by
    refine ⟨by decide +kernel, ?_, ?_⟩
    · exact ⟨_, List.mem_cons_of_mem _ List.mem_cons_self, rfl⟩
    · decide +kernel
  obtain ⟨outputs, hemit, -, hall⟩ := stem_of_output c path "x".toList hfile hbundle
  have hnames : (c.emit path).toOption.map (fun outputs => outputs.map Output.name) =
      some ["/lib.v1/a.b.js", "/lib.v1/a.b.d.ts"] := by
    decide +kernel
  rw [hemit] at hnames
  refine ⟨hfile, hbundle, hidentifies, outputs, hemit, Option.some.inj hnames, ?_⟩
  intro o ho
  obtain ⟨hstem, htext, hrooted⟩ := hall o ho
  have hroot : Text.EndsInSlash "/".toList := by
    unfold Text.EndsInSlash
    decide
  obtain ⟨shown, hname, -, hsource⟩ := hrooted "/" "lib.v1/a.b.d.ts" hroot (by decide)
  exact ⟨hstem, htext, shown, hname, hsource plan hidentifies⟩

end Marginalia
