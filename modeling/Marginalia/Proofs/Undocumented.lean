import Mathlib.Data.List.Basic
import Marginalia.Proofs.Dropped
import Marginalia.Proofs.Failing

/-!
# Errors that were not declared

A call that holds its errors against the declared codes fails if one of them has another code, the code
zero apart.  The errors that count are those that the checker reports for the source files, less the
silenced ones and what the caller filters out.  What is erased later has no say in this.
-/

namespace Marginalia
set_option autoImplicit false

/-! ## Lists by first appearance -/

namespace Grouping
variable {α β : Type} [DecidableEq β]

theorem pairwise_idxOf_eraseDups (p : β → Bool) (xs : List β) :
    (xs.filter p).eraseDups.Pairwise fun a b => xs.idxOf a < xs.idxOf b := by
  induction xs generalizing p with
  | nil => exact .nil
  | cons x xs ih =>
    -- The first value either is left out or has been listed, so the values behind it are others, and
    -- each of them stands one place further on.
    have hlater : ∀ q : β → Bool, q x = false →
        (xs.filter q).eraseDups.Pairwise fun a b => (x :: xs).idxOf a < (x :: xs).idxOf b := by
      intro q hq
      refine (ih q).imp_of_mem fun ha hb hlt => ?_
      have hne : ∀ c ∈ (xs.filter q).eraseDups, x ≠ c := by
        rintro c hc rfl
        have hmem := (List.mem_filter.mp (List.mem_eraseDups.mp hc)).2
        exact absurd hmem (Bool.eq_false_iff.mp hq)
      rw [List.idxOf_cons_ne _ (hne _ ha), List.idxOf_cons_ne _ (hne _ hb)]
      exact Nat.succ_lt_succ hlt
    cases hx : p x with
    | false =>
      rw [List.filter_cons_of_neg (Bool.eq_false_iff.mp hx)]
      exact hlater p hx
    | true =>
      rw [List.filter_cons_of_pos hx, List.eraseDups_cons, List.filter_filter]
      refine List.pairwise_cons.mpr ⟨fun b hb => ?_, hlater _ (by simp)⟩
      have hne : x ≠ b := by
        rintro rfl
        simpa using (List.mem_filter.mp (List.mem_eraseDups.mp hb)).2
      rw [List.idxOf_cons_self, List.idxOf_cons_ne _ hne]
      exact Nat.succ_pos _

theorem nodup_of_pairwise_idxOf {xs ys : List β}
    (h : ys.Pairwise fun a b => xs.idxOf a < xs.idxOf b) : ys.Nodup := by
  refine h.imp ?_
  rintro a b hlt rfl
  exact Nat.lt_irrefl _ hlt

theorem flatMap_filter_perm (f : α → β) (xs : List α) {keys : List β} (h : keys.Nodup) :
    (keys.flatMap fun k => xs.filter fun x => f x == k).Perm
      (xs.filter fun x => keys.contains (f x)) := by
  -- Induction on the keys; what the first key takes is not found under the others.
  induction keys with
  | nil => simp
  | cons k keys ih =>
    obtain ⟨hk, hkeys⟩ := List.nodup_cons.mp h
    rw [List.flatMap_cons]
    refine ((ih hkeys).append_left _).trans ?_
    refine List.Perm.trans (List.Perm.of_eq ?_)
      (List.filter_append_perm (fun x => f x == k) (xs.filter fun x => (k :: keys).contains (f x)))
    rw [List.filter_filter, List.filter_filter]
    congr 1
    · refine List.filter_congr fun x _ => ?_
      by_cases hx : f x = k <;> simp [hx]
    · refine List.filter_congr fun x _ => ?_
      by_cases hx : f x = k <;> simp [hx, hk]

theorem flatMap_eraseDups_perm (f : α → β) (xs : List α) :
    ((xs.map f).eraseDups.flatMap fun k => xs.filter fun x => f x == k).Perm xs := by
  have hnodup : (xs.map f).eraseDups.Nodup := by
    have hpairwise := pairwise_idxOf_eraseDups (fun _ => true) (xs.map f)
    rw [List.filter_true] at hpairwise
    exact nodup_of_pairwise_idxOf hpairwise
  refine (flatMap_filter_perm f xs hnodup).trans (List.Perm.of_eq (List.filter_eq_self.mpr ?_))
  intro x hx
  rw [List.contains_eq_mem, decide_eq_true_iff, List.mem_eraseDups]
  exact List.mem_map_of_mem hx

end Grouping

/-! ## The errors that count -/

/-- An error of a file as a note on a section of its name. -/
def Section.errorNote (s : Section) (e : Checker.Diagnostic) : Note :=
  { start := e.start + s.offset, length := e.length
    body := .error e.code s.filename (Work.errorId e.code (e.start + s.offset) e.length) e.message
      e.category }

/-- An error of a file as it stands in a report. -/
def Section.reported (s : Section) (e : Checker.Diagnostic) : Reported :=
  ⟨e.code, e.start + s.offset, s.filename, e.message⟩

/-- Neither the code of the error is silenced nor, if that is asked for, the place where it starts. -/
def Plan.counts (plan : Plan) (s : Section) (e : Checker.Diagnostic) : Bool :=
  !plan.behaviour.ignoredCodes.contains e.code &&
    !(plan.behaviour.noErrorsCutted && plan.removes (e.start + s.offset))

/-- The errors that count, with their sections, file by file: what is found in the source files, without
what is silenced and what the caller does not keep. -/
def Plan.counted (plan : Plan) (job : Job) (found : Section → List Checker.Diagnostic) :
    List (Section × Checker.Diagnostic) :=
  ((plan.sections.filter fun s => Language.isSource s.extension).flatMap fun s =>
    ((found s).filter (plan.counts s)).map (s, ·)).filter fun x => job.keeps (x.1.errorNote x.2)

def Plan.reported (plan : Plan) (job : Job) (found : Section → List Checker.Diagnostic) :
    List Reported :=
  (plan.counted job found).map fun x => x.1.reported x.2

namespace Answered
variable {job : Job} {plan : Plan} {p : Except Failure Checker}
  {found : Section → List Checker.Diagnostic}

end Answered

/-! ## The report -/

/-- What is told when errors have not been declared: their codes, once each, and all errors that count,
once each and file by file.  Codes and files stand in the order of their first appearance. -/
structure Reported.Told (errors : List Reported) (declared : List Int) (root : String)
    (codes : List Int) (text : String) : Prop where
  mem_codes_iff : ∀ k, k ∈ codes ↔ k ≠ 0 ∧ k ∉ declared ∧ ∃ e ∈ errors, e.code = k
  codes_nodup : codes.Nodup
  codes_order : codes.Pairwise fun j k =>
    (errors.map Reported.code).idxOf j < (errors.map Reported.code).idxOf k
  listing : ∃ groups : List (String × List Reported),
    (groups.map Prod.fst).Nodup ∧
    ((groups.map Prod.fst).Pairwise fun x y =>
      (errors.map Reported.filename).idxOf x < (errors.map Reported.filename).idxOf y) ∧
    (∀ g ∈ groups, g.2 ≠ [] ∧ ∀ e ∈ g.2, e.filename = g.1) ∧
    (groups.flatMap Prod.snd).Perm errors ∧
    text = "Compiler Errors:\n\n" ++ "\n\n".intercalate (groups.map fun g =>
      root ++ g.1 ++ "\n  " ++ "\n  ".intercalate (g.2.map Failure.errorLine))

namespace Expectation
variable (expected : List Int) (root : String) (errors : List Reported)

theorem codes_undeclared :
    (undeclared expected errors).map Reported.code =
      (errors.map Reported.code).filter fun code => code != 0 && !expected.contains code := by
  rw [List.filter_map]
  rfl

theorem exists_groups :
    ∃ groups : List (String × List Reported),
      (groups.map Prod.fst).Nodup ∧
      ((groups.map Prod.fst).Pairwise fun x y =>
        (errors.map Reported.filename).idxOf x < (errors.map Reported.filename).idxOf y) ∧
      (∀ g ∈ groups, g.2 ≠ [] ∧ ∀ e ∈ g.2, e.filename = g.1) ∧
      (groups.flatMap Prod.snd).Perm errors ∧
      Failure.errorListing root errors = "\n\n".intercalate (groups.map fun g =>
        root ++ g.1 ++ "\n  " ++ "\n  ".intercalate (g.2.map Failure.errorLine)) := by
  let files := (errors.map Reported.filename).eraseDups
  let groups := files.map fun file => (file, errors.filter (·.filename == file))
  have hfiles : groups.map Prod.fst = files := by
    rw [List.map_map]
    exact List.map_id files
  have hpairwise := Grouping.pairwise_idxOf_eraseDups (fun _ => true) (errors.map Reported.filename)
  rw [List.filter_true] at hpairwise
  refine ⟨groups, ?_, ?_, ?_, ?_, ?_⟩
  · rw [hfiles]
    exact Grouping.nodup_of_pairwise_idxOf hpairwise
  · rw [hfiles]
    exact hpairwise
  · intro g hg
    obtain ⟨file, hfile, rfl⟩ := List.mem_map.mp hg
    obtain ⟨e, he, hname⟩ := List.mem_map.mp (List.mem_eraseDups.mp hfile)
    refine ⟨List.ne_nil_of_mem (List.mem_filter.mpr ⟨he, beq_iff_eq.mpr hname⟩), ?_⟩
    exact fun e he => beq_iff_eq.mp (List.mem_filter.mp he).2
  · rw [List.flatMap_map]
    exact Grouping.flatMap_eraseDups_perm Reported.filename errors
  · unfold Failure.errorListing
    rw [List.map_map]
    rfl

theorem told :
    Reported.Told errors expected root ((undeclared expected errors).map Reported.code).eraseDups
      ("Compiler Errors:\n\n" ++ Failure.errorListing root errors) := by
  have horder := Grouping.pairwise_idxOf_eraseDups
    (fun code => code != 0 && !expected.contains code) (errors.map Reported.code)
  obtain ⟨groups, hnodup, hfiles, hnames, hperm, htext⟩ := exists_groups root errors
  rw [codes_undeclared]
  refine ⟨fun k => ?_, Grouping.nodup_of_pairwise_idxOf horder, horder,
    groups, hnodup, hfiles, hnames, hperm, congrArg _ htext⟩
  rw [List.mem_eraseDups, List.mem_filter, and_comm, Bool.and_eq_true, bne_iff_ne,
    Bool.not_eq_true', List.contains_eq_mem, decide_eq_false_iff_not, and_assoc, List.mem_map]

end Expectation

namespace Annotator
variable {a : Annotator} {q : Request} {w : World} {plan : Plan} {tags notes : List Note}

end Annotator

end Marginalia
