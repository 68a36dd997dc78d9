import Marginalia.Proofs.Session
import Marginalia.Proofs.Stages

/-!
# Samples that are refused

The language of a sample, the values of its options, its flags and its cuts are looked at while the
sample is read, and at no later time: checkers and trees fail in ways of their own.  A call that is
refused for one of these has not come to ask for a checker, whatever the session before it, and it
leaves the world as it was.
-/

namespace Marginalia
set_option autoImplicit false

open Outcome

namespace Failure

/-- The sample is refused for its language, its options, its flags or its cuts. -/
def OfReading : Failure → Prop
  | unknownLanguage _ _ => True
  | invalidValue _ _ _ => True
  | unknownFlags _ => True
  | incompatibleOptions => True
  | mismatchedCuts _ => True
  | _ => False

def OfChecker (e : Failure) : Prop :=
  (∃ faults, e = .malformed faults) ∨ (∃ path, e = .unknownFile path) ∨
    ∃ path, e = .unregisteredFile path

theorem ofChecker_malformed (faults : List Fault) : OfChecker (.malformed faults) :=
  Or.inl ⟨faults, rfl⟩

theorem OfChecker.not_ofReading {e : Failure} (h : e.OfChecker) : ¬ e.OfReading := by
  rcases h with ⟨faults, rfl⟩ | ⟨path, rfl⟩ | ⟨path, rfl⟩ <;> exact id

end Failure

namespace Checker

theorem failsOnly_textOf (c : Checker) (path : String) :
    FailsOnly Failure.OfChecker (c.textOf path) := by
  unfold textOf
  split
  · exact failsOnly_ok _
  · exact failsOnly_error (Or.inr (Or.inl ⟨path, rfl⟩))

theorem failsOnly_perform (c : Checker) (call : Call) :
    FailsOnly Failure.OfChecker (c.perform call).1 := by
  cases call with
  | create path content => exact failsOnly_ok ()
  | completions path offset => exact failsOnly_ok _
  | info path offset => exact (c.failsOnly_textOf path).map _
  | update path content =>
    simp only [perform, update]
    cases c.file? path with
    | some text => exact failsOnly_ok ()
    | none => exact failsOnly_error (Or.inr (Or.inr ⟨path, rfl⟩))
  | diagnostics path =>
    refine (c.failsOnly_textOf path).bind fun text _ => FailsOnly.map (FailsOnly.mapM ?_) _
    exact fun rule _ => FailsOnly.mapM fun i _ => failsOnly_toExcept Failure.ofChecker_malformed _
  | emit path =>
    simp only [perform, emit]
    split
    · split
      · exact failsOnly_ok _
      · next faults _ => exact failsOnly_error (Failure.ofChecker_malformed faults)
    · exact (c.failsOnly_textOf path).map _

end Checker

theorem World.failsOnly_identifiers {P : Failure → Prop} (hfault : ∀ fault, P (.badOffset fault))
    (hnone : P .noTree) (w : World) (content : List Char) (extension : String) :
    FailsOnly P (w.identifiers content extension).1 := by
  unfold identifiers
  split
  · exact failsOnly_ok []
  · split
    · next tree _ _ =>
      cases tree.identifiers content with
      | ok xs => exact failsOnly_ok xs
      | error fault => exact failsOnly_error (hfault fault)
    · exact failsOnly_error hnone
    · exact failsOnly_ok _

namespace Work

def Past {α : Type} (m : Work α) : Prop :=
  Meets (fun _ => True) m (fun _ _ => True) fun e _ => ¬ e.OfReading

theorem past_perform (job : Job) (plan : Plan) (call : Checker.Call) :
    Past (perform job plan call) := by
  intro d _
  rcases reaches_or_fails job plan d with ⟨n, w, hreach⟩ | ⟨e, hserves⟩
  · rw [hreach.exec_perform call]
    have hfails := (w.checkerAt plan.options n).failsOnly_perform call
    split
    · trivial
    · next e _ he => exact (hfails e (Prod.mk.inj he).1).not_ofReading
  · obtain ⟨d', hrun, -⟩ := hserves.exec_perform_error call
    rw [hrun]
    have hfails := Checker.failsOnly_ofScript Failure.ofChecker_malformed job.script plan.options
    exact (hfails e hserves.2.2).not_ofReading

theorem past_identifiers (s : Section) : Past (identifiers s) := by
  intro d _
  rw [exec_identifiers]
  have hfails : FailsOnly (fun e => ¬ e.OfReading)
      (({ trees := d.world.trees } : World).identifiers s.content s.extension).1 :=
    World.failsOnly_identifiers (fun _ => id) id _ _ _
  split
  · trivial
  · next e _ he =>
    obtain ⟨hread, -⟩ := Prod.mk.inj he
    exact hfails e (map_eq_error.mp hread)

theorem loose_true : Loose fun _ => True := ⟨fun _ _ => id, fun _ _ => id, fun _ _ => id⟩

theorem past_collect (job : Job) (plan : Plan) (s : Section) : Past (collect job plan s) := by
  have hcalls : Collects job plan s (fun _ => True) (fun _ => True) fun e _ => ¬ e.OfReading :=
    ⟨loose_true, fun _ _ => past_perform job plan _, fun _ _ => past_perform job plan _,
      fun _ _ _ _ => id⟩
  rw [collect_eq]
  refine Meets.bind (Q := fun _ _ => True) ?_ fun xs =>
    hcalls.collectFrom (fun _ _ => trivial) fun _ _ => trivial
  split
  · exact past_identifiers s
  · exact Meets.keep

theorem past_populate (job : Job) (plan : Plan) : Past (populate job plan) := by
  unfold populate
  refine @Meets.forM _ _ (fun _ _ => True) _ _ fun s _ _ => ?_
  refine Meets.bind (Q := fun _ _ => True) ?_ fun _ => ?_
  · refine Meets.bind (past_perform job plan _) fun _ => ?_
    exact Meets.bind (Q := fun _ _ => True) (Meets.of_modify fun _ => id) fun _ =>
      Meets.of_modify fun _ => id
  · split
    · exact past_collect job plan s
    · exact Meets.keep

theorem past_diagnose (job : Job) (plan : Plan) : Past (diagnose job plan) := by
  apply Meets.diagnose (R := fun _ => True)
  · exact fun s _ _ => past_perform job plan _
  · exact fun _ _ _ _ => trivial
  · exact fun _ _ _ _ _ => trivial
  · exact fun _ _ => id
  · exact fun _ _ _ _ _ _ => id

/-- Once its sample is read, a run does not fail as a reading does. -/
theorem past_run (job : Job) {start plan : Plan} {tags : List Note}
    (hread : start.read job.vocabulary job.root job.code = .ok (plan, tags)) :
    Past (run job start) := by
  refine Meets.run hread loose_true (past_populate job plan) (past_diagnose job plan) ?_
  refine ⟨loose_true, fun s => ?_, fun path => past_perform job plan _, fun _ _ _ _ => id,
    fun _ _ _ _ _ => id⟩
  exact (past_perform job plan _).mono (fun _ _ => trivial) fun _ _ => id

end Work

/-- A call that is refused for its language, its options, its flags or its cuts fails by reading
alone.  No checker is built, and the caches, the files and requests of all checkers and whatever
else the session has are as they were. -/
theorem Annotator.world_of_refused (a : Annotator) (q : Request) (w : World) (e : Failure)
    (h : (a.annotate q w).1 = .error e) (he : e.OfReading) :
    a.reading q = .error e ∧ (a.annotate q w).2 = w := by
  unfold annotate reading at *
  cases hplan : a.plan q with
  | error e' =>
    rw [hplan] at h
    cases h
    exact ⟨rfl, rfl⟩
  | ok start =>
    rw [hplan] at h
    rw [ok_bind]
    cases hread : start.read (a.job q).vocabulary a.root q.code with
    | error e' =>
      have hrun := Work.exec_run_of_read_error (a.job q) hread { world := w }
      dsimp only at h ⊢
      rw [hrun] at h ⊢
      cases h
      exact ⟨rfl, rfl⟩
    | ok x =>
      -- The sample has been read, so the call fails in some other way.
      have hpast := Work.past_run (a.job q) hread { world := w } trivial
      dsimp only at h
      rcases hrun : Work.exec (Work.run (a.job q) start) { world := w } with ⟨e' | r, d⟩
      · rw [hrun] at h hpast
        cases h
        exact absurd he hpast
      · rw [hrun] at h
        cases h

/-- A cut that is not ended, behind a call that has left a checker with a file and a request. -/
theorem Annotator.world_of_refused_example :
    let a : Annotator := { slot := some 0, declarations := [] }
    let q : Request := { code := "let b\n// ---cut-start---\n".toList }
    let c : Checker := { options := [], files := [("/index.ts", "let a\n".toList)]
                         requests := [("/index.ts", 4)] }
    let w : World := ({} : World).enrolIn 0 (optionsKey c.options) c rfl
    ∃ e, (a.annotate q w).1 = .error e ∧ e.OfReading ∧ (a.annotate q w).2 = w := by
  intro a q c w
  have hrun : (match (a.annotate q w).1 with
      | .error (.mismatchedCuts mismatch) => some mismatch
      | _ => none) = some (.counts 1 0) := by
    decide +kernel
  split at hrun
  · next mismatch he =>
    exact ⟨_, he, trivial, (world_of_refused a q w (.mismatchedCuts mismatch) he trivial).2⟩
  · cases hrun

end Marginalia
