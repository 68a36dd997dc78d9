import Marginalia.Proofs.Section
import Marginalia.Proofs.Work

/-!
# The checker of a run

A run that has no checker yet will work with the cached one or with a new one, so what its checker
holds can be said at any time.  Calls that are answered act on this checker alone.
-/

namespace Marginalia
set_option autoImplicit false

namespace Checker

/-- The checker after files have been set to the texts of sections, one after the other. -/
def holding (c : Checker) (sections : List Section) : Checker :=
  sections.foldl (fun c s => c.create s.path s.content) c

theorem holding_append (c : Checker) (xs ys : List Section) :
    c.holding (xs ++ ys) = (c.holding xs).holding ys :=
  List.foldl_append

theorem option_holding (c : Checker) (sections : List Section) (name : String) :
    (c.holding sections).option name = c.option name := by
  induction sections generalizing c with
  | nil => rfl
  | cons s rest ih => exact ih (c.create s.path s.content)

theorem file?_holding (c : Checker) (sections : List Section) (path : String) :
    (c.holding sections).file? path =
      ((Section.last? path sections).map Section.content).or (c.file? path) := by
  induction sections generalizing c with
  | nil => rfl
  | cons s rest ih =>
    have hrest := ih (c.create s.path s.content)
    rw [Section.last?_cons]
    by_cases hpath : s.path = path
    · rw [if_pos hpath]
      subst hpath
      rw [file?_create_self] at hrest
      cases hlast : Section.last? s.path rest with
      | none =>
        rw [hlast] at hrest
        exact hrest
      | some t =>
        rw [hlast] at hrest
        exact hrest
    · rw [if_neg hpath, Option.or_none]
      rw [file?_create_of_ne c (Ne.symm hpath)] at hrest
      exact hrest

theorem perform_update_ok {c : Checker} {path : String} {content : List Char}
    (h : (c.perform (.update path content)).1 = .ok ()) :
    (c.perform (.update path content)).2 = c.create path content := by
  cases hfile : c.file? path with
  | none =>
    simp only [perform, update, hfile] at h
    cases h
  | some text => simp only [perform, update, hfile]

theorem failsOnly_ofScript {P : Failure → Prop} (h : ∀ faults, P (.malformed faults))
    (script : Script) (options : Entries) : Outcome.FailsOnly P (ofScript script options) := by
  have hinfo : Outcome.FailsOnly P script.readInfo :=
    Outcome.FailsOnly.mapM fun entry _ =>
      (Outcome.failsOnly_toExcept h (QuickInfo.decode entry.2)).map _
  have hcompletions : Outcome.FailsOnly P script.readCompletions := by
    unfold Script.readCompletions
    split
    · exact Outcome.failsOnly_ok none
    · exact (Outcome.FailsOnly.mapM fun v _ =>
        Outcome.failsOnly_toExcept h (Note.decodeCompletion v)).map some
  exact hinfo.bind fun quickInfo _ => hcompletions.map _

def outputEndings : List String := [".js", ".jsx", ".d.ts"]

theorem of_mem_outputsOf {c : Checker} {path : String} {text : List Char} {o : Output}
    (h : o ∈ c.outputsOf path text) :
    o.text = text ∧ ∃ ending ∈ outputEndings, o.name = Language.stem path ++ ending := by
  have hmain : (if c.keepsMarkup (Language.extensionOf path) then ".jsx" else ".js") ∈
      outputEndings := by
    split <;> decide
  simp only [outputsOf] at h
  split at h
  · rcases List.mem_cons.mp h with rfl | h
    · exact ⟨rfl, _, hmain, rfl⟩
    · rw [List.mem_singleton.mp h]
      exact ⟨rfl, ".d.ts", by decide, rfl⟩
  · rw [List.mem_singleton.mp h]
    exact ⟨rfl, _, hmain, rfl⟩

section Emit
variable {c : Checker} {path : String} (hbundle : (c.option "outFile").truthy = false)
include hbundle

theorem emit_of_file {text : List Char} (hfile : c.file? path = some text) :
    c.emit path = .ok (c.outputsOf path text) := by
  simp only [emit, textOf, hbundle, hfile, Bool.false_eq_true, if_false]
  rfl

theorem emit_ok {outputs : List Output} (h : c.emit path = .ok outputs) :
    ∃ text, c.file? path = some text ∧ ∀ o ∈ outputs, o.text = text := by
  cases hfile : c.file? path with
  | none =>
    simp only [emit, textOf, hbundle, hfile] at h
    cases h
  | some text =>
    rw [emit_of_file hbundle hfile] at h
    obtain rfl := Except.ok.inj h
    exact ⟨text, rfl, fun o ho => (of_mem_outputsOf ho).1⟩

end Emit

end Checker

namespace Work

/-- The checker of a run: the one it works with, or else the cached one, or else a new one. -/
def checker? (job : Job) (plan : Plan) (d : Draft) : Option Checker :=
  match d.checker with
  | some n => d.world.checkers[n]?
  | none =>
    match d.world.cached? job.slot plan.options with
    | some n => d.world.checkers[n]?
    | none => (Checker.ofScript job.script plan.options).toOption

variable {job : Job} {plan : Plan} {d d' : Draft}

theorem checker?_congr (hnumber : d'.checker = d.checker)
    (hcheckers : d'.world.checkers = d.world.checkers) (hcaches : d'.world.caches = d.world.caches) :
    checker? job plan d' = checker? job plan d := by
  unfold checker? World.cached? World.cache
  rw [hnumber, hcheckers, hcaches]

theorem Reaches.checker?_eq {n : Nat} {w : World} (h : Reaches job plan d n w) :
    checker? job plan d = w.checkers[n]? := by
  unfold checker?
  rcases h with ⟨hnumber, rfl⟩ | ⟨hnumber, hacquire⟩
  · rw [hnumber]
  · rw [hnumber]
    rcases World.acquire_ok hacquire with ⟨hcached, rfl⟩ | ⟨hcached, rfl, -, c, hc, hnew⟩
    · rw [hcached]
    · rw [hcached, hc, hnew, List.getElem?_concat_length]
      rfl

theorem checker?_start {c : Checker} (hnone : d.checker = none)
    (h : checker? job plan d = some c) :
    (∃ n, d.world.cached? job.slot plan.options = some n ∧ d.world.checkers[n]? = some c) ∨
      (c.options = plan.options ∧ c.files = []) := by
  unfold checker? at h
  rw [hnone] at h
  dsimp only at h
  cases hcached : d.world.cached? job.slot plan.options with
  | some n =>
    rw [hcached] at h
    exact Or.inl ⟨n, rfl, h⟩
  | none =>
    rw [hcached] at h
    cases hnew : Checker.ofScript job.script plan.options with
    | error e =>
      rw [hnew] at h
      cases h
    | ok new =>
      rw [hnew] at h
      obtain rfl : new = c := Option.some.inj h
      exact Or.inr (Checker.ofScript_ok hnew)

/-- A call that is answered is answered by the run's checker, and changes it and no other. -/
theorem perform_checker {call : Checker.Call} {answer : call.Answer}
    (h : exec (perform job plan call) d = (.ok answer, d')) :
    (((checker? job plan d).getD { options := plan.options }).perform call).1 = .ok answer ∧
      checker? job plan d' = (checker? job plan d).map (fun c => (c.perform call).2) ∧
      d'.registered = d.registered := by
  obtain ⟨n, w, w', hreach, hcall, rfl⟩ := perform_ok h
  rw [hreach.checker?_eq]
  refine ⟨congrArg Prod.fst hcall, ?_, rfl⟩
  have hafter : checker? job plan { d with
      world := w', checker := some n, journal := d.journal ++ [call] } = w'.checkers[n]? := rfl
  have hchanged : w'.checkers = (w.perform plan.options n call).2.checkers :=
    (congrArg (World.checkers ∘ Prod.snd) hcall).symm
  rw [hafter, hchanged]
  unfold World.perform
  dsimp only
  -- A number that was never given out stands for an empty checker, and setting it changes nothing.
  cases hn : w.checkers[n]? with
  | none =>
    have hout : w.checkers.length ≤ n := List.getElem?_eq_none_iff.mp hn
    rw [Option.map_none, List.getElem?_eq_none_iff, List.length_set]
    exact hout
  | some c =>
    obtain ⟨hlt, -⟩ := List.getElem?_eq_some_iff.mp hn
    rw [List.getElem?_set_self hlt, Option.map_some, World.checkerAt_eq hn]

end Work

end Marginalia
