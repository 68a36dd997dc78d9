import Marginalia.Run
import Marginalia.Proofs.Outcome

/-!
# Reasoning about runs

What the parts of a run do to its state when the whole of it succeeds, and a triple for work that
may fail: from states with one property, success leads to results and states with a second, failure
to failures and states with a third.
-/

namespace Marginalia
set_option autoImplicit false

def World.cached? (w : World) (slot : Option Nat) (options : Entries) : Option Nat :=
  slot.bind fun k => (w.cache k).find? (optionsKey options)

theorem World.acquire_ok {w w' : World} {slot : Option Nat} {script : Checker.Script}
    {options : Entries} {n : Nat} (h : w.acquire slot script options = (.ok n, w')) :
    (w.cached? slot options = some n ∧ w' = w) ∨
      (w.cached? slot options = none ∧ n = w.checkers.length ∧ w'.trees = w.trees ∧
        ∃ c, Checker.ofScript script options = .ok c ∧ w'.checkers = w.checkers ++ [c]) := by
  cases slot with
  | none =>
    unfold acquire at h
    dsimp only at h
    split at h
    · next c hc =>
      cases h
      exact Or.inr ⟨rfl, rfl, rfl, c, hc, rfl⟩
    · cases h
  | some k =>
    cases hfind : (w.cache k).find? (optionsKey options) with
    | some m =>
      unfold acquire at h
      dsimp only at h
      rw [hfind] at h
      cases h
      exact Or.inl ⟨hfind, rfl⟩
    | none =>
      cases hc : Checker.ofScript script options with
      | error e =>
        rw [acquire_some_of_error hfind hc] at h
        cases h
      | ok c =>
        rw [acquire_some_of_ok hfind hc] at h
        cases h
        exact Or.inr ⟨hfind, rfl, rfl, c, rfl, rfl⟩

namespace Work

variable {α β : Type}

theorem exec_bind (m : Work α) (f : α → Work β) (d : Draft) :
    exec (m >>= f) d = match exec m d with
      | (.ok a, d') => exec (f a) d'
      | (.error e, d') => (.error e, d') := by
  simp only [exec, ExceptT.run_bind, StateT.run_bind]
  rcases StateT.run (ExceptT.run m) d with ⟨a | e, d'⟩ <;> rfl

@[simp] theorem exec_addNotes (notes : List Note) (d : Draft) :
    exec (addNotes notes) d = (.ok (), { d with notes := d.notes ++ notes }) := rfl

theorem exec_ofExcept (x : Except Failure α) (d : Draft) : exec (ofExcept x) d = (x, d) := by
  cases x <;> rfl

theorem exec_bind_ok {m : Work α} {f : α → Work β} {d d' : Draft} {b : β} :
    exec (m >>= f) d = (.ok b, d') ↔
      ∃ a d₁, exec m d = (.ok a, d₁) ∧ exec (f a) d₁ = (.ok b, d') := by
  rw [exec_bind]
  constructor
  · intro h
    split at h
    · next a d₁ hm => exact ⟨a, d₁, hm, h⟩
    · simp at h
  · rintro ⟨a, d₁, hm, hf⟩
    rw [hm]
    exact hf

/-- From states with the first property, the work leads to results and states with the second or
fails with the third. -/
def Meets (P : Draft → Prop) (m : Work α) (Q : α → Draft → Prop) (E : Failure → Draft → Prop) :
    Prop :=
  ∀ d, P d → match exec m d with
    | (.ok a, d') => Q a d'
    | (.error e, d') => E e d'

namespace Meets
variable {P : Draft → Prop} {Q : α → Draft → Prop} {E : Failure → Draft → Prop}

theorem ok {m : Work α} (h : Meets P m Q E) {d d' : Draft} {a : α} (hd : P d)
    (hm : exec m d = (.ok a, d')) : Q a d' := by
  have := h d hd
  rwa [hm] at this

theorem of_exec_ok {m : Work α} (h : ∀ d a d', P d → exec m d = (.ok a, d') → Q a d') :
    Meets P m Q fun _ _ => True := by
  intro d hd
  rcases hm : exec m d with ⟨e | a, d'⟩
  · trivial
  · exact h d a d' hd hm

theorem mono {P' : Draft → Prop} {Q' : α → Draft → Prop} {m : Work α} (h : Meets P m Q E)
    (hP : ∀ d, P' d → P d) (hQ : ∀ a d, Q a d → Q' a d) : Meets P' m Q' E := by
  intro d hd
  have hmeets := h d (hP d hd)
  rcases hm : exec m d with ⟨e | a, d'⟩
  · rw [hm] at hmeets
    exact hmeets
  · rw [hm] at hmeets
    exact hQ _ _ hmeets

theorem of_and {R : Prop} {m : Work α} (h : R → Meets P m Q E) :
    Meets (fun d => P d ∧ R) m Q E :=
  fun d hd => h hd.2 d hd.1

theorem of_pure {a : α} (h : ∀ d, P d → Q a d) : Meets P (pure a) Q E := h

theorem of_modify {f : Draft → Draft} {Q : Unit → Draft → Prop} (h : ∀ d, P d → Q () (f d)) :
    Meets P (modify f) Q E := h

theorem of_throw {e : Failure} (h : ∀ d, P d → E e d) : Meets P (throw e : Work α) Q E := h

theorem of_ofExcept {x : Except Failure α} (hok : ∀ a d, P d → x = .ok a → Q a d)
    (herror : ∀ e d, P d → x = .error e → E e d) : Meets P (ofExcept x) Q E := by
  intro d hd
  rw [exec_ofExcept]
  cases hx : x with
  | ok a => exact hok a d hd hx
  | error e => exact herror e d hd hx

theorem bind {R : β → Draft → Prop} {m : Work α} {f : α → Work β} (hm : Meets P m Q E)
    (hf : ∀ a, Meets (Q a) (f a) R E) : Meets P (m >>= f) R E := by
  intro d hd
  have hmeets := hm d hd
  rw [exec_bind]
  rcases he : exec m d with ⟨e | a, d'⟩
  · rw [he] at hmeets
    exact hmeets
  · rw [he] at hmeets
    exact hf a d' hmeets

/-- Work on the items of a list one after the other.  The property of the state may speak of the
items that are still to come. -/
theorem forM {I : List β → Draft → Prop} {f : β → Work Unit} {xs : List β}
    (h : ∀ x rest, (x :: rest) <:+ xs → Meets (I (x :: rest)) (f x) (fun _ => I rest) E) :
    Meets (I xs) (xs.forM f) (fun _ => I []) E := by
  induction xs with
  | nil => exact of_pure fun d hd => hd
  | cons x xs ih =>
    refine bind (h x xs (List.suffix_refl _)) fun _ => ih fun y rest hsuffix => ?_
    exact h y rest (hsuffix.trans (List.suffix_cons x xs))

theorem forM_done {I : List β → Draft → Prop} {f : β → Work Unit} {xs : List β}
    (h : ∀ done, ∀ x ∈ xs, Meets (I done) (f x) (fun _ => I (done ++ [x])) E) :
    Meets (I []) (xs.forM f) (fun _ => I xs) E := by
  induction xs generalizing I with
  | nil => exact of_pure fun d hd => hd
  | cons x xs ih =>
    refine bind (h [] x List.mem_cons_self) fun _ => ?_
    exact ih (I := fun done => I (x :: done)) fun done y hy =>
      h (x :: done) y (List.mem_cons_of_mem x hy)

theorem mapM {I : Draft → Prop} {R : α → Prop} {f : β → Work α} {xs : List β}
    (h : ∀ x ∈ xs, Meets I (f x) (fun a d => I d ∧ R a) E) :
    Meets I (xs.mapM f) (fun as d => I d ∧ ∀ a ∈ as, R a) E := by
  induction xs with
  | nil =>
    rw [List.mapM_nil]
    exact of_pure fun d hd => ⟨hd, by simp⟩
  | cons x xs ih =>
    rw [List.mapM_cons]
    refine bind (h x List.mem_cons_self) fun a => ?_
    have hrest := ih fun y hy => h y (List.mem_cons_of_mem x hy)
    intro d ⟨hd, ha⟩
    refine (bind hrest fun as => ?_) d hd
    refine of_pure fun d' ⟨hd', has⟩ => ⟨hd', ?_⟩
    intro b hb
    rcases List.mem_cons.mp hb with rfl | hb
    · exact ha
    · exact has b hb

theorem filterMapM {I : Draft → Prop} {R : α → Prop} {f : β → Work (Option α)} {xs : List β}
    (h : ∀ x ∈ xs, Meets I (f x) (fun o d => I d ∧ ∀ a ∈ o, R a) E) :
    Meets I (xs.filterMapM f) (fun as d => I d ∧ ∀ a ∈ as, R a) E := by
  induction xs with
  | nil => exact of_pure fun d hd => ⟨hd, by simp⟩
  | cons x xs ih =>
    rw [List.filterMapM_cons]
    have hrest := ih fun y hy => h y (List.mem_cons_of_mem x hy)
    refine bind (h x List.mem_cons_self) fun o => ?_
    cases o with
    | none => exact hrest.mono (fun d hd => hd.1) fun _ _ h => h
    | some a =>
      intro d ⟨hd, ha⟩
      refine (bind hrest fun as => ?_) d hd
      refine of_pure fun d' ⟨hd', has⟩ => ⟨hd', ?_⟩
      intro b hb
      rcases List.mem_cons.mp hb with rfl | hb
      · exact ha b rfl
      · exact has b hb

section Diagnose
variable {job : Job} {plan : Plan} {I : Draft → Prop} {R : Note → Prop}

theorem errorNotes
    (hcall : ∀ s ∈ plan.sections, Language.isSource s.extension = true →
      Meets I (perform job plan (.diagnostics s.path)) (fun _ => I) E)
    (hnote : ∀ s e n, errorNote? plan s e = some n → R n) :
    Meets I (errorNotes job plan) (fun notes d => I d ∧ ∀ n ∈ notes, R n) E := by
  unfold Work.errorNotes
  split
  · exact of_pure fun d hd => ⟨hd, fun n hn => absurd hn List.not_mem_nil⟩
  have hfile : ∀ s ∈ plan.sections.filter fun s => Language.isSource s.extension, Meets I
      (do return (← perform job plan (.diagnostics s.path)).filterMap (errorNote? plan s))
      (fun notes d => I d ∧ ∀ n ∈ notes, R n) E := by
    intro s hs
    obtain ⟨hmem, hsource⟩ := List.mem_filter.mp hs
    refine bind (hcall s hmem hsource) fun found => of_pure fun d hd => ⟨hd, ?_⟩
    intro n hn
    obtain ⟨e, -, he⟩ := List.mem_filterMap.mp hn
    exact hnote s e n he
  refine bind (mapM hfile) fun lists => of_pure fun d ⟨hd, hlists⟩ => ⟨hd, ?_⟩
  intro n hn
  obtain ⟨notes, hnotes, hn⟩ := List.mem_flatten.mp hn
  exact hlists notes hnotes n hn

theorem expect {expected : List Int} {root : String} {errors : List Note}
    (hreport : ∀ d e, I d → I { d with world := d.world.report e })
    (hfail : ∀ codes expected root errors d, I d →
      E (.undocumentedErrors codes expected root errors) d) :
    Meets I (expect expected root errors) (fun _ => I) E := by
  unfold Work.expect
  dsimp only
  have hcheck : Meets I (ofExcept (Expectation.check expected root (errors.filterMap reported?)))
      (fun _ => I) E := by
    refine of_ofExcept (fun _ d hd _ => hd) fun e d hd he => ?_
    unfold Expectation.check at he
    dsimp only at he
    split at he
    · cases he
    · cases he
      exact hfail _ _ _ _ d hd
  split
  · exact bind (Q := fun _ => I) (of_modify fun d hd => hreport d _ hd) fun _ => hcheck
  · exact hcheck

theorem diagnose
    (hcall : ∀ s ∈ plan.sections, Language.isSource s.extension = true →
      Meets I (perform job plan (.diagnostics s.path)) (fun _ => I) E)
    (hnote : ∀ s e n, errorNote? plan s e = some n → R n)
    (hnotes : ∀ d (found : List Note) (keep : Note → Bool), I d → (∀ n ∈ found, R n) →
      I { d with notes := d.notes.filter keep ++ found.filter keep })
    (hreport : ∀ d e, I d → I { d with world := d.world.report e })
    (hfail : ∀ codes expected root errors d, I d →
      E (.undocumentedErrors codes expected root errors) d) :
    Meets I (diagnose job plan) (fun _ => I) E := by
  unfold Work.diagnose
  refine bind (errorNotes hcall hnote) fun found => of_and fun hfound => ?_
  dsimp only
  refine bind (Q := fun _ => I) (of_modify fun d hd => hnotes d found _ hd hfound) fun _ => ?_
  split
  · exact expect hreport hfail
  · exact of_pure fun d hd => hd

end Diagnose

end Meets

/-- The run's checker has the number `n` in the world `w`. -/
def Reaches (job : Job) (plan : Plan) (d : Draft) (n : Nat) (w : World) : Prop :=
  (d.checker = some n ∧ w = d.world) ∨
    (d.checker = none ∧ d.world.acquire job.slot job.script plan.options = (.ok n, w))

theorem checkerNumber_ok {job : Job} {plan : Plan} {d d' : Draft} {n : Nat}
    (h : exec (checkerNumber job plan) d = (.ok n, d')) :
    ∃ w, Reaches job plan d n w ∧ d' = { d with world := w, checker := some n } := by
  unfold checkerNumber at h
  obtain ⟨_, _, hget, h⟩ := exec_bind_ok.mp h
  cases hget
  cases hnumber : d.checker with
  | some m =>
    rw [hnumber] at h
    cases h
    exact ⟨d.world, Or.inl ⟨hnumber, rfl⟩, by rw [← hnumber]⟩
  | none =>
    rw [hnumber] at h
    dsimp only at h
    obtain ⟨_, _, hset, h⟩ := exec_bind_ok.mp h
    cases hset
    obtain ⟨m, d₁, hfound, h⟩ := exec_bind_ok.mp h
    obtain ⟨hm, rfl⟩ := Prod.mk.inj ((exec_ofExcept _ _).symm.trans hfound)
    cases h
    exact ⟨_, Or.inr ⟨hnumber, Prod.ext hm rfl⟩, rfl⟩

theorem perform_ok {job : Job} {plan : Plan} {call : Checker.Call} {d d' : Draft}
    {answer : call.Answer} (h : exec (perform job plan call) d = (.ok answer, d')) :
    ∃ n w w', Reaches job plan d n w ∧ w.perform plan.options n call = (.ok answer, w') ∧
      d' = { d with world := w', checker := some n, journal := d.journal ++ [call] } := by
  unfold perform at h
  obtain ⟨n, d₁, hnumber, h⟩ := exec_bind_ok.mp h
  obtain ⟨w, hreach, rfl⟩ := checkerNumber_ok hnumber
  obtain ⟨_, _, hget, h⟩ := exec_bind_ok.mp h
  cases hget
  dsimp only at h
  obtain ⟨_, _, hset, h⟩ := exec_bind_ok.mp h
  cases hset
  obtain ⟨hanswer, rfl⟩ := Prod.mk.inj ((exec_ofExcept _ _).symm.trans h)
  exact ⟨n, w, _, hreach, Prod.ext hanswer rfl, rfl⟩

theorem identifiers_ok {s : Section} {d d' : Draft} {xs : List Identifier}
    (h : exec (identifiers s) d = (.ok xs, d')) :
    ∃ found w, d.world.identifiers s.content s.extension = (.ok found, w) ∧
      xs = found.map (Identifier.shift s.offset) ∧ d' = { d with world := w } := by
  unfold identifiers at h
  obtain ⟨_, _, hget, h⟩ := exec_bind_ok.mp h
  cases hget
  dsimp only at h
  obtain ⟨_, _, hset, h⟩ := exec_bind_ok.mp h
  cases hset
  obtain ⟨found, _, hfound, h⟩ := exec_bind_ok.mp h
  obtain ⟨hok, rfl⟩ := Prod.mk.inj ((exec_ofExcept _ _).symm.trans hfound)
  cases h
  exact ⟨found, _, Prod.ext hok rfl, rfl, rfl⟩

theorem exec_run_of_read_error (job : Job) {start : Plan} {e : Failure}
    (h : start.read job.vocabulary job.root job.code = .error e) (d : Draft) :
    exec (run job start) d = (.error e, d) := by
  unfold run
  rw [exec_bind, exec_ofExcept, h]

/-- The stages of a run that succeeds. -/
theorem run_ok {job : Job} {start : Plan} {d d' : Draft} {r : Result}
    (h : exec (run job start) d = (.ok r, d')) :
    ∃ plan tags d₁ d₂ d₃ shown final,
      start.read job.vocabulary job.root job.code = .ok (plan, tags) ∧
      exec (populate job plan) { d with notes := d.notes ++ tags } = (.ok (), d₁) ∧
      exec (diagnose job plan) d₁ = (.ok (), d₂) ∧
      exec (emit job plan) d₂ = (.ok (shown, final), d₃) ∧
      exec (finish final shown) d₃ = (.ok r, d') := by
  unfold run at h
  obtain ⟨⟨plan, tags⟩, d₀, hread, h⟩ := exec_bind_ok.mp h
  obtain ⟨hplan, rfl⟩ := Prod.mk.inj ((exec_ofExcept _ d).symm.trans hread)
  obtain ⟨_, _, htags, h⟩ := exec_bind_ok.mp h
  obtain ⟨-, rfl⟩ := Prod.mk.inj ((exec_addNotes tags d).symm.trans htags)
  obtain ⟨_, d₁, hpopulate, h⟩ := exec_bind_ok.mp h
  obtain ⟨_, d₂, hdiagnose, h⟩ := exec_bind_ok.mp h
  obtain ⟨⟨shown, final⟩, d₃, hemit, hfinish⟩ := exec_bind_ok.mp h
  exact ⟨plan, tags, d₁, d₂, d₃, shown, final, hplan, hpopulate, hdiagnose, hemit, hfinish⟩

theorem finish_ok {plan : Plan} {code : List Char} {d d' : Draft} {r : Result}
    (h : exec (finish plan code) d = (.ok r, d')) :
    (plan.behaviour.keepNotations = true ∧ r = ⟨code, Note.resolveAll code d.notes, plan⟩) ∨
      (plan.behaviour.keepNotations = false ∧
        r = ⟨Span.eraseText code plan.removals,
          Note.resolveAll (Span.eraseText code plan.removals)
            (d.notes.map fun n => (anchor plan n).erase plan.removals),
          { plan with removals := Span.mergeDescending plan.removals }⟩) := by
  unfold finish at h
  cases hkeep : plan.behaviour.keepNotations with
  | true =>
    rw [hkeep] at h
    exact Or.inl ⟨rfl, (Except.ok.inj (Prod.mk.inj h).1).symm⟩
  | false =>
    rw [hkeep] at h
    exact Or.inr ⟨rfl, (Except.ok.inj (Prod.mk.inj h).1).symm⟩

theorem finish_plan {plan : Plan} {code : List Char} {d d' : Draft} {r : Result}
    (h : exec (finish plan code) d = (.ok r, d')) :
    ∃ removals, r.plan = { plan with removals } := by
  rcases finish_ok h with ⟨-, rfl⟩ | ⟨-, rfl⟩
  · exact ⟨plan.removals, rfl⟩
  · exact ⟨Span.mergeDescending plan.removals, rfl⟩

theorem emit_of_not_showEmit {job : Job} {plan : Plan} (h : plan.behaviour.showEmit = false)
    (d : Draft) : exec (emit job plan) d = (.ok (job.code, plan), d) := by
  unfold emit
  rw [h]
  rfl

theorem showOutput_ok {job : Job} {plan final : Plan} {shown : List Char} {d d' : Draft}
    (h : exec (showOutput job plan) d = (.ok (shown, final), d')) :
    ∃ source outputs output d₁ d₂,
      exec (updateFiles job plan) d = (.ok (), d₁) ∧
      sourceFor? plan (shownName plan) = some source ∧
      exec (perform job plan (.emit (job.root ++ source))) d₁ = (.ok outputs, d₂) ∧
      output ∈ outputs ∧ shown = output.text ∧ d'.notes = [] ∧
      final = { plan with extension := Language.extensionOf output.name, removals := [] } := by
  unfold showOutput at h
  obtain ⟨_, d₁, hupdate, h⟩ := exec_bind_ok.mp h
  dsimp only at h
  cases hsource : sourceFor? plan (shownName plan) with
  | none =>
    rw [hsource] at h
    cases (Prod.mk.inj h).1
  | some source =>
    rw [hsource] at h
    obtain ⟨outputs, d₂, hperform, h⟩ := exec_bind_ok.mp h
    split at h
    · cases (Prod.mk.inj h).1
    · next output hfind =>
      obtain ⟨hvalue, rfl⟩ := Prod.mk.inj h
      obtain ⟨rfl, rfl⟩ := Prod.mk.inj (Except.ok.inj hvalue)
      exact ⟨source, outputs, output, d₁, d₂, hupdate, rfl, hperform,
        List.mem_of_find?_eq_some hfind, rfl, rfl, rfl⟩

theorem emit_plan {job : Job} {plan final : Plan} {shown : List Char} {d d' : Draft}
    (h : exec (emit job plan) d = (.ok (shown, final), d')) :
    ∃ extension removals, final = { plan with extension, removals } := by
  unfold emit at h
  split at h
  · obtain ⟨_, _, output, _, _, -, -, -, -, -, -, rfl⟩ := showOutput_ok h
    exact ⟨Language.extensionOf output.name, [], rfl⟩
  · obtain ⟨-, rfl⟩ := Prod.mk.inj (Except.ok.inj (Prod.mk.inj h).1)
    exact ⟨plan.extension, plan.removals, rfl⟩

theorem result_plan {job : Job} {plan final : Plan} {shown : List Char} {d d₁ d₂ : Draft}
    {r : Result} (hshown : exec (emit job plan) d = (.ok (shown, final), d₁))
    (hfinish : exec (finish final shown) d₁ = (.ok r, d₂)) :
    ∃ extension removals, r.plan = { plan with extension, removals } := by
  obtain ⟨extension, _, rfl⟩ := emit_plan hshown
  obtain ⟨removals, hlast⟩ := finish_plan hfinish
  exact ⟨extension, removals, hlast⟩

end Work

end Marginalia
