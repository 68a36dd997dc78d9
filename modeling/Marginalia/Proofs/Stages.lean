import Marginalia.Proofs.Target

/-!
# Rules for the stages of a run

A stage calls the checker, adds notes and reports, and it can fail in a few ways of its own.  A
property of states that looks neither at notes nor at reports is therefore kept by a stage when it
is kept by the calls of the stage.  The rules below leave open which property this is, and what is
to be shown of a failure.
-/

namespace Marginalia.Work
set_option autoImplicit false

structure Loose (I : Draft → Prop) : Prop where
  notes : ∀ d notes, I d → I { d with notes }
  events : ∀ d events, I d → I { d with world := { d.world with events } }
  hoverCalls : ∀ d hoverCalls, I d → I { d with world := { d.world with hoverCalls } }

/-- What it takes to keep a property while the notes of a section are collected: information is
asked for at indices of one kind, completions inside the section, and a marker may be left without
an answer. -/
structure Collects (job : Job) (plan : Plan) (s : Section) (A : Int → Prop) (I : Draft → Prop)
    (E : Failure → Draft → Prop) : Prop where
  loose : Loose I
  info : ∀ i, A i → Meets I (quickInfo job plan s i) (fun _ => I) E
  completions : ∀ i, s.contains i = true →
    Meets I (perform job plan (.completions s.path (i - s.offset))) (fun _ => I) E
  unresolved : ∀ kind line d, I d → E (.unresolvedMarker kind line s.filename) d

/-- What it takes to keep a property while the emitted text is looked for: files of the run are
brought up to date, outputs are asked for, and the source or its output may be missing. -/
structure Emits (job : Job) (plan : Plan) (I : Draft → Prop) (E : Failure → Draft → Prop) :
    Prop where
  loose : Loose I
  update : ∀ s : Section, Meets (fun d => I d ∧ d.registered.contains s.path = true)
    (perform job plan (.update s.path s.content)) (fun _ => I) E
  emit : ∀ path, Meets I (perform job plan (.emit path)) (fun _ => I) E
  missingSource : ∀ shown files d, I d → E (.missingSource shown files) d
  missingOutput : ∀ shown path outputs d, I d → E (.missingOutput shown path outputs) d

namespace Meets
variable {α β : Type} {I : Draft → Prop} {E : Failure → Draft → Prop}

theorem mapM_keeps {f : β → Work α} {xs : List β} (h : ∀ x ∈ xs, Meets I (f x) (fun _ => I) E) :
    Meets I (xs.mapM f) (fun _ => I) E := by
  have hall : Meets I (xs.mapM f) (fun as d => I d ∧ ∀ a ∈ as, True) E :=
    mapM fun x hx => (h x hx).mono (fun _ hd => hd) fun _ _ hd => ⟨hd, trivial⟩
  exact hall.mono (fun _ hd => hd) fun _ _ hd => hd.1

theorem filterMapM_keeps {f : β → Work (Option α)} {xs : List β}
    (h : ∀ x ∈ xs, Meets I (f x) (fun _ => I) E) : Meets I (xs.filterMapM f) (fun _ => I) E := by
  have hall : Meets I (xs.filterMapM f) (fun as d => I d ∧ ∀ a ∈ as, True) E :=
    filterMapM fun x hx => (h x hx).mono (fun _ hd => hd) fun _ _ hd => ⟨hd, fun _ _ => trivial⟩
  exact hall.mono (fun _ hd => hd) fun _ _ hd => hd.1

theorem of_get {P : Draft → Prop} {Q : α → Draft → Prop} {f : Draft → Work α}
    (h : ∀ d₀, Meets (fun d => P d ∧ d = d₀) (f d₀) Q E) : Meets P (get >>= f) Q E := by
  intro d hd
  have hget : exec (get : Work Draft) d = (.ok d, d) := rfl
  rw [exec_bind, hget]
  exact h d d ⟨hd, rfl⟩

theorem keep {a : α} : Meets I (pure a) (fun _ => I) E := of_pure fun _ hd => hd

theorem adding (hI : Loose I) {m : Work (List Note)} {f : Unit → Work α} (hm : Meets I m (fun _ => I) E)
    (hf : ∀ u, Meets I (f u) (fun _ => I) E) :
    Meets I (m >>= fun notes => addNotes notes >>= f) (fun _ => I) E := by
  refine bind hm fun notes => ?_
  exact bind (Q := fun _ => I) (of_modify fun d hd => hI.notes d _ hd) hf

end Meets

namespace Collects
variable {job : Job} {plan : Plan} {s : Section} {A : Int → Prop} {I : Draft → Prop}
  {E : Failure → Draft → Prop} (h : Collects job plan s A I E)
include h

theorem isWanted (x : Identifier) : Meets I (isWanted job s x) (fun _ => I) E := by
  unfold Work.isWanted
  split
  · exact Meets.keep
  · refine Meets.bind (Q := fun _ => I) (Meets.of_modify fun d hd => ?_) fun _ => Meets.keep
    exact h.loose.hoverCalls d _ hd

theorem hover {x : Identifier} (hx : A x.span.start) :
    Meets I (hover? job plan s x) (fun _ => I) E := by
  unfold hover?
  split
  · exact Meets.keep
  refine Meets.bind (h.isWanted x) fun wanted => ?_
  split
  · exact Meets.keep
  refine Meets.bind (h.info x.span.start hx) fun found => ?_
  split <;> exact Meets.keep

theorem query {i : Int} (hi : A i) (xs : List Identifier) :
    Meets I (query job plan s xs i) (fun _ => I) E := by
  unfold Work.query
  split
  · exact Meets.of_throw fun d hd => h.unresolved _ _ d hd
  refine Meets.bind (h.info i hi) fun found => ?_
  split
  · exact Meets.of_throw fun d hd => h.unresolved _ _ d hd
  · exact Meets.keep

theorem highlight {xs : List Identifier} (hxs : ∀ x ∈ xs, A x.span.start) (t : Highlight) :
    Meets I (highlight job plan s xs t) (fun _ => I) E := by
  unfold Work.highlight
  refine Meets.bind (Meets.filterMapM_keeps fun x hx => ?_) fun notes => ?_
  · unfold highlighted?
    split
    · exact Meets.keep
    refine Meets.bind (h.info x.span.start (hxs x hx)) fun found => ?_
    split <;> exact Meets.keep
  · dsimp only
    split
    · refine Meets.bind (Q := fun _ => I) ?_ fun _ => Meets.keep
      exact Meets.of_throw fun d hd => h.unresolved _ _ d hd
    · exact Meets.keep

theorem completion {i : Int} (hi : s.contains i = true) :
    Meets I (completion? job plan s i) (fun _ => I) E := by
  unfold completion?
  split
  · exact Meets.keep
  refine Meets.bind (h.completions i hi) fun offered => ?_
  dsimp only
  split
  · refine Meets.bind (Q := fun _ => I) ?_ fun _ => Meets.keep
    exact Meets.of_throw fun d hd => h.unresolved _ _ d hd
  · exact Meets.keep

theorem collectFrom {xs : List Identifier} (hxs : ∀ x ∈ xs, A x.span.start)
    (hs : ∀ i, s.contains i = true → A i) :
    Meets I (collectFrom job plan s xs) (fun _ => I) E := by
  have hrest : Meets I (do
      addNotes (← (plan.asked.queries.filter s.contains).mapM (Work.query job plan s xs))
      (plan.asked.highlights.filter fun t => s.contains t.span.start).forM fun t => do
        addNotes (← Work.highlight job plan s xs t)
      addNotes (← (plan.asked.completions.filter s.contains).filterMapM (completion? job plan s)))
      (fun _ => I) E := by
    refine Meets.adding h.loose (Meets.mapM_keeps fun i hi => ?_) fun _ => ?_
    · exact h.query (hs i (List.mem_filter.mp hi).2) xs
    refine Meets.bind (@Meets.forM _ _ (fun _ => I) _ _ fun t _ _ => ?_) fun _ => ?_
    · exact Meets.bind (h.highlight hxs t) fun notes =>
        Meets.of_modify fun d hd => h.loose.notes d _ hd
    · refine Meets.bind (Meets.filterMapM_keeps fun i hi => ?_) fun notes =>
        Meets.of_modify fun d hd => h.loose.notes d _ hd
      exact h.completion (List.mem_filter.mp hi).2
  unfold Work.collectFrom
  dsimp only
  split
  · exact Meets.adding h.loose (Meets.filterMapM_keeps fun x hx => h.hover (hxs x hx)) fun _ => hrest
  · exact hrest

end Collects

namespace Emits
variable {job : Job} {plan : Plan} {I : Draft → Prop} {E : Failure → Draft → Prop}
  (h : Emits job plan I E)
include h

theorem updateFiles : Meets I (updateFiles job plan) (fun _ => I) E := by
  unfold Work.updateFiles
  refine @Meets.forM _ _ (fun _ => I) _ _ fun s _ _ => Meets.of_get fun d₀ => ?_
  split
  · next hregistered =>
    refine (h.update s).mono ?_ fun _ _ hd => hd
    rintro d ⟨hd, rfl⟩
    exact ⟨hd, hregistered⟩
  · exact Meets.of_pure fun d hd => hd.1

theorem showOutput : Meets I (showOutput job plan) (fun _ => I) E := by
  unfold Work.showOutput
  refine Meets.bind h.updateFiles fun _ => ?_
  dsimp only
  split
  · exact Meets.of_throw fun d hd => h.missingSource _ _ d hd
  refine Meets.bind (h.emit _) fun outputs => ?_
  split
  · exact Meets.of_throw fun d hd => h.missingOutput _ _ _ d hd
  refine Meets.bind (Q := fun _ => I) (Meets.of_modify fun d hd => h.loose.events d _ hd) fun _ => ?_
  refine Meets.bind (Q := fun _ => I) (Meets.of_modify fun d hd => h.loose.notes d _ hd) fun _ => ?_
  exact Meets.keep

theorem shown : Meets I (Work.emit job plan) (fun _ => I) E := by
  unfold Work.emit
  split
  · exact h.showOutput
  · exact Meets.keep

end Emits

theorem Loose.finish {I : Draft → Prop} (hI : Loose I) {E : Failure → Draft → Prop} (plan : Plan)
    (text : List Char) : Meets I (finish plan text) (fun _ => I) E := by
  intro d hd
  unfold Work.finish
  cases plan.behaviour.keepNotations with
  | true => exact hd
  | false => exact hI.events _ _ (hI.notes d _ hd)

/-- A run whose sample has been read goes from stage to stage. -/
theorem Meets.run {job : Job} {start plan : Plan} {tags : List Note} {P I : Draft → Prop}
    {E : Failure → Draft → Prop}
    (hread : start.read job.vocabulary job.root job.code = .ok (plan, tags)) (hP : Loose P)
    (hpopulate : Meets P (populate job plan) (fun _ => I) E)
    (hdiagnose : Meets I (Work.diagnose job plan) (fun _ => I) E) (hI : Emits job plan I E) :
    Meets P (Work.run job start) (fun _ => I) E := by
  unfold Work.run
  rw [hread]
  refine Meets.bind (Q := fun x d => P d ∧ x = (plan, tags)) (fun d hd => ⟨hd, rfl⟩) fun x => ?_
  refine Meets.of_and fun hx => ?_
  rw [hx]
  refine Meets.bind (Q := fun _ => P) (Meets.of_modify fun d hd => hP.notes d _ hd) fun _ => ?_
  refine Meets.bind hpopulate fun _ => Meets.bind hdiagnose fun _ => ?_
  exact Meets.bind hI.shown fun x => hI.loose.finish x.2 x.1

end Marginalia.Work
