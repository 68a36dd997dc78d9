import Marginalia.Proofs.Journal

/-!
# When a run needs a checker

A run asks for its checker with the first call that it makes.  It makes one as soon as it has a file
to register; without any, only if it shows the output of a file.  A run that needs no checker leaves
the checkers and the caches alone, whether it succeeds or fails.  A run that needs one is given that
which the world has for its options at the start, keeps it to its end, and fails with the reason if
there is none to be had.
-/

namespace Marginalia
set_option autoImplicit false

/-- The run has a file to register, or the output of one to show. -/
def Plan.demands (p : Plan) : Bool :=
  !p.taken.isEmpty ||
    (p.behaviour.showEmit && (Work.sourceFor? p (Work.shownName p)).isSome)

theorem World.acquire_congr {w w' : World} (hcheckers : w'.checkers = w.checkers)
    (hcaches : w'.caches = w.caches) (slot : Option Nat) (script : Checker.Script)
    (options : Entries) :
    (w'.acquire slot script options).1 = (w.acquire slot script options).1 ∧
      (w'.acquire slot script options).2.checkers = (w.acquire slot script options).2.checkers ∧
      (w'.acquire slot script options).2.caches = (w.acquire slot script options).2.caches := by
  have hcache : ∀ k, w'.cache k = w.cache k := by
    intro k
    unfold cache
    rw [hcaches]
  cases slot with
  | none =>
    unfold acquire
    dsimp only
    cases Checker.ofScript script options with
    | error e => exact ⟨rfl, hcheckers, hcaches⟩
    | ok c => exact ⟨by rw [hcheckers], congrArg (· ++ [c]) hcheckers, hcaches⟩
  | some k =>
    cases hfind : (w.cache k).find? (optionsKey options) with
    | some n =>
      have hcached : w.cached? (some k) options = some n := hfind
      have hcached' : w'.cached? (some k) options = some n := by
        rw [← hfind, ← hcache k]
        rfl
      rw [acquire_of_cached hcached, acquire_of_cached hcached']
      exact ⟨rfl, hcheckers, hcaches⟩
    | none =>
      have hfind' : (w'.cache k).find? (optionsKey options) = none := (hcache k).symm ▸ hfind
      cases hscript : Checker.ofScript script options with
      | error e =>
        rw [acquire_some_of_error hfind hscript, acquire_some_of_error hfind' hscript]
        exact ⟨rfl, hcheckers, hcaches⟩
      | ok c =>
        rw [acquire_some_of_ok hfind hscript, acquire_some_of_ok hfind' hscript]
        refine ⟨by rw [hcheckers], congrArg (· ++ [c]) hcheckers, ?_⟩
        have hadded : ∀ (v : World) (e : Event) (hkey : c.KeyedBy (optionsKey options)),
            ((v.report e).enrolIn k (optionsKey options) c hkey).caches =
              (k, (v.cache k).add (optionsKey options) v.checkers.length) ::
                v.caches.filter (·.1 != k) := fun _ _ _ => rfl
        dsimp only
        rw [hadded, hadded, hcache k, hcheckers, hcaches]

namespace Work
variable {job : Job} {plan : Plan} {w : World} {d d' : Draft}

theorem Meets.weaken {α : Type} {P : Draft → Prop} {m : Work α} {Q : α → Draft → Prop}
    {E E' : Failure → Draft → Prop} (h : Meets P m Q E) (hE : ∀ e d, E e d → E' e d) :
    Meets P m Q E' := by
  intro d hd
  have hmeets := h d hd
  rcases hm : exec m d with ⟨e | a, d'⟩
  · rw [hm] at hmeets
    exact hE e d' hmeets
  · rw [hm] at hmeets
    exact hmeets

theorem Meets.of_left {α : Type} {P Q : Draft → Prop} {m : Work α} {E : Failure → Draft → Prop}
    (h : ∀ d, P d → Q (exec m d).2) (hE : ∀ e d, Q d → E e d) : Meets P m (fun _ => Q) E := by
  intro d hd
  have hleft := h d hd
  rcases hm : exec m d with ⟨e | a, d'⟩
  · rw [hm] at hleft
    exact hE e d' hleft
  · rw [hm] at hleft
    exact hleft

theorem Meets.left {α : Type} {P Q : Draft → Prop} {m : Work α}
    (h : Meets P m (fun _ => Q) fun _ => Q) {d : Draft} (hd : P d) : Q (exec m d).2 := by
  have hmeets := h d hd
  rcases hm : exec m d with ⟨e | a, d'⟩
  · rw [hm] at hmeets
    exact hmeets
  · rw [hm] at hmeets
    exact hmeets

/-- The run has made no call since it started in the world `w`. -/
structure Idle (w : World) (d : Draft) : Prop where
  checker : d.checker = none
  checkers : d.world.checkers = w.checkers
  caches : d.world.caches = w.caches
  registered : d.registered = []

/-- The run has the checker that the world `w` gives for its options, and it has built no other. -/
def Engaged (job : Job) (plan : Plan) (w : World) (d : Draft) : Prop :=
  ∃ n w₁, w.acquire job.slot job.script plan.options = (.ok n, w₁) ∧ d.checker = some n ∧
    d.world.checkers.length = w₁.checkers.length ∧ d.world.caches = w₁.caches

def Refused (job : Job) (plan : Plan) (w : World) (e : Failure) (d : Draft) : Prop :=
  Engaged job plan w d ∨ Idle w d ∧ w.cached? job.slot plan.options = none ∧
    Checker.ofScript job.script plan.options = .error e

theorem idle_start (w : World) : Idle w { world := w } := ⟨rfl, rfl, rfl, rfl⟩

theorem loose_idle (w : World) : Loose (Idle w) where
  notes _ _ h := ⟨h.checker, h.checkers, h.caches, h.registered⟩
  events _ _ h := ⟨h.checker, h.checkers, h.caches, h.registered⟩
  hoverCalls _ _ h := ⟨h.checker, h.checkers, h.caches, h.registered⟩

theorem loose_engaged : Loose (Engaged job plan w) where
  notes _ _ h := h
  events _ _ h := h
  hoverCalls _ _ h := h

theorem meets_engaged (call : Checker.Call) :
    Meets (Engaged job plan w) (perform job plan call) (fun _ => Engaged job plan w)
      (Refused job plan w) := by
  apply Meets.of_left
  · rintro d ⟨n, w₁, hacquire, hnumber, hlength, hcaches⟩
    have hreach : Reaches job plan d n d.world := Or.inl ⟨hnumber, rfl⟩
    rw [hreach.exec_perform call]
    exact ⟨n, w₁, hacquire, rfl, (List.length_set ..).trans hlength, hcaches⟩
  · exact fun _ _ hd => Or.inl hd

theorem meets_idle (call : Checker.Call) :
    Meets (Idle w) (perform job plan call) (fun _ => Engaged job plan w) (Refused job plan w) := by
  intro d hd
  rcases reaches_or_fails job plan d with ⟨n, w', hreach⟩ | ⟨e, hserves⟩
  · obtain ⟨hfound, hcheckers, hcaches⟩ :=
      World.acquire_congr hd.checkers hd.caches job.slot job.script plan.options
    have hacquire := (hreach.resolve_left fun h => by cases hd.checker.symm.trans h.1).2
    rw [hacquire] at hfound hcheckers hcaches
    have hengaged : Engaged job plan w (exec (perform job plan call) d).2 := by
      rw [hreach.exec_perform call]
      refine ⟨n, (w.acquire job.slot job.script plan.options).2, ?_, rfl, ?_, hcaches⟩
      · exact Prod.ext hfound.symm rfl
      · exact (List.length_set ..).trans (congrArg List.length hcheckers)
    exact Meets.of_left (P := (· = d)) (fun _ h => h ▸ hengaged) (fun _ _ hd => Or.inl hd) d rfl
  · obtain ⟨d', hrun, hnumber, hsame, hkept, -, hregistered⟩ := hserves.exec_perform_error call
    obtain ⟨-, hcached, hscript⟩ := hserves
    rw [hrun]
    refine Or.inr ⟨⟨?_, ?_, ?_, ?_⟩, ?_, hscript⟩
    · exact hnumber.trans hd.checker
    · exact hsame.trans hd.checkers
    · exact hkept.trans hd.caches
    · exact hregistered.trans hd.registered
    · unfold World.cached? World.cache at *
      rw [← hd.caches]
      exact hcached

/-! ## A file to register -/

theorem engaged_collect (s : Section) :
    Meets (Engaged job plan w) (collect job plan s) (fun _ => Engaged job plan w)
      (Refused job plan w) := by
  have hcalls : Collects job plan s (fun _ => True) (Engaged job plan w) (Refused job plan w) :=
    { loose := loose_engaged
      info := fun _ _ => meets_engaged _
      completions := fun _ _ => meets_engaged _
      unresolved := fun _ _ _ hd => Or.inl hd }
  rw [collect_eq]
  refine Meets.bind (Q := fun _ => Engaged job plan w) ?_ fun xs =>
    hcalls.collectFrom (fun _ _ => trivial) fun _ _ => trivial
  split
  · intro d hd
    rw [exec_identifiers]
    cases (s.read d.world.trees).1 with
    | error e => exact Or.inl hd
    | ok xs => exact hd
  · exact Meets.keep

theorem engaged_section {P : Draft → Prop} {s : Section}
    (hcreate : Meets P (perform job plan (.create s.path s.content)) (fun _ => Engaged job plan w)
      (Refused job plan w)) :
    Meets P (do
        register job plan s
        if !plan.behaviour.showEmit then collect job plan s)
      (fun _ => Engaged job plan w) (Refused job plan w) := by
  have hregister : Meets P (register job plan s) (fun _ => Engaged job plan w)
      (Refused job plan w) := by
    unfold register
    exact Meets.bind hcreate fun _ => Meets.of_modify fun d hd => hd
  refine Meets.bind hregister fun _ => ?_
  split
  · exact engaged_collect s
  · exact Meets.keep

theorem engaged_populate (htaken : plan.taken ≠ []) :
    Meets (Idle w) (populate job plan) (fun _ => Engaged job plan w) (Refused job plan w) := by
  obtain ⟨s, rest, hsections⟩ := List.exists_cons_of_ne_nil htaken
  have hfiltered : plan.sections.filter plan.registers = s :: rest := hsections
  unfold populate
  rw [hfiltered]
  refine Meets.bind (engaged_section (meets_idle _)) fun _ => ?_
  exact @Meets.forM _ _ (fun _ => Engaged job plan w) _ _ fun s _ _ =>
    engaged_section (meets_engaged _)

theorem engaged_diagnose :
    Meets (Engaged job plan w) (diagnose job plan) (fun _ => Engaged job plan w)
      (Refused job plan w) := by
  apply Meets.diagnose (R := fun _ => True)
  · exact fun s _ _ => meets_engaged _
  · exact fun _ _ _ _ => trivial
  · exact fun d found keep hd _ => hd
  · exact fun d e hd => hd
  · exact fun _ _ _ _ d hd => Or.inl hd

theorem engaged_emits : Emits job plan (Engaged job plan w) (Refused job plan w) where
  loose := loose_engaged
  update _ := (meets_engaged _).mono (fun _ hd => hd.1) fun _ _ hd => hd
  emit _ := meets_engaged _
  missingSource _ _ _ hd := Or.inl hd
  missingOutput _ _ _ _ hd := Or.inl hd

/-! ## No file to register -/

section Bare
variable (hbare : plan.taken = [])
include hbare

theorem populate_of_bare : populate job plan = pure () := by
  have hfiltered : plan.sections.filter plan.registers = [] := hbare
  unfold populate
  rw [hfiltered]
  rfl

theorem idle_diagnose : Meets (Idle w) (diagnose job plan) (fun _ => Idle w) fun _ _ => False := by
  -- Without a registered file no error is found, so none is undeclared.
  have hsources : plan.sections.filter (fun s => Language.isSource s.extension) = [] := by
    apply List.filter_eq_nil_iff.mpr
    intro s hs hsource
    have htaken : s ∈ plan.taken := List.mem_filter.mpr ⟨hs, Plan.registers_of_isSource hsource⟩
    rw [hbare] at htaken
    cases htaken
  have hnotes : errorNotes job plan = pure [] := by
    unfold errorNotes
    split
    · rfl
    · dsimp only
      rw [hsources, List.mapM_nil]
      rfl
  have hcheck : ∀ codes root,
      Meets (Idle w) (expect codes root []) (fun _ => Idle w) fun _ _ => False := by
    intro codes root
    have hpasses : Meets (Idle w) (ofExcept (Expectation.check codes root []))
        (fun _ => Idle w) fun _ _ => False := Meets.of_pure fun d hd => hd
    unfold expect
    dsimp only
    split
    · refine Meets.bind (Q := fun _ => Idle w) ?_ fun _ => hpasses
      exact Meets.of_modify fun d hd => (loose_idle w).events d _ hd
    · exact hpasses
  unfold diagnose
  rw [hnotes]
  refine Meets.bind (Q := fun found d => Idle w d ∧ found = []) (fun d hd => ⟨hd, rfl⟩) ?_
  intro found
  refine Meets.of_and fun hfound => ?_
  rw [hfound]
  refine Meets.bind (Q := fun _ => Idle w) ?_ fun _ => ?_
  · exact Meets.of_modify fun d hd => (loose_idle w).notes d _ hd
  · split
    · exact hcheck _ _
    · exact Meets.keep

omit hbare in
theorem idle_updateFiles : Meets (Idle w) (updateFiles job plan) (fun _ => Idle w) fun _ _ => False := by
  unfold updateFiles
  refine @Meets.forM _ _ (fun _ => Idle w) _ _ fun s _ _ => Meets.of_get fun d₀ => ?_
  split
  · next hregistered =>
    intro d ⟨hd, hsame⟩
    rw [← hsame, hd.registered] at hregistered
    cases hregistered
  · exact Meets.of_pure fun d hd => hd.1

theorem idle_run {start : Plan} {tags : List Note} {Q : Draft → Prop} {E : Failure → Draft → Prop}
    (hread : start.read job.vocabulary job.root job.code = .ok (plan, tags)) (hQ : Loose Q)
    (hemit : Meets (Idle w) (emit job plan) (fun _ => Q) E) :
    Meets (Idle w) (run job start) (fun _ => Q) E := by
  unfold run
  rw [hread]
  refine Meets.bind (Q := fun x d => Idle w d ∧ x = (plan, tags)) (fun d hd => ⟨hd, rfl⟩) fun x => ?_
  refine Meets.of_and fun hx => ?_
  rw [hx]
  refine Meets.bind (Q := fun _ => Idle w) ?_ fun _ => ?_
  · exact Meets.of_modify fun d hd => (loose_idle w).notes d _ hd
  rw [populate_of_bare hbare]
  refine Meets.bind (Q := fun _ => Idle w) Meets.keep fun _ => ?_
  refine Meets.bind ((idle_diagnose hbare).weaken fun _ _ h => h.elim) fun _ => ?_
  exact Meets.bind hemit fun x => hQ.finish x.2 x.1

end Bare

theorem emit_source {source : String} (hemit : plan.behaviour.showEmit = true)
    (hsource : sourceFor? plan (shownName plan) = some source) :
    Meets (Idle w) (emit job plan) (fun _ => Engaged job plan w) (Refused job plan w) := by
  unfold emit showOutput
  rw [if_pos hemit]
  refine Meets.bind (idle_updateFiles.weaken fun _ _ h => h.elim) fun _ => ?_
  dsimp only
  rw [hsource]
  dsimp only
  refine Meets.bind (meets_idle _) fun outputs => ?_
  split
  · exact Meets.of_throw fun d hd => Or.inl hd
  · refine Meets.bind (Q := fun _ => Engaged job plan w) (Meets.of_modify fun d hd => hd) fun _ => ?_
    refine Meets.bind (Q := fun _ => Engaged job plan w) (Meets.of_modify fun d hd => hd) fun _ => ?_
    exact Meets.keep

theorem emit_idle (h : plan.behaviour.showEmit = true → sourceFor? plan (shownName plan) = none) :
    Meets (Idle w) (emit job plan) (fun _ => Idle w) fun _ => Idle w := by
  unfold emit
  split
  · next hemit =>
    unfold showOutput
    refine Meets.bind (idle_updateFiles.weaken fun _ _ h => h.elim) fun _ => ?_
    dsimp only
    rw [h hemit]
    exact Meets.of_throw fun d hd => hd
  · exact Meets.keep

section Run
variable (job) {start : Plan} {tags : List Note}
  (hread : start.read job.vocabulary job.root job.code = .ok (plan, tags))
include hread

theorem run_of_demands (h : plan.demands = true) :
    Meets (Idle w) (run job start) (fun _ => Engaged job plan w) (Refused job plan w) := by
  unfold Plan.demands at h
  rw [Bool.or_eq_true, Bool.not_eq_true', Bool.and_eq_true] at h
  by_cases hbare : plan.taken = []
  · rw [hbare] at h
    obtain ⟨hemit, hsource⟩ := h.resolve_left fun h => by cases h
    obtain ⟨source, hsource⟩ := Option.isSome_iff_exists.mp hsource
    exact idle_run hbare hread loose_engaged (emit_source hemit hsource)
  · exact Meets.run hread (loose_idle w) (engaged_populate hbare) engaged_diagnose engaged_emits

theorem run_of_not_demands (h : plan.demands = false) :
    Meets (Idle w) (run job start) (fun _ => Idle w) fun _ => Idle w := by
  unfold Plan.demands at h
  obtain ⟨hbare, hsource⟩ := Bool.or_eq_false_iff.mp h
  have hbare : plan.taken = [] := List.isEmpty_iff.mp ((Bool.not_eq_false' _).mp hbare)
  refine idle_run hbare hread (loose_idle w) (emit_idle fun hemit => ?_)
  rw [hemit, Bool.true_and] at hsource
  exact Option.not_isSome_iff_eq_none.mp (Bool.not_eq_true _ ▸ hsource)

end Run

end Work

namespace Annotator
variable {a : Annotator} {q : Request} {w : World} {options : Entries}

/-- The options of the checker that a call needs, if it needs one. -/
def demanded? (a : Annotator) (q : Request) : Option Entries :=
  match a.reading q with
  | .ok (plan, _) => if plan.demands then some plan.options else none
  | .error _ => none

def draft (a : Annotator) (q : Request) (w : World) : Draft :=
  match a.plan q with
  | .error _ => { world := w }
  | .ok start => (Work.exec (Work.run (a.job q) start) { world := w }).2

/-- The number of the checker that a call has worked with. -/
def used? (a : Annotator) (q : Request) (w : World) : Option Nat := (a.draft q w).checker

theorem world_draft (a : Annotator) (q : Request) (w : World) :
    (a.draft q w).world = (a.annotate q w).2 := by
  unfold draft annotate
  cases a.plan q <;> rfl

/-- A call that needs no checker, be it that it cannot be read, has none and builds none. -/
theorem idle_of_demanded_none (h : a.demanded? q = none) (w : World) :
    Work.Idle w (a.draft q w) := by
  unfold demanded? reading at h
  unfold draft
  cases hplan : a.plan q with
  | error e => exact Work.idle_start w
  | ok start =>
    rw [hplan, Outcome.ok_bind] at h
    dsimp only
    cases hread : start.read (a.job q).vocabulary a.root q.code with
    | error e =>
      rw [Work.exec_run_of_read_error (a.job q) hread]
      exact Work.idle_start w
    | ok x =>
      obtain ⟨plan, tags⟩ := x
      rw [hread] at h
      have hdemands : plan.demands = false := by
        cases hdemands : plan.demands with
        | false => rfl
        | true =>
          dsimp only at h
          rw [hdemands] at h
          cases h
      exact (Work.run_of_not_demands (a.job q) hread hdemands).left (Work.idle_start w)

/-- A call that needs a checker works with the one that the world has for its options.  If there is
none, the call fails with the reason. -/
theorem engaged_of_demanded (h : a.demanded? q = some options) (w : World) :
    (∃ n w₁, w.acquire a.slot a.script options = (.ok n, w₁) ∧ a.used? q w = some n ∧
        (a.annotate q w).2.checkers.length = w₁.checkers.length ∧
        (a.annotate q w).2.caches = w₁.caches) ∨
      ∃ e, w.cached? a.slot options = none ∧ Checker.ofScript a.script options = .error e ∧
        (a.annotate q w).1 = .error e ∧ Work.Idle w (a.draft q w) := by
  rw [← world_draft]
  unfold demanded? reading at h
  unfold used? draft annotate
  cases hplan : a.plan q with
  | error e =>
    rw [hplan] at h
    cases h
  | ok start =>
    rw [hplan, Outcome.ok_bind] at h
    dsimp only
    cases hread : start.read (a.job q).vocabulary a.root q.code with
    | error e =>
      rw [hread] at h
      cases h
    | ok x =>
      obtain ⟨plan, tags⟩ := x
      rw [hread] at h
      dsimp only at h
      split at h
      · next hdemands =>
        cases h
        have hrun := Work.run_of_demands (a.job q) hread hdemands _ (Work.idle_start w)
        rcases hexec : Work.exec (Work.run (a.job q) start) { world := w } with ⟨e | r, d⟩
        · rw [hexec] at hrun
          rcases hrun with hengaged | ⟨hidle, hcached, hscript⟩
          · exact Or.inl hengaged
          · exact Or.inr ⟨e, hcached, hscript, rfl, hidle⟩
        · rw [hexec] at hrun
          exact Or.inl hrun
      · cases h

end Annotator

end Marginalia
