import Marginalia.Proofs.Emitted
import Marginalia.Proofs.Target

/-!
# Work with a known outcome

`Answers P m r Q E` says that from every state with `P` the work `m` has exactly the outcome `r`.
Success adds no notes and leads to `Q`, failure leads to `E`.  `Adds` is the same for work whose
only result is notes.  Nothing is said about the events, the journal and the questions that the
work leaves behind.

What a run will be told depends on three things only, its view: the checker that will serve it, the
trees that are still to be taken, and the paths it has registered.
-/

namespace Marginalia
set_option autoImplicit false

namespace Work

variable {α β : Type}

def Answers (P : Draft → Prop) (m : Work α) (r : Except Failure α) (Q E : Draft → Prop) : Prop :=
  ∀ d, P d → ∃ d', exec m d = (r, d') ∧
    match r with
    | .ok _ => Q d' ∧ d'.notes = d.notes
    | .error _ => E d'

def Adds (P : Draft → Prop) (m : Work Unit) (r : Except Failure (List Note)) (Q E : Draft → Prop) :
    Prop :=
  ∀ d, P d → ∃ d', exec m d = (r.map fun _ => (), d') ∧
    match r with
    | .ok notes => Q d' ∧ d'.notes = d.notes ++ notes
    | .error _ => E d'

section Rules
variable {P Q R E : Draft → Prop}

namespace Answers

theorem of_pure {a : α} (h : ∀ d, P d → Q d) : Answers P (pure a) (.ok a) Q E := by
  intro d hd
  exact ⟨d, rfl, h d hd, rfl⟩

theorem of_throw {e : Failure} (h : ∀ d, P d → E d) :
    Answers P (throw e : Work α) (.error e) Q E := by
  intro d hd
  exact ⟨d, rfl, h d hd⟩

theorem of_modify {f : Draft → Draft} (h : ∀ d, P d → Q (f d) ∧ (f d).notes = d.notes) :
    Answers P (modify f) (.ok ()) Q E := by
  intro d hd
  exact ⟨f d, rfl, h d hd⟩

theorem of_ofExcept {x : Except Failure α} (hok : ∀ d, P d → Q d) (herror : ∀ d, P d → E d) :
    Answers P (ofExcept x) x Q E := by
  intro d hd
  refine ⟨d, exec_ofExcept x d, ?_⟩
  cases x with
  | ok a => exact ⟨hok d hd, rfl⟩
  | error e => exact herror d hd

theorem bind {m : Work α} {f : α → Work β} {r : Except Failure α} {s : α → Except Failure β}
    (hm : Answers P m r Q E) (hf : ∀ a, Answers Q (f a) (s a) R E) :
    Answers P (m >>= f) (r >>= s) R E := by
  intro d hd
  obtain ⟨d₁, hrun, hafter⟩ := hm d hd
  cases r with
  | error e => exact ⟨d₁, by rw [exec_bind, hrun]; rfl, hafter⟩
  | ok a =>
    obtain ⟨d₂, hrest, hlast⟩ := hf a d₁ hafter.1
    refine ⟨d₂, by rw [exec_bind, hrun]; exact hrest, ?_⟩
    rw [Outcome.ok_bind]
    cases hs : s a with
    | error e =>
      rw [hs] at hlast
      exact hlast
    | ok b =>
      rw [hs] at hlast
      exact ⟨hlast.1, hlast.2.trans hafter.2⟩

theorem bind_ok {m : Work α} {f : α → Work β} {a : α} {s : Except Failure β}
    (hm : Answers P m (.ok a) Q E) (hf : Answers Q (f a) s R E) : Answers P (m >>= f) s R E := by
  intro d hd
  obtain ⟨d₁, hrun, hQ, hnotes⟩ := hm d hd
  obtain ⟨d₂, hrest, hlast⟩ := hf d₁ hQ
  refine ⟨d₂, by rw [exec_bind, hrun]; exact hrest, ?_⟩
  cases s with
  | error e => exact hlast
  | ok b => exact ⟨hlast.1, hlast.2.trans hnotes⟩

theorem mono {m : Work α} {r : Except Failure α} {P' Q' : Draft → Prop} (h : Answers P m r Q E)
    (hP : ∀ d, P' d → P d) (hQ : ∀ d, Q d → Q' d) : Answers P' m r Q' E := by
  intro d hd
  obtain ⟨d', hrun, hafter⟩ := h d (hP d hd)
  refine ⟨d', hrun, ?_⟩
  cases r with
  | error e => exact hafter
  | ok a => exact ⟨hQ d' hafter.1, hafter.2⟩

theorem mapM {f : β → Work α} {g : β → Except Failure α} {xs : List β}
    (h : ∀ x ∈ xs, Answers P (f x) (g x) P E) : Answers P (xs.mapM f) (xs.mapM g) P E := by
  induction xs with
  | nil => exact of_pure fun d hd => hd
  | cons x xs ih =>
    rw [List.mapM_cons, List.mapM_cons]
    refine bind (h x List.mem_cons_self) fun a => ?_
    refine bind (ih fun y hy => h y (List.mem_cons_of_mem x hy)) fun as => ?_
    exact of_pure fun d hd => hd

theorem filterMapM {f : β → Work (Option α)} {g : β → Except Failure (Option α)} {xs : List β}
    (h : ∀ x ∈ xs, Answers P (f x) (g x) P E) :
    Answers P (xs.filterMapM f) (xs.filterMapM g) P E := by
  induction xs with
  | nil => exact of_pure fun d hd => hd
  | cons x xs ih =>
    have hrest := ih fun y hy => h y (List.mem_cons_of_mem x hy)
    rw [List.filterMapM_cons, List.filterMapM_cons]
    refine bind (h x List.mem_cons_self) fun o => ?_
    cases o with
    | none => exact hrest
    | some a => exact bind hrest fun as => of_pure fun d hd => hd

end Answers

namespace Adds

theorem nothing (h : ∀ d, P d → Q d) : Adds P (pure ()) (.ok []) Q E := by
  intro d hd
  exact ⟨d, rfl, h d hd, (List.append_nil _).symm⟩

theorem addNotes {notes : List Note} (h : ∀ d notes, P d → P { d with notes }) :
    Adds P (addNotes notes) (.ok notes) P E := by
  intro d hd
  exact ⟨{ d with notes := d.notes ++ notes }, rfl, h d _ hd, rfl⟩

theorem after {m : Work α} {f : α → Work Unit} {r : Except Failure α}
    {s : α → Except Failure (List Note)} (hm : Answers P m r Q E)
    (hf : ∀ a, Adds Q (f a) (s a) R E) : Adds P (m >>= f) (r >>= s) R E := by
  intro d hd
  obtain ⟨d₁, hrun, hafter⟩ := hm d hd
  cases r with
  | error e => exact ⟨d₁, by rw [exec_bind, hrun]; rfl, hafter⟩
  | ok a =>
    obtain ⟨d₂, hrest, hlast⟩ := hf a d₁ hafter.1
    refine ⟨d₂, by rw [exec_bind, hrun]; exact hrest, ?_⟩
    rw [Outcome.ok_bind]
    cases hs : s a with
    | error e =>
      rw [hs] at hlast
      exact hlast
    | ok notes =>
      rw [hs] at hlast
      exact ⟨hlast.1, hlast.2.trans (congrArg (· ++ notes) hafter.2)⟩

theorem seq {m : Work Unit} {f : Unit → Work Unit} {r s : Except Failure (List Note)}
    (hm : Adds P m r Q E) (hf : ∀ u, Adds Q (f u) s R E) :
    Adds P (m >>= f) (do return (← r) ++ (← s)) R E := by
  intro d hd
  obtain ⟨d₁, hrun, hafter⟩ := hm d hd
  cases r with
  | error e => exact ⟨d₁, by rw [exec_bind, hrun]; rfl, hafter⟩
  | ok first =>
    obtain ⟨d₂, hrest, hlast⟩ := hf () d₁ hafter.1
    cases s with
    | error e => exact ⟨d₂, by rw [exec_bind, hrun]; exact hrest, hlast⟩
    | ok second =>
      refine ⟨d₂, by rw [exec_bind, hrun]; exact hrest, hlast.1, ?_⟩
      rw [hlast.2, hafter.2, List.append_assoc]

theorem mono {m : Work Unit} {r : Except Failure (List Note)} {Q' : Draft → Prop}
    (h : Adds P m r Q E) (hQ : ∀ d, Q d → Q' d) : Adds P m r Q' E := by
  intro d hd
  obtain ⟨d', hrun, hafter⟩ := h d hd
  refine ⟨d', hrun, ?_⟩
  cases r with
  | error e => exact hafter
  | ok notes => exact ⟨hQ d' hafter.1, hafter.2⟩

theorem of_answers {m : Work (List Note)} {r : Except Failure (List Note)} (h : Answers P m r Q E)
    (hQ : ∀ d notes, Q d → Q { d with notes }) : Adds P (m >>= Work.addNotes) r Q E := by
  have hadds := after h fun notes =>
    (addNotes hQ : Adds Q (Work.addNotes notes) (.ok notes) Q E)
  cases r with
  | error e => exact hadds
  | ok notes => exact hadds

theorem adding {m : Work (List Note)} {f : Unit → Work Unit} {r s : Except Failure (List Note)}
    (h : Answers P m r Q E) (hQ : ∀ d notes, Q d → Q { d with notes })
    (hf : ∀ u, Adds Q (f u) s R E) :
    Adds P (m >>= fun notes => Work.addNotes notes >>= f) (do return (← r) ++ (← s)) R E :=
  after h fun _ => seq (addNotes hQ) hf

theorem forM {f : β → Work Unit} {g : β → Except Failure (List Note)} {xs : List β}
    (h : ∀ x ∈ xs, Adds P (f x) (g x) P E) :
    Adds P (xs.forM f) ((xs.mapM g).map List.flatten) P E := by
  induction xs with
  | nil => exact nothing fun d hd => hd
  | cons x xs ih =>
    have hrest := ih fun y hy => h y (List.mem_cons_of_mem x hy)
    have hboth := seq (h x List.mem_cons_self) fun _ => hrest
    rw [List.mapM_cons]
    cases hx : g x with
    | error e =>
      rw [hx] at hboth
      exact hboth
    | ok first =>
      rw [hx] at hboth
      cases hxs : xs.mapM g with
      | error e =>
        rw [hxs] at hboth
        exact hboth
      | ok rest =>
        rw [hxs] at hboth
        exact hboth

end Adds

end Rules

end Work

namespace Checker

/-- The checker without the requests that it was sent; no answer depends on them. -/
def quiet (c : Checker) : Checker := { c with requests := [] }

theorem perform_quiet (c : Checker) (call : Call) :
    (c.quiet.perform call).1 = (c.perform call).1 ∧
      (c.quiet.perform call).2.quiet = (c.perform call).2.quiet := by
  cases call with
  | update path content =>
    cases hfile : c.file? path with
    | none =>
      have hquiet : c.quiet.file? path = none := hfile
      simp only [perform, update, hfile, hquiet, true_and]
      rfl
    | some text =>
      have hquiet : c.quiet.file? path = some text := hfile
      simp only [perform, update, hfile, hquiet, true_and]
      rfl
  | _ => exact ⟨rfl, rfl⟩

theorem perform_congr {c k : Checker} (h : k.quiet = c.quiet) (call : Call) :
    (k.perform call).1 = (c.perform call).1 ∧
      (k.perform call).2.quiet = (c.perform call).2.quiet := by
  obtain ⟨hk, hk'⟩ := perform_quiet k call
  obtain ⟨hc, hc'⟩ := perform_quiet c call
  rw [← hk, ← hk', ← hc, ← hc', h]
  exact ⟨rfl, rfl⟩

end Checker

namespace World
variable {w : World} {slot : Option Nat} {script : Checker.Script} {options : Entries}

theorem acquire_of_cached {n : Nat} (h : w.cached? slot options = some n) :
    w.acquire slot script options = (.ok n, w) := by
  cases slot with
  | none => cases h
  | some k =>
    have hfind : (w.cache k).find? (optionsKey options) = some n := h
    simp only [acquire, hfind]

theorem acquire_of_ok {c : Checker} (h : w.cached? slot options = none)
    (hscript : Checker.ofScript script options = .ok c) :
    ∃ w', w.acquire slot script options = (.ok w.checkers.length, w') ∧
      w'.checkers = w.checkers ++ [c] ∧ w'.trees = w.trees ∧
      (∀ k, slot = some k → w'.cache k = (w.cache k).add (optionsKey options) w.checkers.length) ∧
      (∀ k, slot ≠ some k → w'.cache k = w.cache k) := by
  cases slot with
  | none =>
    refine ⟨w.enrol c, ?_, rfl, rfl, ?_, ?_⟩
    · simp only [acquire, hscript]
    · intro k hk
      cases hk
    · exact fun k _ => rfl
  | some k =>
    have hfind : (w.cache k).find? (optionsKey options) = none := h
    refine ⟨_, acquire_some_of_ok hfind hscript, rfl, rfl, ?_, ?_⟩
    · rintro _ ⟨⟩
      exact cache_setCache_self _ k _
    · intro other hother
      exact cache_setCache_of_ne _ (fun he => hother (congrArg some he.symm)) _

theorem acquire_of_error {e : Failure} (h : w.cached? slot options = none)
    (hscript : Checker.ofScript script options = .error e) :
    ∃ w', w.acquire slot script options = (.error e, w') ∧ w'.checkers = w.checkers ∧
      w'.caches = w.caches := by
  cases slot with
  | none =>
    refine ⟨w, ?_, rfl, rfl⟩
    simp only [acquire, hscript]
  | some k =>
    have hfind : (w.cache k).find? (optionsKey options) = none := h
    exact ⟨_, acquire_some_of_error hfind hscript, rfl, rfl⟩

end World

namespace Work

/-- The checker that serves a run, or why none can be built; the trees still to be taken; and the
registered paths. -/
structure View where
  checker : Except Failure Checker
  trees : Option (List Tree)
  registered : List String

def View.after (v : View) (call : Checker.Call) : View :=
  { v with checker := v.checker.map fun c => (c.perform call).2 }

def View.holding (v : View) (sections : List Section) : View :=
  { v with checker := v.checker.map (·.holding sections) }

theorem View.holding_nil (v : View) : v.holding [] = v := by
  obtain ⟨checker, trees, registered⟩ := v
  cases checker <;> rfl

theorem View.holding_append (v : View) (xs ys : List Section) :
    v.holding (xs ++ ys) = (v.holding xs).holding ys := by
  obtain ⟨checker, trees, registered⟩ := v
  cases checker with
  | error e => rfl
  | ok c =>
    unfold View.holding
    dsimp only [Except.map]
    rw [Checker.holding_append]

def View.Held (v : View) : Prop :=
  ∀ path ∈ v.registered, ∃ c text, v.checker = .ok c ∧ c.file? path = some text

theorem View.Held.holding {v : View} (h : v.Held) (sections : List Section) :
    (v.holding sections).Held := by
  intro path hpath
  obtain ⟨c, text, hc, hfile⟩ := h path hpath
  have hlater := Checker.file?_holding c sections path
  rw [hfile] at hlater
  unfold View.holding
  rw [hc]
  cases hlast : Section.last? path sections with
  | none =>
    rw [hlast] at hlater
    exact ⟨c.holding sections, text, rfl, hlater⟩
  | some s =>
    rw [hlast] at hlater
    exact ⟨c.holding sections, s.content, rfl, hlater⟩

def Serves (job : Job) (plan : Plan) (d : Draft) : Except Failure Checker → Prop
  | .ok c => ∃ k, checker? job plan d = some k ∧ k.quiet = c.quiet
  | .error e => d.checker = none ∧ d.world.cached? job.slot plan.options = none ∧
      Checker.ofScript job.script plan.options = .error e

structure Shows (job : Job) (plan : Plan) (v : View) (d : Draft) : Prop where
  serves : Serves job plan d v.checker
  trees : d.world.trees = v.trees
  registered : d.registered = v.registered

variable {job : Job} {plan : Plan} {v : View} {d d' : Draft}

theorem Serves.congr (hnumber : d'.checker = d.checker)
    (hcheckers : d'.world.checkers = d.world.checkers) (hcaches : d'.world.caches = d.world.caches)
    {p : Except Failure Checker} (h : Serves job plan d p) : Serves job plan d' p := by
  cases p with
  | ok c =>
    obtain ⟨k, hk, hquiet⟩ := h
    exact ⟨k, (checker?_congr hnumber hcheckers hcaches).trans hk, hquiet⟩
  | error e =>
    obtain ⟨hnone, hcached, hscript⟩ := h
    refine ⟨hnumber.trans hnone, ?_, hscript⟩
    unfold World.cached? World.cache at hcached ⊢
    rw [hcaches]
    exact hcached

theorem Reaches.exec_perform {n : Nat} {w : World} (h : Reaches job plan d n w)
    (call : Checker.Call) :
    exec (perform job plan call) d =
      ((w.perform plan.options n call).1, { d with
        world := (w.perform plan.options n call).2
        checker := some n
        journal := d.journal ++ [call] }) := by
  have hnumber : exec (checkerNumber job plan) d =
      (.ok n, { d with world := w, checker := some n }) := by
    unfold checkerNumber
    rw [exec_bind]
    rcases h with ⟨hnumber, rfl⟩ | ⟨hnone, hacquire⟩
    · have hget : exec (get : Work Draft) d = (.ok d, d) := rfl
      simp only [hget, hnumber]
      rw [← hnumber]
      rfl
    · have hget : exec (get : Work Draft) d = (.ok d, d) := rfl
      simp only [hget, hnone, hacquire]
      rfl
  unfold perform
  rw [exec_bind, hnumber]
  dsimp only
  rw [exec_bind]
  have hget : exec (get : Work Draft) { d with world := w, checker := some n } =
      (.ok { d with world := w, checker := some n }, { d with world := w, checker := some n }) := rfl
  rw [hget]
  dsimp only
  rw [exec_bind]
  exact exec_ofExcept _ _

theorem reaches_or_fails (job : Job) (plan : Plan) (d : Draft) :
    (∃ n w, Reaches job plan d n w) ∨ ∃ e, Serves job plan d (.error e) := by
  cases hnumber : d.checker with
  | some n => exact Or.inl ⟨n, d.world, Or.inl ⟨hnumber, rfl⟩⟩
  | none =>
    cases hcached : d.world.cached? job.slot plan.options with
    | some n => exact Or.inl ⟨n, d.world, Or.inr ⟨hnumber, World.acquire_of_cached hcached⟩⟩
    | none =>
      cases hscript : Checker.ofScript job.script plan.options with
      | error e => exact Or.inr ⟨e, hnumber, hcached, hscript⟩
      | ok c =>
        obtain ⟨w, hacquire, -⟩ := World.acquire_of_ok hcached hscript
        exact Or.inl ⟨_, w, Or.inr ⟨hnumber, hacquire⟩⟩

theorem exists_reaches {k : Checker} (h : checker? job plan d = some k) :
    ∃ n w, Reaches job plan d n w := by
  rcases reaches_or_fails job plan d with hreach | ⟨e, hnone, hcached, hscript⟩
  · exact hreach
  · unfold checker? at h
    rw [hnone, hcached, hscript] at h
    cases h

/-- A call is answered by the checker that serves the run, which is then the changed one. -/
theorem Serves.exec_perform_ok {c : Checker} (h : Serves job plan d (.ok c)) (call : Checker.Call) :
    ∃ d', exec (perform job plan call) d = ((c.perform call).1, d') ∧
      Serves job plan d' (.ok (c.perform call).2) ∧ d'.notes = d.notes ∧
      d'.world.trees = d.world.trees ∧ d'.registered = d.registered := by
  obtain ⟨k, hk, hquiet⟩ := h
  obtain ⟨n, w, hreach⟩ := exists_reaches hk
  have hn : w.checkers[n]? = some k := hreach.checker?_eq.symm.trans hk
  obtain ⟨hsame, hcheckers⟩ := World.perform_of_some hn plan.options call
  obtain ⟨hanswer, hchanged⟩ := Checker.perform_congr hquiet call
  have hrun := hreach.exec_perform call
  rw [hsame, hanswer] at hrun
  refine ⟨_, hrun, ⟨(k.perform call).2, ?_, hchanged⟩, rfl, hreach.trees_eq, rfl⟩
  obtain ⟨hlt, -⟩ := List.getElem?_eq_some_iff.mp hn
  unfold checker?
  dsimp only
  rw [hcheckers]
  exact List.getElem?_set_self hlt

theorem Serves.exec_perform_error {e : Failure} (h : Serves job plan d (.error e))
    (call : Checker.Call) :
    ∃ d', exec (perform job plan call) d = (.error e, d') ∧ d'.checker = d.checker ∧
      d'.world.checkers = d.world.checkers ∧ d'.world.caches = d.world.caches ∧
      d'.journal = d.journal ∧ d'.registered = d.registered := by
  obtain ⟨hnone, hcached, hscript⟩ := h
  obtain ⟨w, hacquire, hcheckers, hcaches⟩ := World.acquire_of_error hcached hscript
  have hnumber : exec (checkerNumber job plan) d = (.error e, { d with world := w }) := by
    unfold checkerNumber
    have hget : exec (get : Work Draft) d = (.ok d, d) := rfl
    rw [exec_bind, hget]
    dsimp only
    rw [hnone, hacquire]
    rfl
  refine ⟨{ d with world := w }, ?_, rfl, hcheckers, hcaches, rfl, rfl⟩
  unfold perform
  rw [exec_bind, hnumber]

end Work

/-- The calls that a run may make: it creates files for its own sections only. -/
def Plan.Permits (plan : Plan) : Checker.Call → Prop
  | .create path content => ∃ s ∈ plan.taken, s.path = path ∧ s.content = content
  | _ => True

namespace Work

/-- A property of states that looks at the checkers and the caches only, and that all calls of a
run keep, whether they are answered or not. -/
structure Steady (job : Job) (plan : Plan) (I : Draft → Prop) : Prop where
  frame : ∀ {d d' : Draft}, d'.checker = d.checker → d'.world.checkers = d.world.checkers →
    d'.world.caches = d.world.caches → I d → I d'
  call : ∀ call, plan.Permits call → ∀ d, I d → I (exec (perform job plan call) d).2

structure Stands (job : Job) (plan : Plan) (I : Draft → Prop) (v : View) (d : Draft) : Prop where
  shows : Shows job plan v d
  keeps : I d

variable {job : Job} {plan : Plan} {I : Draft → Prop} {v : View} {d d' : Draft}

section Steady
variable (hI : Steady job plan I)
include hI

theorem Stands.congr (h : Stands job plan I v d) (hnumber : d'.checker = d.checker)
    (hcheckers : d'.world.checkers = d.world.checkers) (hcaches : d'.world.caches = d.world.caches)
    (htrees : d'.world.trees = d.world.trees) (hregistered : d'.registered = d.registered) :
    Stands job plan I v d' := by
  refine ⟨⟨h.shows.serves.congr hnumber hcheckers hcaches, ?_, ?_⟩, ?_⟩
  · exact htrees.trans h.shows.trees
  · exact hregistered.trans h.shows.registered
  · exact hI.frame hnumber hcheckers hcaches h.keeps

theorem answers_perform (call : Checker.Call) (hpermits : plan.Permits call) :
    Answers (Stands job plan I v) (perform job plan call)
      (v.checker >>= fun c => (c.perform call).1) (Stands job plan I (v.after call)) I := by
  intro d hd
  have hkeeps := hI.call call hpermits d hd.keeps
  have hserves := hd.shows.serves
  unfold View.after
  cases hv : v.checker with
  | error e =>
    rw [hv] at hserves
    obtain ⟨d', hrun, -⟩ := hserves.exec_perform_error call
    rw [hrun] at hkeeps
    exact ⟨d', hrun, hkeeps⟩
  | ok c =>
    rw [hv] at hserves
    obtain ⟨d', hrun, hafter, hnotes, htrees, hregistered⟩ := hserves.exec_perform_ok call
    rw [hrun] at hkeeps
    refine ⟨d', hrun, ?_⟩
    rw [Outcome.ok_bind]
    cases (c.perform call).1 with
    | error e => exact hkeeps
    | ok answer =>
      refine ⟨⟨⟨hafter, ?_, ?_⟩, hkeeps⟩, hnotes⟩
      · exact htrees.trans hd.shows.trees
      · exact hregistered.trans hd.shows.registered

theorem answers_ask (call : Checker.Call) (hpermits : plan.Permits call)
    (hquiet : ∀ c : Checker, (c.perform call).2.quiet = c.quiet) :
    Answers (Stands job plan I v) (perform job plan call)
      (v.checker >>= fun c => (c.perform call).1) (Stands job plan I v) I := by
  refine (answers_perform hI call hpermits).mono (fun d hd => hd) ?_
  intro d hd
  refine ⟨⟨?_, hd.shows.trees, hd.shows.registered⟩, hd.keeps⟩
  have hserves := hd.shows.serves
  unfold View.after at hserves
  cases hv : v.checker with
  | error e =>
    rw [hv] at hserves
    exact hserves
  | ok c =>
    rw [hv] at hserves
    obtain ⟨k, hk, hsame⟩ := hserves
    exact ⟨k, hk, hsame.trans (hquiet c)⟩

end Steady

end Work

end Marginalia
