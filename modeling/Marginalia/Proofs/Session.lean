import Marginalia.Proofs.Answered

/-!
# Sessions

Calls of an annotator, one after the other, share the checkers of its cache.  Whatever holds of a
new checker and is kept by the calls that runs make to it holds of all cached checkers, however long
the session and whichever of its calls have failed.
-/

namespace Marginalia
set_option autoImplicit false

namespace World

/-- The checkers that the cache in the slot has are as they should be under their keys. -/
def Guarded (slot : Option Nat) (G : String → Checker → Prop) (w : World) : Prop :=
  ∀ k, slot = some k → (w.cache k).Holds G w.checkers

theorem guarded_keyed (w : World) (slot : Option Nat) : w.Guarded slot Checker.KeyedBy :=
  fun k _ => w.keyed_cache k

/-- The checker that a call with the options will be served by, or why there is none. -/
def serving (w : World) (slot : Option Nat) (script : Checker.Script) (options : Entries) :
    Except Failure Checker :=
  match w.cached? slot options with
  | some n => .ok ((w.checkers[n]?).getD { options })
  | none => Checker.ofScript script options

variable {w w' : World} {slot : Option Nat} {script : Checker.Script} {options : Entries}
  {G : String → Checker → Prop}

namespace Guarded

theorem mono {G' : String → Checker → Prop} (h : w.Guarded slot G) (hG : ∀ key c, G key c → G' key c) :
    w.Guarded slot G' := by
  intro k hk key n hn
  obtain ⟨c, hc, hguard⟩ := h k hk key n hn
  exact ⟨c, hc, hG key c hguard⟩

theorem congr (hcheckers : w'.checkers = w.checkers) (hcaches : w'.caches = w.caches)
    (h : w.Guarded slot G) : w'.Guarded slot G := by
  intro k hk
  unfold cache
  rw [hcaches, hcheckers]
  exact h k hk

theorem cached (h : w.Guarded slot G) {n : Nat} (hn : w.cached? slot options = some n) :
    ∃ c, w.checkers[n]? = some c ∧ G (optionsKey options) c := by
  obtain ⟨k, hk, hfind⟩ := Option.bind_eq_some_iff.mp hn
  exact h k hk _ n (Cache.mem_of_find? hfind)

theorem acquire (h : w.Guarded slot G) {n : Nat}
    (hacquire : w.acquire slot script options = (.ok n, w'))
    (hnew : ∀ c, Checker.ofScript script options = .ok c → G (optionsKey options) c) :
    w'.Guarded slot G ∧ ∃ c, w'.checkers[n]? = some c ∧ G (optionsKey options) c := by
  cases hcached : w.cached? slot options with
  | some m =>
    rw [acquire_of_cached hcached] at hacquire
    cases hacquire
    exact ⟨h, h.cached hcached⟩
  | none =>
    cases hscript : Checker.ofScript script options with
    | error e =>
      obtain ⟨_, hfails, -⟩ := acquire_of_error hcached hscript
      rw [hfails] at hacquire
      cases hacquire
    | ok c =>
      obtain ⟨built, hbuilt, hcheckers, -, hcache, -⟩ := acquire_of_ok hcached hscript
      rw [hbuilt] at hacquire
      cases hacquire
      have hlast : w'.checkers[w.checkers.length]? = some c := by
        rw [hcheckers, List.getElem?_concat_length]
      refine ⟨?_, c, hlast, hnew c hscript⟩
      intro k hk
      rw [hcache k hk]
      refine Cache.Holds.add ?_ hlast (hnew c hscript)
      rw [hcheckers]
      exact (h k hk).concat c

theorem serving (h : w.Guarded slot G)
    (hnew : ∀ c, Checker.ofScript script options = .ok c → G (optionsKey options) c) {c : Checker}
    (hc : w.serving slot script options = .ok c) : G (optionsKey options) c := by
  unfold World.serving at hc
  cases hcached : w.cached? slot options with
  | none =>
    rw [hcached] at hc
    exact hnew c hc
  | some n =>
    obtain ⟨old, hold, hguard⟩ := h.cached hcached
    rw [hcached] at hc
    dsimp only at hc
    rw [hold] at hc
    cases hc
    exact hguard

end Guarded

end World

namespace Work
variable {job : Job} {plan : Plan} {G : String → Checker → Prop}

/-- What holds of a new checker and is kept by every call that a run may make. -/
structure Guards (job : Job) (plan : Plan) (G : String → Checker → Prop) : Prop where
  new : ∀ c, Checker.ofScript job.script plan.options = .ok c → G (optionsKey plan.options) c
  call : ∀ call, plan.Permits call → ∀ key c, G (optionsKey plan.options) c → G key c →
    G key (c.perform call).2

theorem guards_keyed : Guards job plan Checker.KeyedBy where
  new _ hc := Checker.keyedBy_ofScript hc
  call call _ _ c _ hkey := (congrArg optionsKey (c.options_perform call)).trans hkey

structure Kept (job : Job) (plan : Plan) (G : String → Checker → Prop) (d : Draft) : Prop where
  cache : d.world.Guarded job.slot G
  own : ∀ n, d.checker = some n → ∃ c, d.world.checkers[n]? = some c ∧ G (optionsKey plan.options) c

theorem Kept.reaches (hG : Guards job plan G) {d : Draft} (h : Kept job plan G d) {n : Nat}
    {w : World} (hreach : Reaches job plan d n w) :
    w.Guarded job.slot G ∧ ∃ c, w.checkers[n]? = some c ∧ G (optionsKey plan.options) c := by
  rcases hreach with ⟨hnumber, rfl⟩ | ⟨-, hacquire⟩
  · exact ⟨h.cache, h.own n hnumber⟩
  · exact h.cache.acquire hacquire hG.new

theorem steady_kept (hG : Guards job plan G) : Steady job plan (Kept job plan G) where
  frame := by
    intro d d' hnumber hcheckers hcaches h
    refine ⟨h.cache.congr hcheckers hcaches, ?_⟩
    intro n hn
    rw [hcheckers]
    exact h.own n (hnumber.symm.trans hn)
  call := by
    intro call hpermits d h
    rcases reaches_or_fails job plan d with ⟨n, w, hreach⟩ | ⟨e, hserves⟩
    · obtain ⟨hguarded, c, hc, hown⟩ := h.reaches hG hreach
      have hchanged := (World.perform_of_some hc plan.options call).2
      rw [hreach.exec_perform call]
      refine ⟨?_, ?_⟩
      · intro k hk
        dsimp only
        rw [hchanged]
        refine (hguarded k hk).set fun key old hold hguard => ?_
        obtain rfl : c = old := Option.some.inj (hc.symm.trans hold)
        exact hG.call call hpermits key c hown hguard
      · rintro _ ⟨⟩
        obtain ⟨hlt, -⟩ := List.getElem?_eq_some_iff.mp hc
        dsimp only
        rw [hchanged]
        exact ⟨_, List.getElem?_set_self hlt, hG.call call hpermits _ c hown hown⟩
    · -- No checker can be built, and the attempt leaves no trace in the cache.
      obtain ⟨d', hrun, hnumber, hcheckers, hcaches, -⟩ := hserves.exec_perform_error call
      rw [hrun]
      refine ⟨h.cache.congr hcheckers hcaches, ?_⟩
      intro n hn
      rw [hcheckers]
      exact h.own n (hnumber.symm.trans hn)

theorem stands_start {w : World} (h : w.Guarded job.slot G) :
    Stands job plan (Kept job plan G) ⟨w.serving job.slot job.script plan.options, w.trees, []⟩
      { world := w } := by
  refine ⟨⟨?_, rfl, rfl⟩, h, fun n hn => by cases hn⟩
  unfold World.serving
  dsimp only
  cases hcached : w.cached? job.slot plan.options with
  | some n =>
    obtain ⟨c, hc, -⟩ := h.cached hcached
    refine ⟨c, ?_, by rw [hc]; rfl⟩
    unfold checker?
    dsimp only
    rw [hcached]
    exact hc
  | none =>
    dsimp only
    cases hscript : Checker.ofScript job.script plan.options with
    | error e => exact ⟨rfl, hcached, hscript⟩
    | ok c =>
      refine ⟨c, ?_, rfl⟩
      unfold checker?
      dsimp only
      rw [hcached, hscript]
      rfl

end Work

namespace Annotator
variable {a : Annotator} {q : Request} {w : World} {G : String → Checker → Prop}

def reading (a : Annotator) (q : Request) : Except Failure (Plan × List Note) :=
  a.plan q >>= fun start => start.read (a.job q).vocabulary a.root q.code

/-- A call says what its reading, the checker that serves it and the trees say, and what is guarded
in its cache stays so. -/
theorem annotate_eq (hG : ∀ plan tags, a.reading q = .ok (plan, tags) → Work.Guards (a.job q) plan G)
    (h : w.Guarded a.slot G) :
    (a.annotate q w).1 = (a.reading q >>= fun x =>
        Answered.outcome (a.job q) x.1 x.2 (w.serving a.slot a.script x.1.options) w.trees) ∧
      (a.annotate q w).2.Guarded a.slot G := by
  unfold annotate reading at *
  cases hplan : a.plan q with
  | error e => exact ⟨rfl, h⟩
  | ok start =>
    rw [hplan, Outcome.ok_bind] at hG
    rw [Outcome.ok_bind]
    dsimp only
    cases hread : start.read (a.job q).vocabulary a.root q.code with
    | error e =>
      have hrun := Work.exec_run_of_read_error (a.job q) hread { world := w }
      rw [hrun]
      exact ⟨rfl, h⟩
    | ok x =>
      obtain ⟨plan, tags⟩ := x
      have hguards := hG plan tags hread
      obtain ⟨d, hrun, hkept⟩ := Work.exec_run (Work.steady_kept hguards) hread
        (Work.stands_start h) rfl
      have hjob : (a.job q).script = a.script ∧ (a.job q).slot = a.slot := ⟨rfl, rfl⟩
      rw [hrun, ← hjob.1, ← hjob.2]
      exact ⟨(Outcome.ok_bind _ _).symm, hkept.cache⟩

theorem annotate_fst (a : Annotator) (q : Request) (w : World) :
    (a.annotate q w).1 = (a.reading q >>= fun x =>
      Answered.outcome (a.job q) x.1 x.2 (w.serving a.slot a.script x.1.options) w.trees) :=
  (annotate_eq (fun _ _ _ => Work.guards_keyed) (w.guarded_keyed a.slot)).1

/-- Calls one after the other.  A failing call leaves the world as far as it has come. -/
def session (a : Annotator) (calls : List Request) (w : World) : World :=
  calls.foldl (fun w q => (a.annotate q w).2) w

end Annotator

end Marginalia
