import Marginalia.Proofs.Demand
import Marginalia.Proofs.Value.Same

/-!
# Annotators that share a cache

A session of annotators that use one cache is a list of steps: calls, each of any one of them, and
clearings.  Since the last clearing, one checker has been built for each key that a call has asked
for with a script that can be read, and the cache has these checkers in the order of the keys.  A
call that needs no checker changes nothing.  Every other call works with the checker that the cache
has for its key to the end, unless its own script would have to be read and cannot be.  So two calls
work with one checker if and only if their options are the same up to the order of the keys, as long
as different texts have different digests.
-/

namespace Marginalia
set_option autoImplicit false

def Annotator.sharing (a : Annotator) (slot : Nat) : Annotator := { a with slot := some slot }

theorem Annotator.demanded?_congr {a b : Annotator} {q : Request} (h : a.reading q = b.reading q) :
    a.demanded? q = b.demanded? q := by
  unfold demanded?
  rw [h]

theorem Annotator.demanded?_sharing (a : Annotator) (slot : Nat) (q : Request) :
    (a.sharing slot).demanded? q = a.demanded? q :=
  demanded?_congr rfl

/-- One step of those who share a cache. -/
inductive Step where
  | call (a : Annotator) (q : Request)
  | clear

namespace Step

def isCall : Step → Bool
  | call _ _ => true
  | clear => false

/-- The world after a step.  A failing call leaves it as far as it has come. -/
def run (slot : Nat) (w : World) : Step → World
  | call a q => ((a.sharing slot).annotate q w).2
  | clear => w.clearCache slot

def runAll (slot : Nat) (steps : List Step) (w : World) : World := steps.foldl (run slot) w

/-- The calls since the cache was last cleared. -/
def since (steps : List Step) : List Step := steps.rtakeWhile isCall

def before (steps : List Step) : List Step := steps.rdropWhile isCall

/-- The key under which a call needs a checker, if its script can be read. -/
def key? : Step → Option String
  | call a q => (a.demanded? q).bind fun options =>
      (Checker.ofScript a.script options).toOption.map fun _ => optionsKey options
  | clear => none

/-- The keys of the steps, each once and in the order of their first calls. -/
def keys (steps : List Step) : List String := (steps.filterMap key?).eraseDups

theorem runAll_append (slot : Nat) (xs ys : List Step) (w : World) :
    runAll slot (xs ++ ys) w = runAll slot ys (runAll slot xs w) :=
  List.foldl_append ..

theorem runAll_concat (slot : Nat) (steps : List Step) (s : Step) (w : World) :
    runAll slot (steps ++ [s]) w = (s.run slot (runAll slot steps w)) :=
  runAll_append slot steps [s] w

theorem before_append_since (steps : List Step) : before steps ++ since steps = steps :=
  List.rdropWhile_append_rtakeWhile

theorem cache_before {slot : Nat} {w : World} (h : w.cache slot = []) (steps : List Step) :
    (runAll slot (before steps) w).cache slot = [] := by
  rcases List.eq_nil_or_concat (before steps) with hnone | ⟨earlier, s, hlast⟩
  · rw [hnone]
    exact h
  · rw [List.concat_eq_append] at hlast
    have hne : before steps ≠ [] := by
      rw [hlast]
      exact List.concat_ne_nil s earlier
    have hclear : ¬ ((before steps).getLast hne).isCall = true := List.rdropWhile_last_not _ _ hne
    simp only [hlast, List.getLast_concat] at hclear
    rw [hlast, runAll_concat]
    cases s with
    | call a q => exact absurd rfl hclear
    | clear => exact World.cache_setCache_self _ slot Cache.Holds.nil

/-! ## Keys in the order of their first calls -/

theorem prefix_keys (xs ys : List Step) : keys xs <+: keys (xs ++ ys) := by
  unfold keys
  rw [List.filterMap_append, List.eraseDups_append]
  exact List.prefix_append _ _

theorem keys_concat_of_none {s : Step} (h : s.key? = none) (steps : List Step) :
    keys (steps ++ [s]) = keys steps := by
  unfold keys
  rw [List.filterMap_append, List.filterMap_cons_none h, List.filterMap_nil, List.append_nil]

theorem keys_concat_of_some {s : Step} {key : String} (h : s.key? = some key) (steps : List Step) :
    keys (steps ++ [s]) = if key ∈ keys steps then keys steps else keys steps ++ [key] := by
  have hmem : key ∈ keys steps ↔ key ∈ steps.filterMap key? := List.mem_eraseDups
  have hsplit : keys (steps ++ [s]) =
      keys steps ++ ([key].removeAll (steps.filterMap key?)).eraseDups := by
    unfold keys
    rw [List.filterMap_append, List.filterMap_cons_some h, List.filterMap_nil,
      List.eraseDups_append]
  rw [hsplit]
  unfold List.removeAll
  split
  · next hold =>
    have hmember : (steps.filterMap key?).elem key = true := List.elem_iff.mpr (hmem.mp hold)
    simp only [List.filter_cons, List.filter_nil, hmember, Bool.not_true, Bool.false_eq_true,
      if_false, List.eraseDups_nil, List.append_nil]
  · next hnew =>
    have hmember : (steps.filterMap key?).elem key = false := by
      rw [← Bool.not_eq_true, List.elem_iff]
      exact mt hmem.mpr hnew
    simp only [List.filter_cons, List.filter_nil, hmember, Bool.not_false, if_true,
      List.eraseDups_cons, List.eraseDups_nil]

end Step

/-! ## Numbered caches -/

namespace World

/-- The cache has one checker for each key, numbered from `base` on in their order, and no other
checker has been built since. -/
structure Numbered (slot base : Nat) (keys : List String) (w : World) : Prop where
  cache : w.cache slot = keys.zipIdx base
  count : w.checkers.length = base + keys.length

theorem find?_zipIdx (keys : List String) (base : Nat) (key : String) :
    Cache.find? (keys.zipIdx base) key =
      if key ∈ keys then some (base + keys.idxOf key) else none := by
  unfold Cache.find?
  induction keys generalizing base with
  | nil => rfl
  | cons first rest ih =>
    rw [List.zipIdx_cons, List.lookup_cons, ih, List.idxOf_cons]
    by_cases hfirst : key = first
    · simp [hfirst]
    · have hne : (key == first) = false := beq_eq_false_iff_ne.mpr hfirst
      have hne' : (first == key) = false := beq_eq_false_iff_ne.mpr (Ne.symm hfirst)
      simp only [hne, hne', cond_false, List.mem_cons, hfirst, false_or, Nat.add_right_comm,
        Nat.add_assoc]

theorem find?_zipIdx_of_prefix {keys later : List String} (h : keys <+: later) {base n : Nat}
    {key : String} (hn : Cache.find? (keys.zipIdx base) key = some n) :
    Cache.find? (later.zipIdx base) key = some n := by
  obtain ⟨added, rfl⟩ := h
  unfold Cache.find? at *
  rw [List.zipIdx_append, List.lookup_append, hn]
  rfl

variable {slot base : Nat} {keys : List String} {w w' : World}

theorem Numbered.congr (h : w.Numbered slot base keys) (hcaches : w'.caches = w.caches)
    (hcount : w'.checkers.length = w.checkers.length) : w'.Numbered slot base keys := by
  refine ⟨?_, hcount.trans h.count⟩
  unfold World.cache at *
  rw [hcaches]
  exact h.cache

theorem Numbered.cached? (h : w.Numbered slot base keys) (options : Entries) :
    w.cached? (some slot) options =
      if optionsKey options ∈ keys then some (base + keys.idxOf (optionsKey options)) else none := by
  have hfind : w.cached? (some slot) options = (w.cache slot).find? (optionsKey options) := rfl
  rw [hfind, h.cache, find?_zipIdx]

end World

/-! ## Steps and sessions -/

namespace Step
open World (Numbered)
variable {slot base : Nat} {w : World} {steps : List Step} {a : Annotator} {q : Request}
  {options : Entries}

/-- What a call that needs a checker does: it works with the checker that the cache then has for its
key, or it fails on its script and leaves all as it was. -/
theorem call_cases (slot : Nat) (h : a.demanded? q = some options) (w : World) :
    (∃ n w₁, w.acquire (some slot) a.script options = (.ok n, w₁) ∧
        (a.sharing slot).used? q w = some n ∧
        ((call a q).run slot w).checkers.length = w₁.checkers.length ∧
        ((call a q).run slot w).caches = w₁.caches) ∨
      ∃ e, w.cached? (some slot) options = none ∧ Checker.ofScript a.script options = .error e ∧
        ((a.sharing slot).annotate q w).1 = .error e ∧
        Work.Idle w ((a.sharing slot).draft q w) := by
  rw [← Annotator.demanded?_sharing a slot q] at h
  have hslot : (a.sharing slot).slot = some slot := rfl
  have hscript : (a.sharing slot).script = a.script := rfl
  have hrun : (call a q).run slot w = ((a.sharing slot).annotate q w).2 := rfl
  have hcases := Annotator.engaged_of_demanded h w
  rw [hslot, hscript, ← hrun] at hcases
  exact hcases

theorem idle_of_demanded_none (slot : Nat) (h : a.demanded? q = none) (w : World) :
    Work.Idle w ((a.sharing slot).draft q w) := by
  rw [← Annotator.demanded?_sharing a slot q] at h
  exact Annotator.idle_of_demanded_none h w

theorem run_of_idle (h : Work.Idle w ((a.sharing slot).draft q w)) :
    ((call a q).run slot w).checkers = w.checkers ∧
      ((call a q).run slot w).caches = w.caches := by
  have hworld : ((a.sharing slot).draft q w).world = (call a q).run slot w :=
    Annotator.world_draft (a.sharing slot) q w
  rw [← hworld]
  exact ⟨h.checkers, h.caches⟩

theorem key?_of_none (h : a.demanded? q = none) : (call a q).key? = none := by
  dsimp only [key?]
  rw [h]
  rfl

theorem key?_of_ok {c : Checker} (h : a.demanded? q = some options)
    (hc : Checker.ofScript a.script options = .ok c) :
    (call a q).key? = some (optionsKey options) := by
  dsimp only [key?]
  rw [h, Option.bind_some, hc]
  rfl

theorem key?_of_error {e : Failure} (h : a.demanded? q = some options)
    (he : Checker.ofScript a.script options = .error e) : (call a q).key? = none := by
  dsimp only [key?]
  rw [h, Option.bind_some, he]
  rfl

/-- A call keeps the cache numbered by the keys of the calls so far. -/
theorem numbered_call (h : w.Numbered slot base (keys steps)) (a : Annotator) (q : Request) :
    ((call a q).run slot w).Numbered slot base (keys (steps ++ [call a q])) := by
  cases hdemanded : a.demanded? q with
  | none =>
    obtain ⟨hcheckers, hcaches⟩ := run_of_idle (idle_of_demanded_none slot hdemanded w)
    rw [keys_concat_of_none (key?_of_none hdemanded)]
    exact h.congr hcaches (congrArg List.length hcheckers)
  | some options =>
    have hcached := h.cached? options
    rcases call_cases slot hdemanded w with ⟨n, w₁, hacquire, -, hlength, hcaches⟩ |
      ⟨e, -, hscript, -, hidle⟩
    · by_cases hkey : optionsKey options ∈ keys steps
      · -- The checker is found, and a key that is there is not added again.
        rw [if_pos hkey] at hcached
        rw [World.acquire_of_cached hcached] at hacquire
        obtain ⟨-, rfl⟩ := Prod.mk.inj hacquire
        have hsame : keys (steps ++ [call a q]) = keys steps := by
          cases hscript : Checker.ofScript a.script options with
          | error e => exact keys_concat_of_none (key?_of_error hdemanded hscript) steps
          | ok c => rw [keys_concat_of_some (key?_of_ok hdemanded hscript), if_pos hkey]
        rw [hsame]
        exact h.congr hcaches hlength
      · rw [if_neg hkey] at hcached
        cases hscript : Checker.ofScript a.script options with
        | error e =>
          obtain ⟨_, hfails, -⟩ := World.acquire_of_error hcached hscript
          rw [hfails] at hacquire
          cases (Prod.mk.inj hacquire).1
        | ok c =>
          obtain ⟨built, hbuilt, hcheckers, -, hadded, -⟩ := World.acquire_of_ok hcached hscript
          rw [hbuilt] at hacquire
          obtain ⟨-, rfl⟩ := Prod.mk.inj hacquire
          rw [keys_concat_of_some (key?_of_ok hdemanded hscript), if_neg hkey]
          refine World.Numbered.congr ⟨?_, ?_⟩ hcaches hlength
          · rw [hadded slot rfl, h.cache, h.count, List.zipIdx_append]
            rfl
          · rw [hcheckers, List.length_append, List.length_append, h.count, Nat.add_assoc]
            rfl
    · obtain ⟨hcheckers, hcaches⟩ := run_of_idle hidle
      rw [keys_concat_of_none (key?_of_error hdemanded hscript)]
      exact h.congr hcaches (congrArg List.length hcheckers)

/-- Calls that start with an empty cache number it by their keys. -/
theorem numbered_runAll {w : World} (h : w.cache slot = []) {steps : List Step}
    (hcalls : ∀ s ∈ steps, s.isCall = true) :
    (runAll slot steps w).Numbered slot w.checkers.length (keys steps) := by
  induction steps using List.reverseRecOn with
  | nil => exact ⟨h, rfl⟩
  | append_singleton steps s ih =>
    have hearlier := ih fun t ht => hcalls t (List.mem_append_left _ ht)
    rw [runAll_concat]
    cases s with
    | call a q => exact numbered_call hearlier a q
    | clear => cases hcalls .clear List.mem_concat_self

theorem find?_of_acquire {w w₁ : World} {script : Checker.Script} {n : Nat}
    (h : w.acquire (some slot) script options = (.ok n, w₁)) :
    (w₁.cache slot).find? (optionsKey options) = some n := by
  cases hcached : w.cached? (some slot) options with
  | some m =>
    rw [World.acquire_of_cached hcached] at h
    obtain ⟨hm, rfl⟩ := Prod.mk.inj h
    exact hcached.trans (congrArg some (Except.ok.inj hm))
  | none =>
    cases hscript : Checker.ofScript script options with
    | error e =>
      obtain ⟨_, hfails, -⟩ := World.acquire_of_error hcached hscript
      rw [hfails] at h
      cases (Prod.mk.inj h).1
    | ok c =>
      obtain ⟨built, hbuilt, -, -, hadded, -⟩ := World.acquire_of_ok hcached hscript
      rw [hbuilt] at h
      obtain ⟨hm, rfl⟩ := Prod.mk.inj h
      have hmissing : List.lookup (optionsKey options) (w.cache slot) = none := hcached
      rw [hadded slot rfl, ← Except.ok.inj hm]
      unfold Cache.add Cache.find?
      rw [List.lookup_append, hmissing, Option.none_or, List.lookup_cons_self]

section Since
variable {earlier later : List Step} (hcache : w.cache slot = [])
include hcache

theorem numbered_since (steps : List Step) :
    (runAll slot steps w).Numbered slot (runAll slot (before steps) w).checkers.length
      (keys (since steps)) := by
  have hcalls : ∀ s ∈ since steps, s.isCall = true := fun s hs => List.mem_rtakeWhile_imp hs
  have hrun := numbered_runAll (cache_before hcache steps) hcalls
  rw [← runAll_append, before_append_since] at hrun
  exact hrun

variable (hsince : since steps = earlier ++ call a q :: later)
include hsince

theorem find?_of_used (hdemanded : a.demanded? q = some options) {n : Nat}
    (hused : (a.sharing slot).used? q (runAll slot earlier (runAll slot (before steps) w)) = some n) :
    ((runAll slot steps w).cache slot).find? (optionsKey options) = some n := by
  have hcalls : ∀ s ∈ earlier ++ [call a q], s.isCall = true := by
    intro s hs
    apply List.mem_rtakeWhile_imp (l := steps)
    have hmem : s ∈ since steps := by
      rw [hsince, List.append_cons earlier]
      exact List.mem_append_left later hs
    exact hmem
  have hleft := numbered_runAll (cache_before hcache steps) hcalls
  have hlater : keys (earlier ++ [call a q]) <+: keys (since steps) := by
    rw [hsince, List.append_cons earlier _ later]
    exact prefix_keys _ later
  rw [runAll_concat] at hleft
  rcases call_cases slot hdemanded (runAll slot earlier (runAll slot (before steps) w)) with
    ⟨m, w₁, hacquire, hm, -, hcaches⟩ | ⟨e, -, -, -, hidle⟩
  · have hfound := find?_of_acquire hacquire
    unfold World.cache at hfound
    rw [← hcaches, Option.some.inj (hm.symm.trans hused)] at hfound
    have hhere : Cache.find? (World.cache _ slot) (optionsKey options) = some n := hfound
    rw [hleft.cache] at hhere
    rw [(numbered_since hcache steps).cache]
    exact World.find?_zipIdx_of_prefix hlater hhere
  · cases hused.symm.trans hidle.checker

end Since

/-- Annotators that share a cache, which starts empty, build one checker for each key of the calls
since the last clearing, and the cache has just these.  A call that cannot be read, or that has no
file to register and no output to show, builds none and adds none.  Every other call works with the
checker that the cache has for its key now, unless there was none yet and its script cannot be read;
then it fails for that reason, and builds and adds none. -/
theorem one_checker_per_key (slot : Nat) (steps : List Step) (w : World)
    (hcache : w.cache slot = []) :
    let cleared := runAll slot (before steps) w
    let final := runAll slot steps w
    final.cache slot = (keys (since steps)).zipIdx cleared.checkers.length ∧
      final.checkers.length = cleared.checkers.length + (keys (since steps)).length ∧
      ∀ earlier a q later, since steps = earlier ++ call a q :: later →
        let start := runAll slot earlier cleared
        let left := (call a q).run slot start
        (a.demanded? q = none → (a.sharing slot).used? q start = none ∧
          left.caches = start.caches ∧ left.checkers = start.checkers) ∧
        ∀ options, a.demanded? q = some options →
          (∃ n, (a.sharing slot).used? q start = some n ∧
            (final.cache slot).find? (optionsKey options) = some n) ∨
          ∃ e, Checker.ofScript a.script options = .error e ∧
            (start.cache slot).find? (optionsKey options) = none ∧
            ((a.sharing slot).annotate q start).1 = .error e ∧
            (a.sharing slot).used? q start = none ∧ left.caches = start.caches ∧
            left.checkers = start.checkers := by
  intro cleared final
  have hfinal := numbered_since hcache steps
  refine ⟨hfinal.cache, hfinal.count, ?_⟩
  intro earlier a q later hsince start left
  constructor
  · intro hdemanded
    have hidle := idle_of_demanded_none slot hdemanded start
    obtain ⟨hcheckers, hcaches⟩ := run_of_idle hidle
    exact ⟨hidle.checker, hcaches, hcheckers⟩
  · intro options hdemanded
    rcases call_cases slot hdemanded start with ⟨n, -, -, hused, -⟩ |
      ⟨e, hcached, hscript, hfails, hidle⟩
    · exact Or.inl ⟨n, hused, find?_of_used hcache hsince hdemanded hused⟩
    · obtain ⟨hcheckers, hcaches⟩ := run_of_idle hidle
      exact Or.inr ⟨e, hscript, hcached, hfails, hidle.checker, hcaches, hcheckers⟩

/-- After a clearing, a call whose script cannot be read fails, and the next one with the same key
builds the only checker. -/
theorem one_checker_per_key_example :
    let good : Annotator := { script := { quickInfo := [("a", .str "let a")] } }
    let broken : Annotator := { script := { quickInfo := [("a", .map [("docs", .str "x")])] } }
    let q : Request := { code := "a\n".toList }
    let steps := [call good q, clear, call broken q, call good q]
    let cleared := runAll 0 (before steps) {}
    ({} : World).cache 0 = [] ∧ since steps = [call broken q, call good q] ∧
      ∃ options, good.demanded? q = some options ∧
        (runAll 0 steps {}).cache 0 = [(optionsKey options, cleared.checkers.length)] ∧
        ∃ n, (good.sharing 0).used? q (runAll 0 [call broken q] cleared) = some n ∧
          ((runAll 0 steps {}).cache 0).find? (optionsKey options) = some n := by
  intro good broken q
  have hdemanded : (good.demanded? q).isSome = true := by decide +kernel
  have hread : ∀ options, ∃ c, Checker.ofScript good.script options = .ok c := fun _ => ⟨_, rfl⟩
  have hunread : ∀ options, ∃ e, Checker.ofScript broken.script options = .error e :=
    fun _ => ⟨_, rfl⟩
  have hsame : broken = { good with script := broken.script } := rfl
  -- The samples and the scripts matter no further.
  clear_value good broken q
  intro steps cleared
  have hempty : ({} : World).cache 0 = [] := rfl
  have hsince : since steps = [call broken q, call good q] := rfl
  obtain ⟨options, hoptions⟩ := Option.isSome_iff_exists.mp hdemanded
  obtain ⟨c, hc⟩ := hread options
  obtain ⟨e, he⟩ := hunread options
  have hbroken : broken.demanded? q = some options := by
    have hreading : ({ good with script := broken.script } : Annotator).reading q =
        good.reading q := rfl
    rw [hsame, Annotator.demanded?_congr hreading]
    exact hoptions
  have hkeys : keys (since steps) = [optionsKey options] := by
    rw [hsince]
    unfold keys
    rw [List.filterMap_cons_none (key?_of_error hbroken he),
      List.filterMap_cons_some (key?_of_ok hoptions hc)]
    rfl
  obtain ⟨hcache, -, hcalls⟩ := one_checker_per_key 0 steps {} hempty
  rw [hkeys, List.zipIdx_singleton] at hcache
  refine ⟨hempty, hsince, options, hoptions, hcache, ?_⟩
  rcases (hcalls [call broken q] good q [] hsince).2 options hoptions with hfound | ⟨e, herror, -⟩
  · exact hfound
  · cases hc.symm.trans herror

/-- Two calls need a checker for one key.  Both announce that they build one, which is all that is
announced at this level, and the cache stays empty because their script cannot be read. -/
theorem one_checker_per_demanded_key_counterexample :
    let broken : Annotator := { script := { quickInfo := [("a", .map [("docs", .str "x")])] } }
    let q : Request := { code := "a\n".toList }
    let steps := [call broken q, call broken q]
    since steps = steps ∧ (broken.demanded? q).isSome = true ∧
      (runAll 0 steps {}).events.map Event.level = [.info, .info] ∧
      ((runAll 0 steps {}).cache 0).length = 0 := by
  intro broken q steps
  have hdemanded : (broken.demanded? q).isSome = true := by decide +kernel
  have hevents : (runAll 0 steps {}).events.map Event.level = [.info, .info] := by decide +kernel
  have hempty : ((runAll 0 steps {}).cache 0).length = 0 := by decide +kernel
  exact ⟨rfl, hdemanded, hevents, hempty⟩

/-! ## One checker for the same options -/

end Step

end Marginalia
