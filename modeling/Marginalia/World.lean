import Marginalia.Cache
import Marginalia.Checker.Call
import Marginalia.Event
import Marginalia.Identifier.Token
import Marginalia.Identifier.Tree

/-!
# The world of a session

What outlives a run: the checkers in the order in which they were built, the caches, the syntax
trees that are supplied for coming parses, and what has been reported so far.  A world carries the
fact that its caches hold numbers of checkers whose options have the key, so that whatever changes
a world has shown that this is kept.
-/

namespace Marginalia
set_option autoImplicit false

structure HoverCall where
  target : String
  start : Int
  filename : String
deriving DecidableEq

/-- A cache has numbers of checkers, each of which is as it should be under its key. -/
def Cache.Holds (G : String → Checker → Prop) (cache : Cache) (checkers : List Checker) : Prop :=
  ∀ key n, (key, n) ∈ cache → ∃ c, checkers[n]? = some c ∧ G key c

def Checker.KeyedBy (key : String) (c : Checker) : Prop := optionsKey c.options = key

theorem Checker.keyedBy_ofScript {script : Script} {options : Entries} {c : Checker}
    (h : ofScript script options = .ok c) : c.KeyedBy (optionsKey options) :=
  congrArg optionsKey (ofScript_ok h).1

structure World where
  checkers : List Checker := []
  /-- The caches by their slots; a slot that is not there holds an empty cache. -/
  caches : List (Nat × Cache) := []
  /-- Trees for the coming parses; without a supply identifiers are found by tokens. -/
  trees : Option (List Tree) := none
  events : List Event := []
  hoverCalls : List HoverCall := []
  /-- What a cache has under a key is the number of a checker with options of that key. -/
  keyed : ∀ entry ∈ caches, entry.2.Holds Checker.KeyedBy checkers := by
    exact List.forall_mem_nil _

namespace Cache.Holds
variable {G : String → Checker → Prop} {cache : Cache} {checkers : List Checker}

theorem nil : Cache.Holds G [] checkers := by
  intro key n hn
  cases hn

theorem concat (h : cache.Holds G checkers) (c : Checker) : cache.Holds G (checkers ++ [c]) := by
  intro key n hn
  obtain ⟨old, hold, hguard⟩ := h key n hn
  obtain ⟨hlt, -⟩ := List.getElem?_eq_some_iff.mp hold
  exact ⟨old, (List.getElem?_append_left hlt).trans hold, hguard⟩

theorem set (h : cache.Holds G checkers) {n : Nat} {c : Checker}
    (hc : ∀ key old, checkers[n]? = some old → G key old → G key c) :
    cache.Holds G (checkers.set n c) := by
  intro key m hm
  obtain ⟨old, hold, hguard⟩ := h key m hm
  by_cases hn : n = m
  · subst hn
    obtain ⟨hlt, -⟩ := List.getElem?_eq_some_iff.mp hold
    exact ⟨c, List.getElem?_set_self hlt, hc key old hold hguard⟩
  · exact ⟨old, (List.getElem?_set_ne hn).trans hold, hguard⟩

theorem add (h : cache.Holds G checkers) {key : String} {n : Nat} {c : Checker}
    (hc : checkers[n]? = some c) (hguard : G key c) : (cache.add key n).Holds G checkers := by
  intro other m hm
  rcases List.mem_append.mp hm with hm | hm
  · exact h other m hm
  · obtain ⟨rfl, rfl⟩ := Prod.mk.inj (List.mem_singleton.mp hm)
    exact ⟨c, hc, hguard⟩

end Cache.Holds

namespace World

def report (w : World) (e : Event) : World := { w with events := w.events ++ [e] }

def cache (w : World) (slot : Nat) : Cache := (w.caches.lookup slot).getD []

theorem keyed_cache (w : World) (slot : Nat) : (w.cache slot).Holds Checker.KeyedBy w.checkers := by
  unfold cache
  cases hlookup : w.caches.lookup slot with
  | none => exact Cache.Holds.nil
  | some cache =>
    obtain ⟨before, after, hcaches, -⟩ := List.lookup_eq_some_iff.mp hlookup
    refine w.keyed (slot, cache) ?_
    rw [hcaches]
    exact List.mem_append_right before List.mem_cons_self

def setCache (w : World) (slot : Nat) (cache : Cache)
    (h : cache.Holds Checker.KeyedBy w.checkers) : World :=
  { w with
    caches := (slot, cache) :: w.caches.filter (·.1 != slot)
    keyed := List.forall_mem_cons.mpr ⟨h, fun entry he => w.keyed entry (List.mem_filter.mp he).1⟩ }

def clearCache (w : World) (slot : Nat) : World := w.setCache slot [] Cache.Holds.nil

/-- Add a checker; its number is the count of those before. -/
def enrol (w : World) (c : Checker) : World :=
  { w with
    checkers := w.checkers ++ [c]
    keyed := fun entry he => (w.keyed entry he).concat c }

/-- Add a checker, and its number to a cache. -/
def enrolIn (w : World) (slot : Nat) (key : String) (c : Checker) (h : c.KeyedBy key) : World :=
  (w.enrol c).setCache slot ((w.cache slot).add key w.checkers.length)
    (((w.keyed_cache slot).concat c).add List.getElem?_concat_length h)

/-- The checker for the options: the cached one, or a new one that is then cached.  Without a
cache slot every call builds a new one.  A checker that cannot be built is announced but not
cached. -/
def acquire (w : World) (slot : Option Nat) (script : Checker.Script) (options : Entries) :
    Except Failure Nat × World :=
  match slot with
  | none =>
    match Checker.ofScript script options with
    | .ok c => (.ok w.checkers.length, w.enrol c)
    | .error e => (.error e, w)
  | some slot =>
    let key := optionsKey options
    match (w.cache slot).find? key with
    | some n => (.ok n, w)
    | none =>
      let announced := w.report (.checkerCreated key)
      match hc : Checker.ofScript script options with
      | .ok c =>
        (.ok w.checkers.length, announced.enrolIn slot key c (Checker.keyedBy_ofScript hc))
      | .error e => (.error e, announced)

theorem acquire_some_of_ok {w : World} {slot : Nat} {script : Checker.Script} {options : Entries}
    {c : Checker} (hfind : (w.cache slot).find? (optionsKey options) = none)
    (hc : Checker.ofScript script options = .ok c) :
    w.acquire (some slot) script options =
      (.ok w.checkers.length, (w.report (.checkerCreated (optionsKey options))).enrolIn slot
        (optionsKey options) c (Checker.keyedBy_ofScript hc)) := by
  simp only [acquire, hfind]
  split
  · next built hbuilt =>
    cases hbuilt.symm.trans hc
    rfl
  · next e he => cases he.symm.trans hc

theorem acquire_some_of_error {w : World} {slot : Nat} {script : Checker.Script} {options : Entries}
    {e : Failure} (hfind : (w.cache slot).find? (optionsKey options) = none)
    (he : Checker.ofScript script options = .error e) :
    w.acquire (some slot) script options =
      (.error e, w.report (.checkerCreated (optionsKey options))) := by
  simp only [acquire, hfind]
  split
  · next c hc => cases hc.symm.trans he
  · next other hother =>
    cases hother.symm.trans he
    rfl

/-- The checker with a number; a number that was never given out stands for an empty checker. -/
def checkerAt (w : World) (options : Entries) (n : Nat) : Checker :=
  (w.checkers[n]?).getD { options }

theorem checkerAt_eq {w : World} {n : Nat} {c : Checker} (h : w.checkers[n]? = some c)
    (options : Entries) : w.checkerAt options n = c := by
  rw [checkerAt, h, Option.getD_some]

def perform (w : World) (options : Entries) (n : Nat) (call : Checker.Call) :
    Except Failure call.Answer × World :=
  let done := (w.checkerAt options n).perform call
  (done.1, { w with
    checkers := w.checkers.set n done.2
    keyed := by
      intro entry he
      refine (w.keyed entry he).set fun key old hold hkey => ?_
      unfold Checker.KeyedBy
      rw [Checker.options_perform, checkerAt_eq hold, hkey] })

theorem perform_of_some {w : World} {n : Nat} {c : Checker} (h : w.checkers[n]? = some c)
    (options : Entries) (call : Checker.Call) :
    (w.perform options n call).1 = (c.perform call).1 ∧
      (w.perform options n call).2.checkers = w.checkers.set n (c.perform call).2 := by
  have hat := checkerAt_eq h options
  exact ⟨congrArg (fun c : Checker => (c.perform call).1) hat,
    congrArg (fun c : Checker => w.checkers.set n (c.perform call).2) hat⟩

/-- The identifiers of a file.  Every parse takes the next of the supplied trees; a file without a
grammar is not parsed. -/
def identifiers (w : World) (content : List Char) (extension : String) :
    Except Failure (List Identifier) × World :=
  match Language.grammar? extension with
  | none => (.ok [], w)
  | some grammar =>
    match w.trees with
    | some (tree :: rest) =>
      ((tree.identifiers content).mapError Failure.badOffset, { w with trees := some rest })
    | some [] => (.error .noTree, w)
    | none => (.ok (if grammar = .json then [] else Token.identifiers content), w)

theorem cache_setCache_self (w : World) (slot : Nat) {cache : Cache}
    (hkeyed : cache.Holds Checker.KeyedBy w.checkers) :
    (w.setCache slot cache hkeyed).cache slot = cache := by
  simp [World.cache, setCache]

theorem cache_setCache_of_ne (w : World) {slot other : Nat} (h : other ≠ slot) {cache : Cache}
    (hkeyed : cache.Holds Checker.KeyedBy w.checkers) :
    (w.setCache slot cache hkeyed).cache other = w.cache other := by
  have hne : (other == slot) = false := by simpa using h
  simp only [World.cache, setCache, List.lookup_cons, hne]
  congr 1
  induction w.caches with
  | nil => rfl
  | cons e rest ih =>
    obtain ⟨k, c⟩ := e
    by_cases hk : k = slot
    · have ho : (other == k) = false := by simpa [hk] using h
      simp [hk, List.lookup_cons, hne, ih]
    · have hs : (k != slot) = true := by simpa using hk
      simp only [List.filter_cons, hs, if_true, List.lookup_cons, ih]

end World

end Marginalia
