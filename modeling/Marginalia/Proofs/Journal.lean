import Marginalia.Proofs.Fresh
import Marginalia.Proofs.Stages

/-!
# The calls of a run

A run enters each call in its journal before the checker answers it, so the journal has all calls,
the last one of a failing run among them.  Replayed from the checker that serves the run, a journal
gives the texts that the checker had at each call.  Every call names a file that the run has
created, and every place that a call asks about is a character of the file's text at that moment.
-/

namespace Marginalia
set_option autoImplicit false

namespace Checker

/-- The checker after calls, whether they were answered or not. -/
def after (c : Checker) (calls : List Call) : Checker :=
  calls.foldl (fun c call => (c.perform call).2) c

theorem after_concat (c : Checker) (calls : List Call) (call : Call) :
    c.after (calls ++ [call]) = ((c.after calls).perform call).2 := by
  unfold after
  rw [List.foldl_append]
  rfl

def HasIndex (c : Checker) (path : String) (offset : Int) : Prop :=
  ∃ text, c.file? path = some text ∧ 0 ≤ offset ∧ offset < text.length

namespace Call

def Created (calls : List Call) (path : String) : Prop := ∃ content, .create path content ∈ calls

theorem Created.concat {calls : List Call} {path : String} (h : Created calls path) (call : Call) :
    Created (calls ++ [call]) path := by
  obtain ⟨content, hmem⟩ := h
  exact ⟨content, List.mem_append_left _ hmem⟩

/-- After earlier calls, the first of them to the checker `c`, the call is about a file that one of
them has created, and about a place in its text. -/
def Grounded (c : Checker) (before : List Call) : Call → Prop
  | .create _ _ => True
  | .emit _ => True
  | .update path _ => Created before path
  | .diagnostics path => Created before path
  | .info path offset => Created before path ∧ (c.after before).HasIndex path offset
  | .completions path offset => Created before path ∧ (c.after before).HasIndex path offset

def Asks : Call → Prop
  | .create _ _ => False
  | .update _ _ => False
  | _ => True

theorem Asks.file? {call : Call} (h : call.Asks) (c : Checker) (path : String) :
    (c.perform call).2.file? path = c.file? path := by
  cases call with
  | create path content => exact h.elim
  | update path content => exact h.elim
  | _ => rfl

end Call

/-- Every call has its ground in the calls before it. -/
def Grounded (c : Checker) (calls : List Call) : Prop :=
  ∀ before call rest, calls = before ++ call :: rest → call.Grounded c before

theorem grounded_nil (c : Checker) : c.Grounded [] := by
  intro before call rest h
  cases before <;> cases h

theorem Grounded.concat {c : Checker} {calls : List Call} {call : Call} (h : c.Grounded calls)
    (hcall : call.Grounded c calls) : c.Grounded (calls ++ [call]) := by
  intro before call' rest hsplit
  rcases List.eq_nil_or_concat rest with rfl | ⟨init, last, rfl⟩
  · obtain ⟨rfl, hlast⟩ := List.append_inj' hsplit rfl
    cases hlast
    exact hcall
  · rw [List.concat_eq_append, ← List.cons_append, ← List.append_assoc] at hsplit
    obtain ⟨hcalls, -⟩ := List.append_inj' hsplit rfl
    exact h before call' init hcalls

end Checker

/-! ## Where identifiers begin -/

def Identifier.BeginsIn (content : List Char) (x : Identifier) : Prop :=
  0 ≤ x.span.start ∧ x.span.start < content.length

namespace Token

theorem chars_ne_nil_of_read {s : State} {i : Nat} {c : Char} {next : Option Char} {start : Nat}
    {chars : List Char} (h : (s.read i c next).1.mode = .word start chars) : chars ≠ [] := by
  have hcode : ∀ s : State, (s.readCode i c next).mode = .word start chars → chars ≠ [] := by
    intro s h
    rw [(mode_readCode h).2]
    exact List.cons_ne_nil c []
  unfold State.read at h
  cases hmode : s.mode with
  | code =>
    rw [hmode] at h
    exact hcode s h
  | number =>
    rw [hmode] at h
    dsimp only at h
    split at h
    · rw [hmode] at h
      cases h
    · exact hcode s h
  | word start' chars' =>
    rw [hmode] at h
    dsimp only at h
    split at h
    · cases h
      exact List.cons_ne_nil c chars'
    · exact hcode _ h
  | quoted quote escaped =>
    rw [hmode] at h
    cases escaped
    · dsimp only at h
      split at h <;> cases h
    · cases h
  | template escaped =>
    rw [hmode] at h
    cases escaped
    · dsimp only at h
      split at h
      · cases h
      · split at h <;> cases h
    · cases h
  | lineComment =>
    rw [hmode] at h
    dsimp only at h
    split at h <;> cases h
  | blockComment star =>
    rw [hmode] at h
    dsimp only at h
    split at h <;> cases h
  | blockOpening =>
    rw [hmode] at h
    cases h
  | codeOpening =>
    rw [hmode] at h
    cases h

theorem text_ne_nil_of_word {afterPoint : Bool} {start : Nat} {chars : List Char} {x : Identifier}
    (hchars : chars ≠ []) (h : wordIdentifier? afterPoint start chars = some x) : x.text ≠ [] := by
  unfold wordIdentifier? at h
  dsimp only at h
  split at h
  · rw [← Option.some.inj h]
    exact fun hnil => hchars (List.reverse_eq_nil_iff.mp hnil)
  · cases h

theorem text_ne_nil_of_mem_scan {s : State} {i : Nat} {rest : List Char}
    (h : ∀ start chars, s.mode = .word start chars → chars ≠ []) :
    ∀ x ∈ scan s i rest, x.text ≠ [] := by
  induction rest generalizing s i with
  | nil =>
    intro x hx
    unfold scan at hx
    split at hx
    · next start chars hmode =>
      exact text_ne_nil_of_word (h start chars hmode) (Option.mem_toList.mp hx)
    · exact absurd hx List.not_mem_nil
  | cons c rest ih =>
    intro x hx
    simp only [scan] at hx
    rcases List.mem_append.mp hx with hx | hx
    · obtain ⟨start, chars, hmode, hfound⟩ := found_of_read (Option.mem_toList.mp hx)
      exact text_ne_nil_of_word (h start chars hmode) hfound
    · exact ih (fun start chars hmode => chars_ne_nil_of_read hmode) x hx

theorem beginsIn_of_mem_identifiers {content : List Char} :
    ∀ x ∈ identifiers content, x.BeginsIn content := by
  intro x hx
  obtain ⟨start, hspan, hle, -⟩ := standsIn_of_mem_identifiers x hx
  have hne : x.text ≠ [] := text_ne_nil_of_mem_scan (fun _ _ hmode => by cases hmode) x hx
  have hpos := List.length_pos_iff.mpr hne
  unfold Identifier.BeginsIn
  rw [hspan]
  dsimp only
  omega

end Token

namespace Tree

mutual

def NamesWithin (content : List Char) : Tree → Prop
  | node kind first last children =>
    if identifierKinds.contains kind then
      (0 ≤ first ∧ first ≤ Identifier.byteCount content) ∧
        (0 ≤ last ∧ last ≤ Identifier.byteCount content)
    else AllNamesWithin content children

def AllNamesWithin (content : List Char) : List Tree → Prop
  | [] => True
  | t :: rest => t.NamesWithin content ∧ AllNamesWithin content rest

end

theorem beginsIn_of_mem_atBytes {content : List Char} {first last : Int} {xs : List Identifier}
    (hfirst : 0 ≤ first ∧ first ≤ Identifier.byteCount content)
    (hlast : 0 ≤ last ∧ last ≤ Identifier.byteCount content)
    (h : Identifier.atBytes content first last = .ok xs) : ∀ x ∈ xs, x.BeginsIn content := by
  unfold Identifier.atBytes at h
  obtain ⟨start, hstart, h⟩ := Outcome.bind_eq_ok.mp h
  obtain ⟨stop, hstop, rfl⟩ := Outcome.map_eq_ok.mp h
  obtain ⟨hlow, -⟩ := Identifier.charIndex_bounds hfirst.1 hfirst.2 hstart
  obtain ⟨-, hhigh⟩ := Identifier.charIndex_bounds hlast.1 hlast.2 hstop
  intro x hx
  split at hx
  · next hlt =>
    rw [List.mem_singleton.mp hx]
    exact ⟨hlow, Int.lt_of_lt_of_le hlt hhigh⟩
  · exact absurd hx List.not_mem_nil

mutual

theorem beginsIn_of_mem_preorder {content : List Char} {t : Tree} {xs : List Identifier}
    (ht : t.NamesWithin content) (h : t.preorder content = .ok xs) :
    ∀ x ∈ xs, x.BeginsIn content := by
  cases t with
  | node kind first last children =>
    simp only [NamesWithin] at ht
    simp only [preorder] at h
    split at h
    · next hkind =>
      rw [if_pos hkind] at ht
      exact beginsIn_of_mem_atBytes ht.1 ht.2 h
    · next hkind =>
      rw [if_neg hkind] at ht
      exact beginsIn_of_mem_preorderOfAll ht h

theorem beginsIn_of_mem_preorderOfAll {content : List Char} {ts : List Tree}
    {xs : List Identifier} (hts : AllNamesWithin content ts)
    (h : preorderOfAll content ts = .ok xs) : ∀ x ∈ xs, x.BeginsIn content := by
  cases ts with
  | nil =>
    simp only [preorderOfAll] at h
    cases h
    simp
  | cons t rest =>
    simp only [AllNamesWithin] at hts
    simp only [preorderOfAll] at h
    split at h
    · cases h
    · next found hfound =>
      obtain ⟨more, hmore, rfl⟩ := Outcome.map_eq_ok.mp h
      intro x hx
      rcases List.mem_append.mp hx with hx | hx
      · exact beginsIn_of_mem_preorder hts.1 hfound x hx
      · exact beginsIn_of_mem_preorderOfAll hts.2 hmore x hx

end

/-- The identifiers of each supplied tree keep within the text of the section that it is taken
for. -/
def NamesFit (trees : Option (List Tree)) (sections : List Section) : Prop :=
  ∀ ts, trees = some ts → ∀ x ∈ ts.zip sections, x.1.NamesWithin x.2.content

end Tree

theorem Section.read_ok {s : Section} {rest : List Section} {plan : Plan}
    {trees : Option (List Tree)} {xs : List Identifier} (hasks : plan.asksFor s = true)
    (hfit : Tree.NamesFit trees ((s :: rest).filter plan.parses)) (h : (s.read trees).1 = .ok xs) :
    (∀ x ∈ xs, s.contains x.span.start = true) ∧
      Tree.NamesFit (s.read trees).2 (rest.filter plan.parses) := by
  have hshift : ∀ found : List Identifier, (∀ x ∈ found, x.BeginsIn s.content) →
      ∀ x ∈ found.map (Identifier.shift s.offset), s.contains x.span.start = true := by
    intro found hfound x hx
    obtain ⟨y, hy, rfl⟩ := List.mem_map.mp hx
    obtain ⟨hlow, hhigh⟩ := hfound y hy
    apply (Section.contains_iff s _).mpr
    dsimp only [Identifier.shift]
    omega
  unfold Section.read World.identifiers at h ⊢
  cases hgrammar : Language.grammar? s.extension with
  | none =>
    -- Without a grammar there is no parse, so no tree is taken.
    have hparses : ¬ plan.parses s = true := by simp [Plan.parses, hgrammar]
    rw [List.filter_cons_of_neg hparses] at hfit
    rw [hgrammar] at h
    cases h
    exact ⟨fun x hx => absurd hx List.not_mem_nil, hfit⟩
  | some grammar =>
    have hparses : plan.parses s = true := by simp [Plan.parses, hasks, hgrammar]
    rw [List.filter_cons_of_pos hparses] at hfit
    rw [hgrammar] at h
    cases trees with
    | none =>
      cases h
      refine ⟨hshift _ ?_, fun ts hts => by cases hts⟩
      split
      · exact fun x hx => absurd hx List.not_mem_nil
      · exact Token.beginsIn_of_mem_identifiers
    | some ts =>
      cases ts with
      | nil => cases h
      | cons t ts =>
        obtain ⟨found, hfound, rfl⟩ := Outcome.map_eq_ok.mp h
        have hwithin : t.NamesWithin s.content := hfit _ rfl (t, s) List.mem_cons_self
        refine ⟨hshift found ?_, ?_⟩
        · rw [Tree.identifiers_eq_preorder] at hfound
          cases hnames : t.preorder s.content with
          | error fault =>
            rw [hnames] at hfound
            cases hfound
          | ok ys =>
            rw [hnames] at hfound
            cases hfound
            exact Tree.beginsIn_of_mem_preorder hwithin hnames
        · rintro _ ⟨⟩ x hx
          exact hfit _ rfl x (List.mem_cons_of_mem (t, s) hx)

/-! ## What a call leaves -/

namespace Work
open Checker.Call (Created)

variable {job : Job} {plan : Plan} {p : Except Failure Checker} {c : Checker} {d d' : Draft}

/-- The run is served by `p`.  Once it has made a call, its checker is `c` after the calls of the
journal; before, it may be that no checker can be built.  All calls have their ground, and what is
registered was created. -/
structure Orderly (job : Job) (plan : Plan) (p : Except Failure Checker) (c : Checker) (d : Draft) :
    Prop where
  serves : (p = .ok c ∧ ∃ n, d.checker = some n ∧ d.world.checkers[n]? = some (c.after d.journal)) ∨
    (d.checker = none ∧ d.journal = [] ∧
      ((p = .ok c ∧ checker? job plan d = some c) ∨ ∃ e, Serves job plan d (.error e)))
  grounded : c.Grounded d.journal
  registered : ∀ path ∈ d.registered, Created d.journal path

namespace Orderly

theorem congr (h : Orderly job plan p c d) (hnumber : d'.checker = d.checker)
    (hcheckers : d'.world.checkers = d.world.checkers) (hcaches : d'.world.caches = d.world.caches)
    (hjournal : d'.journal = d.journal) (hregistered : d'.registered = d.registered) :
    Orderly job plan p c d' := by
  refine ⟨?_, hjournal ▸ h.grounded, ?_⟩
  · rw [hnumber, hcheckers, hjournal, checker?_congr hnumber hcheckers hcaches]
    refine h.serves.imp_right fun ⟨hnone, hempty, hstart⟩ => ⟨hnone, hempty, hstart.imp_right ?_⟩
    exact fun ⟨e, hserves⟩ => ⟨e, hserves.congr hnumber hcheckers hcaches⟩
  · rw [hregistered, hjournal]
    exact h.registered

theorem exec_reached (h : Orderly job plan p c d) (hp : p = .ok c) {call : Checker.Call}
    (hcall : call.Grounded c d.journal) {n : Nat} {w : World} (hreach : Reaches job plan d n w)
    (hn : w.checkers[n]? = some (c.after d.journal)) :
    ∃ r d', exec (perform job plan call) d = (r, d') ∧ Orderly job plan p c d' ∧
      d'.journal = d.journal ++ [call] ∧ d'.world.trees = d.world.trees := by
  have hrun := hreach.exec_perform call
  refine ⟨_, _, hrun, ⟨Or.inl ⟨hp, n, rfl, ?_⟩, h.grounded.concat hcall, ?_⟩, rfl, hreach.trees_eq⟩
  · obtain ⟨hlt, -⟩ := List.getElem?_eq_some_iff.mp hn
    dsimp only
    rw [(World.perform_of_some hn plan.options call).2, List.getElem?_set_self hlt,
      Checker.after_concat]
  · exact fun path hpath => (h.registered path hpath).concat call

/-- A call that has its ground keeps the journal in order, answered or not.  When it is answered,
the journal has one call more. -/
theorem exec_perform (h : Orderly job plan p c d) (call : Checker.Call)
    (hcall : call.Grounded c d.journal) :
    ∃ r d', exec (perform job plan call) d = (r, d') ∧ Orderly job plan p c d' ∧
      ∀ answer, r = .ok answer →
        d'.journal = d.journal ++ [call] ∧ d'.world.trees = d.world.trees := by
  rcases h.serves with ⟨hp, n, hnumber, hn⟩ | ⟨hnone, hempty, ⟨hp, hchecker⟩ | ⟨e, hserves⟩⟩
  · obtain ⟨r, d', hrun, horderly, hafter⟩ := h.exec_reached hp hcall (Or.inl ⟨hnumber, rfl⟩) hn
    exact ⟨r, d', hrun, horderly, fun _ _ => hafter⟩
  · obtain ⟨n, w, hreach⟩ := exists_reaches hchecker
    have hn : w.checkers[n]? = some (c.after d.journal) := by
      rw [hempty]
      exact hreach.checker?_eq.symm.trans hchecker
    obtain ⟨r, d', hrun, horderly, hafter⟩ := h.exec_reached hp hcall hreach hn
    exact ⟨r, d', hrun, horderly, fun _ _ => hafter⟩
  · obtain ⟨d', hrun, hnumber, hcheckers, hcaches, hjournal, hregistered⟩ :=
      hserves.exec_perform_error call
    exact ⟨_, d', hrun, h.congr hnumber hcheckers hcaches hjournal hregistered,
      fun answer hanswer => by cases hanswer⟩

end Orderly

/-! ## From stage to stage -/

/-- The journal is in order.  The sections of `rest` are still to be registered, the others have
been created; those of `unread` are still to be parsed; and the checker holds the text of the
section that is open. -/
structure Stage (job : Job) (plan : Plan) (p : Except Failure Checker) (c : Checker)
    (rest unread : List Section) (opened : Option Section) (d : Draft) : Prop where
  orderly : Orderly job plan p c d
  created : ∀ s ∈ plan.taken, s ∈ rest ∨ Created d.journal s.path
  held : ∀ s ∈ opened, Created d.journal s.path ∧
    (c.after d.journal).file? s.path = some s.content
  fits : plan.behaviour.showEmit = false →
    Tree.NamesFit d.world.trees (unread.filter plan.parses)

variable {rest unread : List Section} {opened : Option Section} {s : Section}

theorem loose_stage : Loose (Stage job plan p c rest unread opened) where
  notes _ _ h := ⟨h.orderly.congr rfl rfl rfl rfl rfl, h.created, h.held, h.fits⟩
  events _ _ h := ⟨h.orderly.congr rfl rfl rfl rfl rfl, h.created, h.held, h.fits⟩
  hoverCalls _ _ h := ⟨h.orderly.congr rfl rfl rfl rfl rfl, h.created, h.held, h.fits⟩

theorem stage_perform (call : Checker.Call) (hasks : ∀ s ∈ opened, call.Asks) :
    Meets (fun d => Stage job plan p c rest unread opened d ∧ call.Grounded c d.journal)
      (perform job plan call) (fun _ => Stage job plan p c rest unread opened)
      fun _ => Orderly job plan p c := by
  intro d ⟨hd, hcall⟩
  obtain ⟨r, d', hrun, horderly, hanswered⟩ := hd.orderly.exec_perform call hcall
  rw [hrun]
  cases r with
  | error e => exact horderly
  | ok answer =>
    obtain ⟨hjournal, htrees⟩ := hanswered answer rfl
    refine ⟨horderly, ?_, ?_, htrees ▸ hd.fits⟩
    · intro s hs
      rw [hjournal]
      exact (hd.created s hs).imp_right fun hmade => hmade.concat call
    · intro s hs
      obtain ⟨hmade, hfile⟩ := hd.held s hs
      rw [hjournal, Checker.after_concat, (hasks s hs).file?]
      exact ⟨hmade.concat call, hfile⟩

theorem Stage.hasIndex (h : Stage job plan p c rest unread (some s) d) {i : Int}
    (hi : s.contains i = true) :
    Created d.journal s.path ∧ (c.after d.journal).HasIndex s.path (i - s.offset) := by
  obtain ⟨hmade, hfile⟩ := h.held s rfl
  obtain ⟨hlow, hhigh⟩ := (s.contains_iff i).mp hi
  exact ⟨hmade, s.content, hfile, by omega, by omega⟩

theorem stage_register :
    Meets (Stage job plan p c (s :: rest) unread none) (register job plan s)
      (fun _ => Stage job plan p c rest unread (some s)) fun _ => Orderly job plan p c := by
  unfold register
  refine Meets.bind (Q := fun _ => Stage job plan p c rest unread (some s)) ?_ fun _ => ?_
  · intro d hd
    obtain ⟨r, d', hrun, horderly, hanswered⟩ :=
      hd.orderly.exec_perform (.create s.path s.content) trivial
    rw [hrun]
    cases r with
    | error e => exact horderly
    | ok answer =>
      obtain ⟨hjournal, htrees⟩ := hanswered answer rfl
      have hmade : Created d'.journal s.path := by
        rw [hjournal]
        exact ⟨s.content, List.mem_append_right _ List.mem_cons_self⟩
      refine ⟨horderly, ?_, ?_, htrees ▸ hd.fits⟩
      · intro t ht
        rcases hd.created t ht with hmem | hearlier
        · rcases List.mem_cons.mp hmem with rfl | hmem
          · exact Or.inr hmade
          · exact Or.inl hmem
        · rw [hjournal]
          exact Or.inr (hearlier.concat _)
      · rintro _ ⟨⟩
        rw [hjournal, Checker.after_concat] at *
        exact ⟨hmade, Checker.file?_create_self _ s.path s.content⟩
  · refine Meets.bind (Q := fun _ => Stage job plan p c rest unread (some s)) ?_ fun _ =>
      Meets.of_modify fun d hd => loose_stage.events d _ hd
    refine Meets.of_modify fun d hd =>
      ⟨⟨hd.orderly.serves, hd.orderly.grounded, ?_⟩, hd.created, hd.held, hd.fits⟩
    intro path hpath
    rcases List.mem_append.mp hpath with hpath | hpath
    · exact hd.orderly.registered path hpath
    · rw [List.mem_singleton.mp hpath]
      exact (hd.held s rfl).1

theorem stage_identifiers (hemit : plan.behaviour.showEmit = false) :
    Meets (Stage job plan p c rest (s :: rest) (some s))
      (if plan.asksFor s then identifiers s else pure [])
      (fun xs d => Stage job plan p c rest rest (some s) d ∧
        ∀ x ∈ xs, s.contains x.span.start = true) fun _ => Orderly job plan p c := by
  split
  · next hasks =>
    intro d hd
    rw [exec_identifiers]
    cases hread : (s.read d.world.trees).1 with
    | error e => exact hd.orderly.congr rfl rfl rfl rfl rfl
    | ok xs =>
      obtain ⟨hbegin, hfit⟩ := Section.read_ok hasks (hd.fits hemit) hread
      exact ⟨⟨hd.orderly.congr rfl rfl rfl rfl rfl, hd.created, hd.held, fun _ => hfit⟩, hbegin⟩
  · next hasks =>
    have hparses : ¬ plan.parses s = true := by simp [Plan.parses, hasks]
    refine Meets.of_pure fun d hd => ⟨⟨hd.orderly, hd.created, hd.held, ?_⟩, by simp⟩
    intro _
    have hfit := hd.fits hemit
    rw [List.filter_cons_of_neg hparses] at hfit
    exact hfit

theorem stage_collect (hemit : plan.behaviour.showEmit = false) :
    Meets (Stage job plan p c rest (s :: rest) (some s)) (collect job plan s)
      (fun _ => Stage job plan p c rest rest (some s)) fun _ => Orderly job plan p c := by
  have hcalls : Collects job plan s (fun i => s.contains i = true)
      (Stage job plan p c rest rest (some s)) fun _ => Orderly job plan p c :=
    { loose := loose_stage
      info := fun i hi => (stage_perform (.info s.path (i - s.offset)) fun _ _ => trivial).mono
        (fun d hd => ⟨hd, hd.hasIndex hi⟩) fun _ _ hd => hd
      completions := fun i hi =>
        (stage_perform (.completions s.path (i - s.offset)) fun _ _ => trivial).mono
          (fun d hd => ⟨hd, hd.hasIndex hi⟩) fun _ _ hd => hd
      unresolved := fun _ _ d hd => hd.orderly }
  rw [collect_eq]
  exact Meets.bind (stage_identifiers hemit) fun xs =>
    Meets.of_and fun hxs => hcalls.collectFrom hxs fun _ hi => hi

theorem stage_populate :
    Meets (Stage job plan p c plan.taken plan.taken none) (populate job plan)
      (fun _ => Stage job plan p c [] [] none) fun _ => Orderly job plan p c := by
  unfold populate
  refine @Meets.forM _ _ (fun rest => Stage job plan p c rest rest none) _ _ fun s rest _ => ?_
  refine Meets.bind stage_register fun _ => ?_
  cases hemit : plan.behaviour.showEmit with
  | true =>
    refine Meets.of_pure fun d hd => ⟨hd.orderly, hd.created, fun s hs => (by cases hs), ?_⟩
    intro hfalse
    cases hemit.symm.trans hfalse
  | false =>
    exact (stage_collect hemit).mono (fun d hd => hd) fun _ d hd =>
      ⟨hd.orderly, hd.created, fun s hs => (by cases hs), hd.fits⟩

theorem stage_diagnose :
    Meets (Stage job plan p c [] [] none) (diagnose job plan)
      (fun _ => Stage job plan p c [] [] none) fun _ => Orderly job plan p c := by
  -- Errors are asked of sources, and all sources have been registered.
  apply Meets.diagnose (R := fun _ => True)
  · intro s hs hsource
    have htaken : s ∈ plan.taken := List.mem_filter.mpr ⟨hs, Plan.registers_of_isSource hsource⟩
    refine (stage_perform (.diagnostics s.path) fun _ _ => trivial).mono ?_ fun _ _ hd => hd
    exact fun d hd => ⟨hd, (hd.created s htaken).resolve_left List.not_mem_nil⟩
  · exact fun _ _ _ _ => trivial
  · exact fun d found keep hd _ => loose_stage.notes d _ hd
  · exact fun d e hd => loose_stage.events d _ hd
  · exact fun _ _ _ _ d hd => hd.orderly

theorem stage_emits :
    Emits job plan (Stage job plan p c [] [] none) fun _ => Orderly job plan p c where
  loose := loose_stage
  update s := by
    refine (stage_perform (.update s.path s.content) fun s hs => by cases hs).mono ?_ fun _ _ hd => hd
    intro d ⟨hd, hregistered⟩
    exact ⟨hd, hd.orderly.registered s.path (List.contains_iff_mem.mp hregistered)⟩
  emit path := (stage_perform (.emit path) fun _ _ => trivial).mono (fun d hd => ⟨hd, trivial⟩)
    fun _ _ hd => hd
  missingSource _ _ d hd := hd.orderly
  missingOutput _ _ _ d hd := hd.orderly

theorem checker?_of_serving {w : World} (h : w.serving job.slot job.script plan.options = .ok c) :
    checker? job plan { world := w } = some c := by
  unfold World.serving at h
  unfold checker?
  dsimp only
  cases hcached : w.cached? job.slot plan.options with
  | none =>
    rw [hcached] at h
    dsimp only at h ⊢
    rw [h]
    rfl
  | some n =>
    obtain ⟨old, hold, -⟩ := (w.guarded_keyed job.slot).cached hcached
    rw [hcached] at h
    dsimp only at h ⊢
    rw [hold] at h ⊢
    exact congrArg some (Except.ok.inj h)

theorem orderly_start {w : World} (plan : Plan) :
    ∃ c, Orderly job plan (w.serving job.slot job.script plan.options) c { world := w } := by
  have hserves : Serves job plan { world := w } (w.serving job.slot job.script plan.options) :=
    (stands_start (w.guarded_keyed job.slot)).shows.serves
  cases hserving : w.serving job.slot job.script plan.options with
  | ok c =>
    refine ⟨c, Or.inr ⟨rfl, rfl, Or.inl ⟨rfl, ?_⟩⟩, c.grounded_nil, fun path hpath => by cases hpath⟩
    exact checker?_of_serving hserving
  | error e =>
    rw [hserving] at hserves
    refine ⟨{ options := [] }, Or.inr ⟨rfl, rfl, Or.inr ⟨e, hserves⟩⟩, Checker.grounded_nil _, ?_⟩
    exact fun path hpath => by cases hpath

/-- All calls of a run have their ground, whether the run succeeds or fails. -/
theorem orderly_run (job : Job) {start plan : Plan} {tags : List Note} {w : World}
    (hread : start.read job.vocabulary job.root job.code = .ok (plan, tags))
    (htrees : Tree.NamesFit w.trees plan.parsed) :
    ∃ c, Orderly job plan (w.serving job.slot job.script plan.options) c
      (exec (run job start) { world := w }).2 := by
  obtain ⟨c, hstart⟩ := orderly_start plan
  refine ⟨c, ?_⟩
  have hfits : plan.behaviour.showEmit = false →
      Tree.NamesFit w.trees (plan.taken.filter plan.parses) := by
    intro hemit
    unfold Plan.parsed at htrees
    rw [hemit] at htrees
    exact htrees
  have hrun := Meets.run hread loose_stage stage_populate stage_diagnose stage_emits
    { world := w } ⟨hstart, fun s hs => Or.inl hs, fun s hs => (by cases hs), hfits⟩
  rcases hexec : exec (run job start) { world := w } with ⟨e | r, d⟩
  · rw [hexec] at hrun
    exact hrun
  · rw [hexec] at hrun
    exact hrun.orderly

end Work

namespace Annotator

/-- The calls to its checker that one call of an annotator makes, in their order. -/
def journal (a : Annotator) (q : Request) (w : World) : List Checker.Call :=
  match a.plan q with
  | .error _ => []
  | .ok plan => (Work.exec (Work.run (a.job q) plan) { world := w }).2.journal

/-- Every call that a run makes has its ground, whether the run succeeds or fails.  The checker that
serves the run is changed by the calls of the journal one after the other.  When it is asked about
the errors of a file or told to change it, the run has created the file before; when it is asked
about a place, the text that it holds at that moment has a character there. -/
theorem journal_grounded (a : Annotator) (q : Request) (w : World)
    (htrees : ∀ plan tags, a.reading q = .ok (plan, tags) → Tree.NamesFit w.trees plan.parsed) :
    ∀ before call rest, a.journal q w = before ++ call :: rest →
      ∃ (plan : Plan) (tags : List Note) (c : Checker) (n : Nat), a.reading q = .ok (plan, tags) ∧
        w.serving a.slot a.script plan.options = .ok c ∧
        (a.annotate q w).2.checkers[n]? = some (c.after (a.journal q w)) ∧
        call.Grounded c before := by
  intro before call rest hjournal
  unfold journal annotate reading at *
  cases hplan : a.plan q with
  | error e =>
    rw [hplan] at hjournal
    cases before <;> cases hjournal
  | ok start =>
    rw [hplan] at hjournal htrees
    rw [Outcome.ok_bind] at htrees ⊢
    dsimp only at hjournal ⊢
    cases hread : start.read (a.job q).vocabulary a.root q.code with
    | error e =>
      rw [Work.exec_run_of_read_error (a.job q) hread] at hjournal
      cases before <;> cases hjournal
    | ok x =>
      obtain ⟨plan, tags⟩ := x
      obtain ⟨c, horderly⟩ := Work.orderly_run (a.job q) hread (htrees plan tags hread)
      rcases horderly.serves with ⟨hserving, n, -, hn⟩ | ⟨-, hempty, -⟩
      · exact ⟨plan, tags, c, n, rfl, hserving, hn,
          horderly.grounded before call rest hjournal⟩
      · rw [hempty] at hjournal
        cases before <;> cases hjournal

/-- A query in the second of two files, behind a letter of two bytes. -/
theorem journal_grounded_example :
    let a : Annotator := { script := { quickInfo := [("x", .str "let x")] }, declarations := [] }
    let text := "// @filename: b.ts\nlet é = x\n//      ^?\n".toList
    let q : Request := { code := "let z\n".toList ++ text }
    let w : World := { trees := some [.node "program" 0 6 [.node "identifier" 4 5 []],
      .node "program" 0 41 [.node "identifier" 23 25 [], .node "identifier" 28 29 []]] }
    let before : List Checker.Call := [.create "/index.ts" "let z\n".toList, .info "/index.ts" 4,
      .create "/b.ts" text, .info "/b.ts" 23, .info "/b.ts" 27]
    (∀ plan tags, a.reading q = .ok (plan, tags) → Tree.NamesFit w.trees plan.parsed) ∧
      a.journal q w =
        before ++ .info "/b.ts" 27 :: [.diagnostics "/index.ts", .diagnostics "/b.ts"] ∧
      ∃ c : Checker, (c.after before).HasIndex "/b.ts" 27 := by
  intro a text q w before
  have hread : ((a.reading q).toOption.map fun x => x.1.parsed.map Section.content) =
      some ["let z\n".toList, text] := by
    decide +kernel
  have hjournal : a.journal q w =
      before ++ .info "/b.ts" 27 :: [.diagnostics "/index.ts", .diagnostics "/b.ts"] := by
    decide +kernel
  have hfit : ∀ plan tags, a.reading q = .ok (plan, tags) → Tree.NamesFit w.trees plan.parsed := by
    intro plan tags hreading
    rw [hreading] at hread
    have hparsed : plan.parsed.map Section.content = ["let z\n".toList, text] :=
      Option.some.inj hread
    rintro ts ⟨⟩ x hx
    have hmem := List.mem_map_of_mem (f := Prod.map id Section.content) hx
    rw [← List.zip_map_right, hparsed] at hmem
    simp only [List.zip_cons_cons, List.zip_nil_right, List.mem_cons, List.not_mem_nil, or_false,
      Prod.map, id, Prod.mk.injEq] at hmem
    rcases hmem with ⟨htree, htext⟩ | ⟨htree, htext⟩
    · rw [htree, htext]
      simp only [Tree.NamesWithin, Tree.AllNamesWithin]
      decide
    · rw [htree, htext]
      simp only [Tree.NamesWithin, Tree.AllNamesWithin]
      decide
  obtain ⟨plan, tags, c, n, -, -, -, hground⟩ :=
    journal_grounded a q w hfit before (.info "/b.ts" 27) _ hjournal
  exact ⟨hfit, hjournal, c, hground.2⟩

end Annotator

end Marginalia
