import Marginalia.Proofs.Hover
import Marginalia.Proofs.Order
import Marginalia.Proofs.Setting

/-!
# Calls without hovers

A call can be told to leave out the hovers.  It then looks for identifiers only in sections that a
marker points into, so it takes fewer trees and sends its checker fewer requests.  Apart from that
it keeps in step with the call that has hovers: both fail alike, or both give the same text, the same
plan but for the option, and the same notes but for the hovers.
-/

namespace Marginalia
set_option autoImplicit false

def Behaviour.silent (b : Behaviour) : Behaviour := { b with noStaticSemanticInfo := true }

def Plan.silent (p : Plan) : Plan := { p with behaviour := p.behaviour.silent }

def Note.isHover (n : Note) : Bool :=
  match n.body with
  | .hover _ => true
  | _ => false

/-- All notes but the hovers. -/
def Note.others (notes : List Note) : List Note := notes.filter fun n => !n.isHover

/-- The result without its hovers, as if they had not been wanted. -/
def Result.silent (r : Result) : Result := ⟨r.code, Note.others r.notes, r.plan.silent⟩

/-! ## Identifiers -/

/-- Trees for the sections in their order, as a parser gives them.  Without a parser nothing is
supplied and identifiers are found by tokens. -/
def Tree.supply (parser : Option (List Char → String → Tree)) (sections : List Section) :
    Option (List Tree) :=
  parser.map fun parse => sections.map fun s => parse s.content s.extension

def Section.found (parser : Option (List Char → String → Tree)) (s : Section) :
    Except Failure (List Identifier) :=
  (s.read (Tree.supply parser [s])).1

theorem Section.exists_found {parser : Option (List Char → String → Tree)} {s : Section}
    (h : ∀ parse, parser = some parse →
      ∃ xs, (parse s.content s.extension).identifiers s.content = .ok xs) :
    ∃ xs, s.found parser = .ok xs := by
  unfold found read World.identifiers
  cases Language.grammar? s.extension with
  | none => exact ⟨_, rfl⟩
  | some grammar =>
    cases parser with
    | none => exact ⟨_, rfl⟩
    | some parse =>
      obtain ⟨xs, hxs⟩ := h parse rfl
      have hshifted : (((parse s.content s.extension).identifiers s.content).mapError
          Failure.badOffset).map (List.map (Identifier.shift s.offset)) =
            .ok (xs.map (Identifier.shift s.offset)) := by
        rw [hxs]
        rfl
      exact ⟨_, hshifted⟩

theorem Plan.readSection_supply (plan : Plan) (parser : Option (List Char → String → Tree))
    (s : Section) (rest : List Section) :
    plan.readSection (Tree.supply parser ((s :: rest).filter plan.parses)) s =
      (if plan.asksFor s then s.found parser else .ok [],
        Tree.supply parser (rest.filter plan.parses)) := by
  unfold readSection
  cases hasks : plan.asksFor s with
  | false =>
    have hparses : ¬ plan.parses s = true := by simp [parses, hasks]
    rw [List.filter_cons_of_neg hparses]
    rfl
  | true =>
    unfold Section.found Section.read World.identifiers
    cases hgrammar : Language.grammar? s.extension with
    | none =>
      have hparses : ¬ plan.parses s = true := by simp [parses, hgrammar]
      rw [List.filter_cons_of_neg hparses]
      rfl
    | some grammar =>
      -- The section is parsed, and the tree that is next is its own.
      have hparses : plan.parses s = true := by simp [parses, hasks, hgrammar]
      rw [List.filter_cons_of_pos hparses]
      cases parser <;> rfl

theorem Plan.exists_found {plan : Plan} {parser : Option (List Char → String → Tree)} {s : Section}
    (h : plan.parses s = true → ∃ xs, s.found parser = .ok xs) :
    ∃ xs, (if plan.asksFor s then s.found parser else .ok []) = .ok xs := by
  cases hasks : plan.asksFor s with
  | false => exact ⟨[], rfl⟩
  | true =>
    rw [if_pos rfl]
    cases hgrammar : Language.grammar? s.extension with
    | none =>
      refine ⟨[], ?_⟩
      unfold Section.found Section.read World.identifiers
      rw [hgrammar]
      rfl
    | some grammar => exact h (by simp [Plan.parses, hasks, hgrammar])

theorem Plan.asksFor_of_silent {plan : Plan} {s : Section} (h : plan.silent.asksFor s = true) :
    plan.asksFor s = true := by
  unfold asksFor at h ⊢
  rw [Bool.or_assoc, Bool.or_eq_true] at h ⊢
  exact h.imp (fun hfalse => by cases hfalse) id

/-! ## Notes -/

namespace Note

theorem others_append (xs ys : List Note) : others (xs ++ ys) = others xs ++ others ys :=
  List.filter_append xs ys

theorem others_eq_self {notes : List Note} (h : ∀ n ∈ notes, n.isHover = false) :
    others notes = notes := by
  apply List.filter_eq_self.mpr
  intro n hn
  rw [h n hn]
  rfl

theorem others_eq_nil {notes : List Note} (h : ∀ n ∈ notes, n.isHover = true) :
    others notes = [] := by
  apply List.filter_eq_nil_iff.mpr
  intro n hn
  rw [h n hn]
  exact Bool.false_ne_true

theorem isHover_congr {m n : Note} (h : m.body = n.body) : m.isHover = n.isHover := by
  unfold isHover
  rw [h]

theorem others_map {f : Note → Note} (hf : ∀ n, (f n).body = n.body) (notes : List Note) :
    others (notes.map f) = (others notes).map f := by
  unfold others
  rw [List.filter_map]
  congr 1
  apply List.filter_congr
  intro n _
  exact congrArg (!·) (isHover_congr (hf n))

theorem others_filter (p : Note → Bool) (notes : List Note) :
    others (notes.filter p) = (others notes).filter p :=
  List.filter_comm _ _ notes

theorem resolveAll_others (code : List Char) (notes : List Note) :
    resolveAll code (others notes) = others (resolveAll code notes) := by
  unfold resolveAll
  rw [others_map (f := resolve code) fun n => rfl, ← others_filter]
  congr 1
  exact Sorting.sort_filter precedes_trans precedes_total _ _

end Note

namespace Answered
variable {job : Job} {plan : Plan} {c : Checker} {s : Section} {xs ys : List Identifier}

theorem joined_others (x y : Except Failure (List Note)) :
    joined (x.map Note.others) (y.map Note.others) = (joined x y).map Note.others := by
  cases x with
  | error e => rfl
  | ok xs =>
    cases y with
    | error e => rfl
    | ok ys => exact congrArg Except.ok (Note.others_append xs ys).symm

def pointed (job : Job) (plan : Plan) (c : Checker) (s : Section) (xs : List Identifier) :
    Except Failure (List Note) :=
  joined (queries job plan c s xs) (joined (highlights job plan c s xs) (completions job plan c s))

theorem others_of_pointed {found : List Note} (h : pointed job plan c s xs = .ok found) :
    Note.others found = found := by
  obtain ⟨qs, rest, hqueries, hrest, rfl⟩ := joined_ok h
  obtain ⟨ms, cs, hhighlights, hcompletions, rfl⟩ := joined_ok hrest
  apply Note.others_eq_self
  intro n hn
  rcases List.mem_append.mp hn with hn | hn
  · obtain ⟨i, x, known, -, -, -, rfl⟩ := exists_of_mem_queries hqueries hn
    rfl
  · rcases List.mem_append.mp hn with hn | hn
    · obtain ⟨label, x, known, -, rfl⟩ := exists_of_mem_highlights hhighlights hn
      rfl
    · obtain ⟨i, offered, -, -, rfl⟩ := exists_of_mem_completions hcompletions hn
      rfl

theorem pointed_silent (h : plan.silent.asksFor s = true → xs = ys) :
    pointed job plan.silent c s xs = pointed job plan c s ys := by
  cases hasks : plan.silent.asksFor s with
  | true =>
    rw [h hasks]
    rfl
  | false =>
    unfold Plan.asksFor at hasks
    simp only [Bool.or_eq_false_iff, Bool.not_eq_false', List.isEmpty_iff] at hasks
    have hqueries : plan.asked.queries.filter s.contains = [] := hasks.1.2
    have hhighlights : plan.asked.highlights.filter (fun h => s.contains h.span.start) = [] := hasks.2
    have hnothing : ∀ xs, pointed job plan c s xs = completions job plan c s := by
      intro xs
      unfold pointed queries highlights
      rw [hqueries, hhighlights]
      exact (joined_nil_left _).trans (joined_nil_left _)
    calc pointed job plan.silent c s xs = pointed job plan c s xs := rfl
      _ = pointed job plan c s ys := by rw [hnothing xs, hnothing ys]

theorem notes_silent (c : Checker) (h : plan.silent.asksFor s = true → xs = ys) :
    notes job plan.silent (c.create s.path s.content) s xs =
      (notes job plan (c.create s.path s.content) s ys).map Note.others := by
  have hquiet : notes job plan.silent (c.create s.path s.content) s xs =
      joined (.ok []) (pointed job plan (c.create s.path s.content) s ys) := by
    rw [← pointed_silent h]
    rfl
  have hhovers : ∃ hs, hovers job plan (c.create s.path s.content) s ys = .ok hs ∧
      Note.others hs = [] := by
    cases hfound : hovers job plan (c.create s.path s.content) s ys with
    | ok hs =>
      refine ⟨hs, rfl, Note.others_eq_nil fun n hn => ?_⟩
      obtain ⟨x, known, -, rfl⟩ := exists_of_mem_hovers hfound hn
      rfl
    | error e =>
      unfold hovers at hfound
      split at hfound
      · cases hfound
      · rw [Outcome.filterMapM_of_ok fun x _ => hover_create x] at hfound
        cases hfound
  obtain ⟨hs, hhovers, hnone⟩ := hhovers
  have hloud : notes job plan (c.create s.path s.content) s ys =
      joined (.ok hs) (pointed job plan (c.create s.path s.content) s ys) := by
    rw [← hhovers]
    rfl
  rw [hquiet, hloud, joined_nil_left]
  cases hpointed : pointed job plan (c.create s.path s.content) s ys with
  | error e => rfl
  | ok found =>
    have hothers : Note.others (hs ++ found) = found := by
      rw [Note.others_append, hnone, others_of_pointed hpointed]
      rfl
    exact congrArg Except.ok hothers.symm

section Populate
variable {parser : Option (List Char → String → Tree)} {quietTrees loudTrees : Option (List Tree)}

theorem collected_silent (c : Checker) (hemit : plan.behaviour.showEmit = false) (rest : List Section)
    (hread : plan.parses s = true → ∃ xs, s.found parser = .ok xs) :
    collected job plan.silent (c.create s.path s.content) s
        (Tree.supply parser ((s :: rest).filter plan.silent.parses)) =
      (collected job plan (c.create s.path s.content) s
        (Tree.supply parser ((s :: rest).filter plan.parses))).map Note.others := by
  have hsame : plan.silent.behaviour.showEmit = false := hemit
  unfold collected
  rw [hemit, hsame, if_neg Bool.false_ne_true, if_neg Bool.false_ne_true,
    Plan.readSection_supply, Plan.readSection_supply]
  obtain ⟨ys, hys⟩ := Plan.exists_found hread
  dsimp only
  rw [hys, Outcome.ok_bind]
  cases hasks : plan.silent.asksFor s with
  | false =>
    rw [if_neg Bool.false_ne_true, Outcome.ok_bind]
    exact notes_silent c fun htrue => by rw [hasks] at htrue; cases htrue
  | true =>
    rw [if_pos (Plan.asksFor_of_silent hasks)] at hys
    rw [if_pos rfl, hys, Outcome.ok_bind]
    exact notes_silent c fun _ => rfl

/-- The two calls go through the sections in step.  Each takes the trees of the sections that it
parses itself. -/
theorem populated_silent {p : Except Failure Checker} {sections : List Section}
    (htrees : plan.behaviour.showEmit = false →
      quietTrees = Tree.supply parser (sections.filter plan.silent.parses) ∧
      loudTrees = Tree.supply parser (sections.filter plan.parses) ∧
      ∀ s ∈ sections, plan.parses s = true → ∃ xs, s.found parser = .ok xs) :
    populated job plan.silent p quietTrees sections =
      (populated job plan p loudTrees sections).map Note.others := by
  induction sections generalizing p quietTrees loudTrees with
  | nil => rfl
  | cons s rest ih =>
    unfold populated
    cases p with
    | error e => rfl
    | ok c =>
      rw [Outcome.ok_bind, Outcome.ok_bind]
      dsimp only
      rw [← joined_others]
      cases hemit : plan.behaviour.showEmit with
      | true =>
        have hnone : collected job plan.silent (c.create s.path s.content) s quietTrees =
            (collected job plan (c.create s.path s.content) s loudTrees).map Note.others := by
          have hsame : plan.silent.behaviour.showEmit = true := hemit
          unfold collected
          rw [hemit, hsame]
          rfl
        rw [hnone]
        congr 1
        exact ih fun hfalse => by rw [hemit] at hfalse; cases hfalse
      | false =>
        obtain ⟨rfl, rfl, hread⟩ := htrees hemit
        have hsame : plan.silent.behaviour.showEmit = false := hemit
        rw [collected_silent c hemit rest (hread s List.mem_cons_self)]
        congr 1
        apply ih
        intro _
        unfold treesAfter
        rw [hemit, hsame, if_neg Bool.false_ne_true, if_neg Bool.false_ne_true,
          Plan.readSection_supply, Plan.readSection_supply]
        exact ⟨rfl, rfl, fun t ht => hread t (List.mem_cons_of_mem s ht)⟩

end Populate

/-! ## Making the result -/

theorem finished_silent (plan : Plan) (text : List Char) (notes : List Note) :
    finished plan.silent text (Note.others notes) = (finished plan text notes).silent := by
  unfold finished
  have hsame : plan.silent.behaviour.keepNotations = plan.behaviour.keepNotations := rfl
  rw [hsame]
  cases plan.behaviour.keepNotations with
  | true =>
    simp only [if_true, Note.resolveAll_others]
    rfl
  | false =>
    have hmoved : (Note.others notes).map plan.settled = Note.others (notes.map plan.settled) :=
      (Note.others_map plan.body_settled notes).symm
    have hnotes : Note.resolveAll (Span.eraseText text plan.removals)
        ((Note.others notes).map plan.settled) =
          Note.others (Note.resolveAll (Span.eraseText text plan.removals)
            (notes.map plan.settled)) := by
      rw [hmoved, Note.resolveAll_others]
    exact congrArg (Result.mk (Span.eraseText text plan.removals) ·
      { plan.silent with removals := Span.mergeDescending plan.removals }) hnotes

theorem ending_silent (p : Except Failure Checker) (notes : List Note) :
    ending job plan.silent p (Note.others notes) = (ending job plan p notes).map Result.silent := by
  unfold ending
  have hsame : plan.silent.behaviour.showEmit = plan.behaviour.showEmit := rfl
  rw [hsame]
  cases plan.behaviour.showEmit with
  | false => exact congrArg Except.ok (finished_silent plan job.code notes)
  | true =>
    have hrefreshed : ∀ paths, Work.refreshed job plan.silent paths =
        Work.refreshed job plan paths := fun _ => rfl
    have htaken : plan.silent.taken = plan.taken := rfl
    have hshown : ∀ p, shown job plan.silent p = (shown job plan p).map fun x => (x.1, x.2.silent) :=
      shown_changed (Behaviour.changes_switch (Or.inr rfl))
    rw [if_pos rfl, if_pos rfl, htaken, hrefreshed, hshown]
    cases shown job plan
        (p.map (·.holding (Work.refreshed job plan (plan.taken.map Section.path)))) with
    | error e => rfl
    | ok x => exact congrArg Except.ok (finished_silent x.2 x.1 [])

theorem outcome_silent (parser : Option (List Char → String → Tree))
    {quietTrees loudTrees : Option (List Tree)} {tags : List Note} (p : Except Failure Checker)
    (htags : ∀ n ∈ tags, n.isHover = false)
    (htrees : plan.behaviour.showEmit = false →
      quietTrees = Tree.supply parser (plan.taken.filter plan.silent.parses) ∧
      loudTrees = Tree.supply parser (plan.taken.filter plan.parses) ∧
      ∀ s ∈ plan.taken, plan.parses s = true → ∃ xs, s.found parser = .ok xs) :
    outcome job plan.silent tags p quietTrees =
      (outcome job plan tags p loudTrees).map Result.silent := by
  unfold outcome
  have htaken : plan.silent.taken = plan.taken := rfl
  have hdiagnosed : ∀ k, diagnosed job plan.silent k = diagnosed job plan k := fun _ => rfl
  rw [htaken, populated_silent htrees]
  cases populated job plan p loudTrees plan.taken with
  | error e => rfl
  | ok found =>
    have hfound : (Except.ok found : Except Failure _).map Note.others = .ok (Note.others found) := rfl
    rw [hfound, Outcome.ok_bind, Outcome.ok_bind, hdiagnosed]
    cases herrors : diagnosed job plan (p.map (·.holding plan.taken)) with
    | error e => rfl
    | ok errors =>
      have herror : ∀ n ∈ errors, n.isHover = false := by
        intro n hn
        obtain ⟨_, _, _, _, _, hbody⟩ := body_of_mem_errors herrors hn
        unfold Note.isHover
        rw [hbody]
      have hnotes : (tags ++ Note.others found).filter job.keeps ++ errors =
          Note.others ((tags ++ found).filter job.keeps ++ errors) := by
        rw [Note.others_append, Note.others_filter, Note.others_append, Note.others_eq_self htags,
          Note.others_eq_self herror]
      rw [Outcome.ok_bind, Outcome.ok_bind, hnotes]
      exact ending_silent _ _

end Answered

namespace Annotator

/-- The sections that a call parses, in their order. -/
def parsed (a : Annotator) (q : Request) : List Section :=
  match a.reading q with
  | .ok x => x.1.parsed
  | .error _ => []

/-- The outcome of a call when the sections that it parses are parsed by a function of their texts and
extensions. -/
def parsing (a : Annotator) (parser : Option (List Char → String → Tree)) (q : Request) (w : World) :
    Except Failure Result :=
  (a.annotate q { w with trees := Tree.supply parser (a.parsed q) }).1

theorem parsing_eq (a : Annotator) (parser : Option (List Char → String → Tree)) (q : Request)
    (w : World) :
    a.parsing parser q w = (a.reading q >>= fun x =>
      Answered.outcome (a.job q) x.1 x.2 (w.serving a.slot a.script x.1.options)
        (Tree.supply parser (a.parsed q))) :=
  annotate_fst a q { w with trees := Tree.supply parser (a.parsed q) }

/-- Turning hovers off changes nothing else.  If no flag of the sample turns them on or off and the
trees of its sections can be read, then the call without hovers fails as the call with hovers does,
or it gives that call's text, its plan but for the option, and its notes but for the hovers. -/
theorem parsing_silent (a : Annotator) (q : Request) (w : World) (quiet loud : Entries)
    (parser : Option (List Char → String → Tree)) (h : a.Switches .noStaticSemanticInfo quiet loud)
    (hflags : ∀ flags, Flag.findAll (a.job q).vocabulary q.code = .ok flags →
      ∀ f ∈ flags, ¬ f.Sets .noStaticSemanticInfo)
    (htrees : ∀ parse, parser = some parse → ∀ s ∈ a.parsed { q with behaviour := loud },
      ∃ xs, (parse s.content s.extension).identifiers s.content = .ok xs) :
    a.parsing parser { q with behaviour := quiet } w =
      (a.parsing parser { q with behaviour := loud } w).map Result.silent := by
  have hreading : a.reading { q with behaviour := quiet } =
      (a.reading { q with behaviour := loud }).map fun x => (x.1.silent, x.2) :=
    h.reading_eq (Or.inr rfl) q hflags
  rw [parsing_eq, parsing_eq, hreading]
  unfold parsed at htrees ⊢
  rw [hreading]
  cases hloud : a.reading { q with behaviour := loud } with
  | error e => rfl
  | ok x =>
    obtain ⟨plan, tags⟩ := x
    have hmap : (Except.ok (plan, tags) : Except Failure _).map
        (fun x : Plan × List Note => (x.1.silent, x.2)) = .ok (plan.silent, tags) := rfl
    rw [hloud] at htrees
    rw [hmap, Outcome.ok_bind, Outcome.ok_bind]
    refine Answered.outcome_silent parser _ ?_ ?_
    · intro n hn
      obtain ⟨_, _, hbody⟩ := body_of_mem_tags hloud hn
      unfold Note.isHover
      rw [hbody]
    · intro hemit
      have hparsed : plan.parsed = plan.taken.filter plan.parses := by
        unfold Plan.parsed
        rw [hemit]
        rfl
      have hsilent : plan.silent.parsed = plan.taken.filter plan.silent.parses := by
        have hsame : plan.silent.behaviour.showEmit = false := hemit
        unfold Plan.parsed
        rw [hsame]
        rfl
      refine ⟨congrArg (Tree.supply parser) hsilent, congrArg (Tree.supply parser) hparsed, ?_⟩
      intro s hs hparses
      apply Section.exists_found
      intro parse hparse
      apply htrees parse hparse
      dsimp only
      rw [hparsed]
      exact List.mem_filter.mpr ⟨hs, hparses⟩

/-- Two files with a declaration each, and a query in the second. -/
theorem parsing_silent_example :
    let a : Annotator :=
      { script := { quickInfo := [("x", .str "let x"), ("y", .str "let y")] }, declarations := [] }
    let q : Request := { code := "let y\n// @filename: b.ts\nlet x\n//  ^?\n".toList }
    let quiet : Entries := [("no_static_semantic_info", .bool true)]
    let parse : List Char → String → Tree := fun content _ =>
      let first := if content.length = 6 then 4 else 23
      .node "program" 0 content.length [.node "identifier" first (first + 1) []]
    a.Switches .noStaticSemanticInfo quiet [] ∧
      (∀ flags, Flag.findAll (a.job q).vocabulary q.code = .ok flags →
        ∀ f ∈ flags, ¬ f.Sets .noStaticSemanticInfo) ∧
      ∃ loud, a.parsing (some parse) { q with behaviour := [] } {} = .ok loud ∧
        loud.notes.map Note.kindName = ["hover", "hover", "query"] ∧
        a.parsing (some parse) { q with behaviour := quiet } {} = .ok loud.silent ∧
        loud.silent.notes.map Note.kindName = ["query"] := by
  intro a q quiet parse
  have hswitches : a.Switches .noStaticSemanticInfo quiet [] := by
    refine ⟨fun f hf => ?_, rfl, rfl⟩
    cases f with
    | noStaticSemanticInfo => exact absurd rfl hf
    | _ => rfl
  have hflags : ∀ flags, Flag.findAll (a.job q).vocabulary q.code = .ok flags →
      ∀ f ∈ flags, ¬ f.Sets .noStaticSemanticInfo := by
    have hnone : ((Flag.findAll (a.job q).vocabulary q.code).toOption.map List.length) = some 0 := by
      decide +kernel
    intro flags hfound f hf
    rw [hfound] at hnone
    rw [List.length_eq_zero_iff.mp (Option.some.inj hnone)] at hf
    cases hf
  have htrees : ∀ p, some parse = some p → ∀ s ∈ a.parsed { q with behaviour := [] },
      ∃ xs, (p s.content s.extension).identifiers s.content = .ok xs := by
    rintro _ ⟨⟩ s hs
    have hall : (a.parsed { q with behaviour := [] }).all fun s =>
        ((parse s.content s.extension).identifiers s.content).toOption.isSome := by
      decide +kernel
    obtain ⟨xs, hxs⟩ := Option.isSome_iff_exists.mp (List.all_eq_true.mp hall s hs)
    exact ⟨xs, Outcome.eq_ok_of_toOption hxs⟩
  have hrun : ((a.parsing (some parse) { q with behaviour := [] } {}).toOption.map fun r =>
      (r.notes.map Note.kindName, (Note.others r.notes).map Note.kindName)) =
        some (["hover", "hover", "query"], ["query"]) := by
    decide +kernel
  obtain ⟨loud, hloud, hvalues⟩ := Outcome.exists_ok_of_toOption_map hrun
  obtain ⟨hkinds, hothers⟩ := Prod.mk.inj hvalues
  have hsilent := parsing_silent a q {} quiet [] (some parse) hswitches hflags htrees
  rw [hloud] at hsilent
  exact ⟨hswitches, hflags, loud, hloud, hkinds, hsilent, hothers⟩

end Annotator

end Marginalia
