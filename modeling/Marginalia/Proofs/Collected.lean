import Marginalia.Proofs.Fresh
import Marginalia.Proofs.Survival

/-!
# The notes of a result

The notes of a successful call that shows its sample: those of the tags, for every registered
section those of its identifiers and markers, and the errors, each where erasure has left it.
-/

namespace Marginalia
set_option autoImplicit false

namespace Plan

/-- Sections with the identifiers that are read off them.  A section that cannot be read has none. -/
def readAll (p : Plan) : Option (List Tree) → List Section → List (Section × List Identifier)
  | _, [] => []
  | trees, s :: rest =>
    (s, (p.readSection trees s).1.toOption.getD []) :: p.readAll (p.readSection trees s).2 rest

def identified (p : Plan) (trees : Option (List Tree)) : List (Section × List Identifier) :=
  p.readAll trees p.taken

theorem map_fst_readAll (p : Plan) (trees : Option (List Tree)) (sections : List Section) :
    (p.readAll trees sections).map Prod.fst = sections := by
  induction sections generalizing trees with
  | nil => rfl
  | cons s rest ih =>
    unfold readAll
    rw [List.map_cons, ih]

end Plan

theorem Work.errorNote?_eq_some {plan : Plan} {s : Section} {e : Checker.Diagnostic} {n : Note}
    (h : errorNote? plan s e = some n) :
    e.path = s.path ∧ n =
      { start := e.start + s.offset, length := e.length
        body := .error e.code s.filename (errorId e.code (e.start + s.offset) e.length) e.message
          e.category } := by
  unfold errorNote? at h
  dsimp only at h
  split at h
  · cases h
  · next hkept =>
    have hpath : e.path = s.path := by
      simp only [Bool.or_eq_true, bne_iff_ne, not_or, Decidable.not_not] at hkept
      exact hkept.1
    split at h
    · cases h
    · exact ⟨hpath, (Option.some.inj h).symm⟩

namespace Answered
variable {job : Job} {plan : Plan} {p : Except Failure Checker} {found : List Note}

def noted (job : Job) (plan : Plan) (p : Except Failure Checker) (x : Section × List Identifier) :
    Except Failure (List Note) :=
  p >>= fun c => notes job plan (c.create x.1.path x.1.content) x.1 x.2

theorem noted_create (c : Checker) (path : String) (content : List Char) :
    noted job plan (.ok (c.create path content)) = noted job plan (.ok c) := by
  funext x
  have hfile : ((c.create path content).create x.1.path x.1.content).file? x.1.path =
      (c.create x.1.path x.1.content).file? x.1.path := by
    rw [Checker.file?_create_self, Checker.file?_create_self]
  have hknown : ((c.create path content).create x.1.path x.1.content).knowledge =
      (c.create x.1.path x.1.content).knowledge := rfl
  exact notes_congr hknown hfile x.2

theorem joined_ok {first second : Except Failure (List Note)} (h : joined first second = .ok found) :
    ∃ xs ys, first = .ok xs ∧ second = .ok ys ∧ found = xs ++ ys := by
  unfold joined at h
  obtain ⟨xs, hfirst, h⟩ := Outcome.bind_eq_ok.mp h
  obtain ⟨ys, hsecond, h⟩ := Outcome.bind_eq_ok.mp h
  exact ⟨xs, ys, hfirst, hsecond, (Except.ok.inj h).symm⟩

section Sample
variable (hemit : plan.behaviour.showEmit = false) (s : Section) (trees : Option (List Tree))
include hemit

theorem collected_of_not_showEmit (c : Checker) :
    collected job plan c s trees = ((plan.readSection trees s).1 >>= notes job plan c s) := by
  unfold collected
  rw [hemit, if_neg Bool.false_ne_true]

theorem treesAfter_of_not_showEmit : treesAfter plan s trees = (plan.readSection trees s).2 := by
  unfold treesAfter
  rw [hemit, if_neg Bool.false_ne_true]

end Sample

theorem populated_ok (hemit : plan.behaviour.showEmit = false) {trees : Option (List Tree)}
    {sections : List Section} (h : populated job plan p trees sections = .ok found) :
    ∃ parts, (plan.readAll trees sections).mapM (noted job plan p) = .ok parts ∧
      found = parts.flatten := by
  induction sections generalizing p trees found with
  | nil =>
    cases h
    exact ⟨[], rfl, rfl⟩
  | cons s rest ih =>
    unfold populated at h
    obtain ⟨c, rfl, h⟩ := Outcome.bind_eq_ok.mp h
    obtain ⟨here, later, hhere, hlater, rfl⟩ := joined_ok h
    rw [collected_of_not_showEmit hemit] at hhere
    rw [treesAfter_of_not_showEmit hemit] at hlater
    obtain ⟨xs, hread, hnotes⟩ := Outcome.bind_eq_ok.mp hhere
    obtain ⟨parts, hparts, rfl⟩ := ih hlater
    rw [noted_create] at hparts
    have hfirst : noted job plan (.ok c) (s, xs) = .ok here := hnotes
    refine ⟨here :: parts, ?_, rfl⟩
    unfold Plan.readAll
    rw [hread]
    dsimp only [Except.toOption, Option.getD_some]
    rw [List.mapM_cons, hfirst, Outcome.ok_bind, hparts, Outcome.ok_bind]
    rfl

theorem notes_ok {c : Checker} {s : Section} {xs : List Identifier}
    (h : notes job plan c s xs = .ok found) :
    ∃ hs qs ms cs, hovers job plan c s xs = .ok hs ∧ queries job plan c s xs = .ok qs ∧
      highlights job plan c s xs = .ok ms ∧ completions job plan c s = .ok cs ∧
      found = hs ++ (qs ++ (ms ++ cs)) := by
  unfold notes at h
  obtain ⟨hs, asked, hhovers, hasked, rfl⟩ := joined_ok h
  obtain ⟨qs, pointed, hqueries, hpointed, rfl⟩ := joined_ok hasked
  obtain ⟨ms, cs, hhighlights, hcompletions, rfl⟩ := joined_ok hpointed
  exact ⟨hs, qs, ms, cs, hhovers, hqueries, hhighlights, hcompletions, rfl⟩

section Notes
variable {c : Checker} {s : Section} {xs : List Identifier} {n : Note}

theorem exists_of_mem_hovers (h : hovers job plan c s xs = .ok found) (hn : n ∈ found) :
    ∃ x known, (x ∈ xs ∧ c.infoAt s.path (x.span.start - s.offset) = .ok (some known)) ∧
      n = hoverNote x known := by
  unfold hovers at h
  split at h
  · cases h
    exact absurd hn List.not_mem_nil
  · obtain ⟨x, hmem, hx⟩ := Outcome.exists_of_mem_filterMapM h hn
    unfold hover at hx
    split at hx
    · cases hx
    · split at hx
      · cases hx
      · obtain ⟨o, hinfo, ho⟩ := Outcome.map_eq_ok.mp hx
        obtain ⟨known, rfl, rfl⟩ := Option.map_eq_some_iff.mp ho
        exact ⟨x, known, ⟨hmem, hinfo⟩, rfl⟩

theorem query_ok {i : Int} (h : query job c s xs i = .ok n) :
    ∃ x known, xs.find? (·.span.touches i) = some x ∧ n = queryNote i x known := by
  unfold query at h
  split at h
  · cases h
  · next x hx =>
    obtain ⟨o, -, h⟩ := Outcome.bind_eq_ok.mp h
    cases o with
    | none => cases h
    | some known => exact ⟨x, known, hx, (Except.ok.inj h).symm⟩

theorem exists_of_mem_queries (h : queries job plan c s xs = .ok found) (hn : n ∈ found) :
    ∃ i x known, i ∈ plan.asked.queries ∧ s.contains i = true ∧
      xs.find? (·.span.touches i) = some x ∧ n = queryNote i x known := by
  obtain ⟨i, hmem, hi⟩ := Outcome.exists_of_mem_mapM h hn
  obtain ⟨x, known, hx, rfl⟩ := query_ok hi
  obtain ⟨hasked, hs⟩ := List.mem_filter.mp hmem
  exact ⟨i, x, known, hasked, hs, hx, rfl⟩

theorem exists_of_mem_highlights (h : highlights job plan c s xs = .ok found) (hn : n ∈ found) :
    ∃ label x known, (x ∈ xs ∧ c.infoAt s.path (x.span.start - s.offset) = .ok (some known)) ∧
      n = highlightNote label x known := by
  obtain ⟨lists, hlists, rfl⟩ := Outcome.map_eq_ok.mp h
  obtain ⟨part, hpart, hn⟩ := List.mem_flatten.mp hn
  obtain ⟨m, -, hm⟩ := Outcome.exists_of_mem_mapM hlists hpart
  obtain ⟨found, hfound, hm⟩ := Outcome.bind_eq_ok.mp hm
  split at hm
  · cases hm
  · cases hm
    obtain ⟨x, hmem, hx⟩ := Outcome.exists_of_mem_filterMapM hfound hn
    unfold highlighted at hx
    split at hx
    · cases hx
    · obtain ⟨o, hinfo, ho⟩ := Outcome.map_eq_ok.mp hx
      obtain ⟨known, rfl, rfl⟩ := Option.map_eq_some_iff.mp ho
      exact ⟨m.label, x, known, ⟨hmem, hinfo⟩, rfl⟩

theorem exists_of_mem_completions (h : completions job plan c s = .ok found) (hn : n ∈ found) :
    ∃ i offered, i ∈ plan.asked.completions ∧ s.contains i = true ∧
      n = completionNote job i offered := by
  obtain ⟨i, hmem, hi⟩ := Outcome.exists_of_mem_filterMapM h hn
  obtain ⟨hasked, hs⟩ := List.mem_filter.mp hmem
  unfold completion at hi
  split at hi
  · cases hi
  · split at hi
    · cases hi
    · cases hi
      exact ⟨i, _, hasked, hs, rfl⟩

/-- What a note of a section tells of, when the identifiers of the section are known. -/
inductive Tells (job : Job) (plan : Plan) (s : Section) (xs : List Identifier) : Note → Prop where
  | hover {x : Identifier} (known : QuickInfo) (hx : x ∈ xs) : Tells job plan s xs (hoverNote x known)
  | query {i : Int} {x : Identifier} (known : QuickInfo) (hi : i ∈ plan.asked.queries)
      (hs : s.contains i = true) (hx : xs.find? (·.span.touches i) = some x) :
      Tells job plan s xs (queryNote i x known)
  | highlight {x : Identifier} (label : Option String) (known : QuickInfo) (hx : x ∈ xs) :
      Tells job plan s xs (highlightNote label x known)
  | completion {i : Int} (offered : Option (List Completion)) (hi : i ∈ plan.asked.completions)
      (hs : s.contains i = true) : Tells job plan s xs (completionNote job i offered)

theorem tells_of_mem_noted (h : noted job plan p (s, xs) = .ok found) (hn : n ∈ found) :
    Tells job plan s xs n := by
  obtain ⟨c, -, h⟩ := Outcome.bind_eq_ok.mp h
  obtain ⟨hs, qs, ms, cs, hhovers, hqueries, hhighlights, hcompletions, rfl⟩ := notes_ok h
  rcases List.mem_append.mp hn with hn | hn
  · obtain ⟨x, known, ⟨hx, -⟩, rfl⟩ := exists_of_mem_hovers hhovers hn
    exact .hover known hx
  · rcases List.mem_append.mp hn with hn | hn
    · obtain ⟨i, x, known, hi, hs, hx, rfl⟩ := exists_of_mem_queries hqueries hn
      exact .query known hi hs hx
    · rcases List.mem_append.mp hn with hn | hn
      · obtain ⟨label, x, known, ⟨hx, -⟩, rfl⟩ := exists_of_mem_highlights hhighlights hn
        exact .highlight label known hx
      · obtain ⟨i, offered, hi, hs, rfl⟩ := exists_of_mem_completions hcompletions hn
        exact .completion offered hi hs

theorem tells_of_mem_populated (hemit : plan.behaviour.showEmit = false)
    {trees : Option (List Tree)} {sections : List Section}
    (h : populated job plan p trees sections = .ok found) (hn : n ∈ found) :
    ∃ y ∈ plan.readAll trees sections, Tells job plan y.1 y.2 n := by
  obtain ⟨parts, hparts, rfl⟩ := populated_ok hemit h
  obtain ⟨part, hpart, hn⟩ := List.mem_flatten.mp hn
  obtain ⟨y, hy, hnoted⟩ := Outcome.exists_of_mem_mapM hparts hpart
  exact ⟨y, hy, tells_of_mem_noted hnoted hn⟩

end Notes

theorem behaviour_of_shown {text : List Char} {final : Plan}
    (h : shown job plan p = .ok (text, final)) : final.behaviour = plan.behaviour := by
  unfold shown at h
  dsimp only at h
  split at h
  · cases h
  · obtain ⟨outputs, -, h⟩ := Outcome.bind_eq_ok.mp h
    split at h
    · cases h
    · cases h
      rfl

theorem behaviour_finished (plan : Plan) (text : List Char) (notes : List Note) :
    (finished plan text notes).plan.behaviour = plan.behaviour := by
  unfold finished
  split <;> rfl

theorem behaviour_of_ending {notes : List Note} {r : Result} (h : ending job plan p notes = .ok r) :
    r.plan.behaviour = plan.behaviour := by
  unfold ending at h
  split at h
  · obtain ⟨⟨text, final⟩, hshown, rfl⟩ := Outcome.map_eq_ok.mp h
    rw [behaviour_finished, behaviour_of_shown hshown]
  · cases h
    exact behaviour_finished plan job.code notes

theorem exists_of_mem_errors {errors : List Note} (h : diagnosed job plan p = .ok errors) {n : Note}
    (hn : n ∈ errors) :
    ∃ s ∈ plan.sections, Language.isSource s.extension = true ∧ ∃ c found, p = .ok c ∧
      c.diagnostics s.path = .ok found ∧ ∃ e ∈ found, Work.errorNote? plan s e = some n := by
  obtain ⟨found, hfound, h⟩ := Outcome.bind_eq_ok.mp h
  obtain ⟨_, -, rfl⟩ := Outcome.map_eq_ok.mp h
  have hmem := (List.mem_filter.mp hn).1
  unfold Answered.errors at hfound
  split at hfound
  · cases hfound
    exact absurd hmem List.not_mem_nil
  · obtain ⟨lists, hlists, hfound⟩ := Outcome.bind_eq_ok.mp hfound
    obtain rfl : lists.flatten = found := Except.ok.inj hfound
    obtain ⟨notes, hnotes, hmem⟩ := List.mem_flatten.mp hmem
    obtain ⟨s, hs, hreported⟩ := Outcome.exists_of_mem_mapM hlists hnotes
    obtain ⟨ds, hds, hreported⟩ := Outcome.bind_eq_ok.mp hreported
    obtain ⟨c, hc, hds⟩ := Outcome.bind_eq_ok.mp hds
    obtain rfl : ds.filterMap (Work.errorNote? plan s) = notes := Except.ok.inj hreported
    obtain ⟨e, he, hnote⟩ := List.mem_filterMap.mp hmem
    obtain ⟨hsection, hsource⟩ := List.mem_filter.mp hs
    exact ⟨s, hsection, hsource, c, ds, hc, hds, e, he, hnote⟩

theorem body_of_mem_errors {errors : List Note} (h : diagnosed job plan p = .ok errors) {n : Note}
    (hn : n ∈ errors) : ∃ code filename id text level, n.body = .error code filename id text level := by
  obtain ⟨s, -, -, _, _, -, -, e, -, hnote⟩ := exists_of_mem_errors h hn
  obtain ⟨-, rfl⟩ := Work.errorNote?_eq_some hnote
  exact ⟨_, _, _, _, _, rfl⟩

end Answered

theorem Note.isTag_eq_false {n : Note} (h : ∀ name text, n.body ≠ .tag name text) :
    n.isTag = false := by
  unfold isTag kindName
  cases hbody : n.body with
  | tag name text => exact absurd hbody (h name text)
  | _ => rfl

/-- A note where erasure leaves it. -/
def Plan.settled (plan : Plan) (n : Note) : Note := (Work.anchor plan n).erase plan.removals

theorem Plan.body_settled (plan : Plan) (n : Note) : (plan.settled n).body = n.body := by
  unfold settled Work.anchor
  dsimp only
  split
  · rfl
  · split <;> rfl

theorem Plan.length_settled (plan : Plan) (n : Note) : (plan.settled n).length = n.length := by
  unfold settled Work.anchor
  dsimp only
  split
  · rfl
  · split <;> rfl

theorem Plan.settled_of_not_tag (plan : Plan) {n : Note} (h : n.isTag = false) :
    plan.settled n = n.erase plan.removals := by
  unfold settled Work.anchor
  rw [h]
  rfl

/-- Where the notes of a result come from: from the tags, from the registered sections and from the
errors of the files. -/
structure Result.Gathered (r : Result) (a : Annotator) (q : Request) (w : World) (plan : Plan)
    (tags : List Note) (parts : List (List Note)) (errors : List Note) : Prop where
  reading : a.reading q = .ok (plan, tags)
  final : r.plan = { plan with removals := Span.mergeDescending plan.removals }
  noted : (plan.identified w.trees).mapM
    (Answered.noted (a.job q) plan (w.serving a.slot a.script plan.options)) = .ok parts
  tagged : ∀ n ∈ tags, ∃ name text, n.body = .tag name text
  reported : ∀ n ∈ errors, ∃ code filename id text level, n.body = .error code filename id text level
  notes : r.notes = Note.resolveAll r.code ((tags ++ parts.flatten ++ errors).map plan.settled)

namespace Plan

/-- A note where a result has it; on a text that keeps its directives notes do not move. -/
def moved (plan : Plan) (n : Note) : Note :=
  if plan.behaviour.keepNotations then n else plan.settled n

def standing (plan : Plan) (notes : List Note) : List Note :=
  if plan.behaviour.showEmit then [] else notes.map plan.moved

def shownText (plan : Plan) (text : List Char) : List Char :=
  if plan.behaviour.keepNotations then text else Span.eraseText text plan.removals

theorem body_moved (plan : Plan) (n : Note) : (plan.moved n).body = n.body := by
  unfold moved
  split
  · rfl
  · exact plan.body_settled n

theorem length_moved (plan : Plan) (n : Note) : (plan.moved n).length = n.length := by
  unfold moved
  split
  · rfl
  · exact plan.length_settled n

section Moved
variable {plan : Plan} (hproper : ∀ s ∈ plan.removals, s.Proper) {text : List Char} {n : Note}
  (htag : n.isTag = false) (hstart : 0 ≤ n.start) (hlength : 0 ≤ n.length)
  (hkept : 0 ≤ (plan.moved n).start)
include hproper htag hstart hlength hkept

theorem moved_add_le_iff (hinside : n.start ≤ text.length) :
    (plan.moved n).start + n.length ≤ (plan.shownText text).length ↔
      n.start + n.length ≤ text.length := by
  unfold moved at hkept
  unfold shownText moved
  split at hkept
  · next hkeep => rw [if_pos hkeep, if_pos hkeep]
  · next hkeep =>
    rw [plan.settled_of_not_tag htag] at hkept
    rw [if_neg hkeep, if_neg hkeep, plan.settled_of_not_tag htag]
    exact Span.eraseStart_add_le_iff hproper hstart hlength hkept hinside

theorem between_moved (hstop : n.start + n.length ≤ text.length) :
    Text.between (plan.shownText text) (plan.moved n).start ((plan.moved n).start + n.length) =
      Text.between text n.start (n.start + n.length) := by
  unfold moved at hkept
  unfold shownText moved
  split at hkept
  · next hkeep => rw [if_pos hkeep, if_pos hkeep]
  · next hkeep =>
    rw [plan.settled_of_not_tag htag] at hkept
    rw [if_neg hkeep, if_neg hkeep, plan.settled_of_not_tag htag]
    exact Span.between_eraseText hproper hstart hlength hkept hstop

end Moved

end Plan

theorem Answered.notes_of_ending {job : Job} {plan : Plan} {p : Except Failure Checker}
    {notes : List Note} {r : Result} (h : ending job plan p notes = .ok r) :
    r.notes = Note.resolveAll r.code (plan.standing notes) := by
  unfold ending at h
  unfold Plan.standing
  split at h
  · next hemit =>
    obtain ⟨⟨text, final⟩, -, rfl⟩ := Outcome.map_eq_ok.mp h
    rw [if_pos hemit]
    unfold finished
    split <;> rfl
  · next hemit =>
    cases h
    rw [if_neg hemit]
    unfold finished Plan.moved
    split
    · rw [List.map_id']
    · rfl

theorem Answered.code_of_ending {job : Job} {plan : Plan} {p : Except Failure Checker}
    {notes : List Note} {r : Result} (h : ending job plan p notes = .ok r)
    (hemit : plan.behaviour.showEmit = false) : r.code = plan.shownText job.code := by
  unfold ending at h
  rw [hemit] at h
  cases h
  unfold finished Plan.shownText
  split <;> rfl

theorem Answered.plan_of_ending {job : Job} {plan : Plan} {p : Except Failure Checker}
    {notes : List Note} {r : Result} (h : ending job plan p notes = .ok r)
    (hemit : plan.behaviour.showEmit = false) : ∃ removals, r.plan = { plan with removals } := by
  unfold ending at h
  rw [hemit] at h
  cases h
  unfold finished
  split
  · exact ⟨plan.removals, rfl⟩
  · exact ⟨Span.mergeDescending plan.removals, rfl⟩

theorem Answered.exists_of_mem_notes {job : Job} {plan : Plan} {p : Except Failure Checker}
    {notes : List Note} {r : Result} (h : ending job plan p notes = .ok r) {n : Note}
    (hn : n ∈ r.notes) :
    plan.behaviour.showEmit = false ∧
      ∃ m ∈ notes, 0 ≤ (plan.moved m).start ∧ n = (plan.moved m).resolve r.code := by
  rw [notes_of_ending h] at hn
  obtain ⟨k, hk, hstart, rfl⟩ := Note.mem_resolveAll hn
  unfold Plan.standing at hk
  split at hk
  · exact absurd hk List.not_mem_nil
  · next hemit =>
    obtain ⟨m, hm, rfl⟩ := List.mem_map.mp hk
    exact ⟨Bool.eq_false_iff.mpr hemit, m, hm, hstart, rfl⟩

namespace Annotator
variable {a : Annotator} {q : Request} {w : World} {r : Result}

/-- The plan of a call and the notes in the order in which the call collects them: those of the tags,
of one section after the other, and the errors of the files. -/
def collected (a : Annotator) (q : Request) (w : World) : Except Failure (Plan × List Note) := do
  let (plan, tags) ← a.reading q
  let p := w.serving a.slot a.script plan.options
  let found ← Answered.populated (a.job q) plan p w.trees plan.taken
  let errors ← Answered.diagnosed (a.job q) plan (p.map (·.holding plan.taken))
  return (plan, (tags ++ found).filter (a.job q).keeps ++ errors)

/-- A call collects its notes before it makes a result of them. -/
theorem annotate_eq_collected (a : Annotator) (q : Request) (w : World) :
    (a.annotate q w).1 = (a.collected q w >>= fun x => Answered.ending (a.job q) x.1
      ((w.serving a.slot a.script x.1.options).map (·.holding x.1.taken)) x.2) := by
  rw [annotate_fst]
  unfold collected Answered.outcome
  simp only [bind_assoc, pure_bind]

theorem exists_collected (h : (a.annotate q w).1 = .ok r) :
    ∃ plan notes, a.collected q w = .ok (plan, notes) ∧ Answered.ending (a.job q) plan
      ((w.serving a.slot a.script plan.options).map (·.holding plan.taken)) notes = .ok r := by
  rw [annotate_eq_collected] at h
  obtain ⟨⟨plan, notes⟩, hcollected, hending⟩ := Outcome.bind_eq_ok.mp h
  exact ⟨plan, notes, hcollected, hending⟩

theorem collected_ok {plan : Plan} {notes : List Note} (h : a.collected q w = .ok (plan, notes)) :
    ∃ tags found errors, a.reading q = .ok (plan, tags) ∧
      Answered.populated (a.job q) plan (w.serving a.slot a.script plan.options) w.trees plan.taken =
        .ok found ∧
      Answered.diagnosed (a.job q) plan
        ((w.serving a.slot a.script plan.options).map (·.holding plan.taken)) = .ok errors ∧
      notes = (tags ++ found).filter (a.job q).keeps ++ errors := by
  unfold collected at h
  obtain ⟨⟨plan', tags⟩, hread, h⟩ := Outcome.bind_eq_ok.mp h
  obtain ⟨found, hfound, h⟩ := Outcome.bind_eq_ok.mp h
  obtain ⟨errors, herrors, h⟩ := Outcome.bind_eq_ok.mp h
  cases h
  exact ⟨tags, found, errors, hread, hfound, herrors, rfl⟩

theorem body_of_mem_tags {plan : Plan} {tags : List Note} (h : a.reading q = .ok (plan, tags))
    {n : Note} (hn : n ∈ tags) : ∃ name text, n.body = .tag name text := by
  obtain ⟨start, -, hplan⟩ := Outcome.bind_eq_ok.mp h
  obtain ⟨flags, _, -, -, -, rfl, -⟩ := Plan.read_ok hplan
  obtain ⟨f, -, hf⟩ := List.mem_filterMap.mp hn
  obtain ⟨-, rfl⟩ := Plan.tagNote?_eq_some hf
  exact ⟨_, _, rfl⟩

/-- A call that shows its sample without its directives and keeps all notes. -/
theorem exists_gathered (h : (a.annotate q w).1 = .ok r)
    (hemit : r.plan.behaviour.showEmit = false) (hkeep : r.plan.behaviour.keepNotations = false)
    (hkept : (a.job q).kept = none) :
    ∃ plan tags parts errors, r.Gathered a q w plan tags parts errors := by
  obtain ⟨plan, notes, hcollected, hending⟩ := exists_collected h
  obtain ⟨tags, found, errors, hread, hpopulated, hdiagnosed, rfl⟩ := collected_ok hcollected
  have hbehaviour := Answered.behaviour_of_ending hending
  rw [hbehaviour] at hemit hkeep
  obtain ⟨parts, hparts, rfl⟩ := Answered.populated_ok hemit hpopulated
  have hkeeps : (a.job q).keeps = fun _ => true := by
    unfold Job.keeps
    rw [hkept]
    rfl
  unfold Answered.ending Answered.finished at hending
  rw [hemit, hkeep, if_neg Bool.false_ne_true, if_neg Bool.false_ne_true, hkeeps,
    List.filter_eq_self.mpr fun _ _ => rfl] at hending
  obtain rfl := Except.ok.inj hending
  refine ⟨plan, tags, parts, errors, hread, rfl, hparts, ?_, ?_, rfl⟩
  · exact fun n hn => body_of_mem_tags hread hn
  · exact fun n hn => Answered.body_of_mem_errors hdiagnosed hn

end Annotator

def Checker.infoIn (c : Checker) (text : List Char) (offset : Int) : Option QuickInfo :=
  (wordAt? text offset).bind fun w => c.quickInfo.lookup (String.ofList w.text)

theorem Checker.infoAt_create_self (c : Checker) (path : String) (content : List Char) (offset : Int) :
    (c.create path content).infoAt path offset = .ok (c.infoIn content offset) := by
  unfold infoAt textOf
  rw [file?_create_self]
  rfl

end Marginalia
